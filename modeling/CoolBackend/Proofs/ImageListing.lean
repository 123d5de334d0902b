import CoolBackend.Proofs.ListingText

/-!
The tables, the routines and the program as a whole are texts of listings, as lowered code is: the
text of every image is that of its lines.
-/
namespace CoolBackend.Assembly

theorem joined_directive (name operand : String) (rest : List Line) :
    joined (.directive name [operand] :: rest) =
      "\t" ++ name ++ "\t" ++ operand ++ below rest := by
  simp [joined_cons,Line.text,statement]

theorem below_directive (name operand : String) (rest : List Line) :
    below (.directive name [operand] :: rest) =
      "\n\t" ++ name ++ "\t" ++ operand ++ below rest := by
  have start := fused (rfl : "\n" ++ "\t" = "\n\t")
  simp [below_cons,Line.text,statement,String.append_assoc,start]

theorem joined_section (name : String) (rest : List Line) :
    joined (.directive name [] :: rest) = "\t" ++ name ++ below rest := by
  simp [joined_cons,Line.text,statement]

theorem below_section (name : String) (rest : List Line) :
    below (.directive name [] :: rest) = "\n\t" ++ name ++ below rest := by
  have start := fused (rfl : "\n" ++ "\t" = "\n\t")
  simp [below_cons,Line.text,statement,String.append_assoc,start]

theorem below_blank (rest : List Line) : below (.blank :: rest) = "\n" ++ below rest := by
  simp [below_cons,Line.text]

/-- The texts of parts that write listings, one below the other. -/
theorem joinLines_flatMap {α : Type} (lines : α → List Line) {xs : List α}
    (solid : ∀ x ∈ xs, lines x ≠ [.blank]) :
    joinLines (xs.map fun x => joined (lines x)) = joined (xs.flatMap lines) := by
  have texts := joinLines_joined (List.forall_mem_map.mpr solid)
  rwa [List.map_map] at texts

theorem joinSpaced_map {α : Type} (lines : α → List Line) {xs : List α}
    (solid : ∀ x ∈ xs, lines x ≠ [] ∧ lines x ≠ [.blank]) :
    joinSpaced (xs.map fun x => joined (lines x)) = joined (spaced (xs.map lines)) := by
  have texts := joinSpaced_joined (List.forall_mem_map.mpr solid)
  rwa [List.map_map] at texts

/-- Parts that write listings have texts. -/
theorem renderBindings_listings {α : Type} (name : String) {value : α → Value}
    {lines : α → List Line} (xs : List α)
    (each : ∀ x, (value x).render Spim.group = .ok (joined (lines x))) :
    renderBindings Spim.group (xs.map fun x => (name,value x)) =
      (xs.map fun x => (name,joined (lines x))).map fun b => (b.1,.ok b.2) := by
  simp [each,Function.comp_def]

end CoolBackend.Assembly

namespace CoolBackend

open Assembly

attribute [local simp] Template.render Part.render joinLines_singleton joined_instruction
  below_instruction joined_label below_label joined_directive below_directive joined_section
  below_section below_blank Instruction.textAfter String.append_assoc Line.word renderBindings
  Value.render Code.repr_literals Code.register_names

theorem Literal.render_toValue (l : Literal) :
    l.toValue.render Spim.group = .ok (joined l.lines) := by
  cases l with
  | int label value =>
    exact render_listing [("name",label),("tag",toString (Builtin.intTag : Int)),
      ("value",toString value.toInt)] rfl rfl (by simp [Spim.intLiteral,lines,objectLines])
  | string label value length =>
    have quote := fused (rfl : "\n\t.asciiz\t" ++ "\"" = "\n\t.asciiz\t\"")
    exact render_listing [("name",label),("tag",toString (Builtin.stringTag : Int)),
      ("size",toString (string label value length).size),("length",length),
      ("value",escape value)] rfl rfl
      (by simp [Spim.stringLiteral,lines,objectLines,textLines,quote])
  | bool label value =>
    exact render_listing [("name",label),("tag",toString (Builtin.boolTag : Int)),
      ("value",toString (if value then 1 else 0 : Int))] rfl rfl
      (by simp [Spim.boolLiteral,lines,objectLines])

theorem PrototypeSlot.render_toValue (slot : PrototypeSlot) :
    slot.toValue.render Spim.group = .ok (joined slot.lines) := by
  cases slot with
  | word value =>
    exact render_listing [("initVal",value)] rfl rfl (by simp [Spim.attrib,lines])
  | emptyString length =>
    exact render_listing [("length",length),("value","")] rfl rfl
      (by simp [Spim.attribString,lines,textLines])

theorem PrototypeSlot.lines_solid (slot : PrototypeSlot) :
    slot.lines ≠ [] ∧ slot.lines ≠ [.blank] := by
  cases slot <;> simp [lines,textLines]

theorem Prototype.render_toValue (p : Prototype) :
    p.toValue.render Spim.group = .ok (joined p.lines) := by
  have slots := renderBindings_listings "attribs" p.slots PrototypeSlot.render_toValue
  have texts := joinLines_flatMap _ fun slot (_ : slot ∈ p.slots) => slot.lines_solid.2
  refine render_listing ([("className",p.className),("classId",toString (p.tag : Int)),
    ("classDim",toString (p.words : Int))] ++
    p.slots.map fun slot => ("attribs",joined slot.lines)) rfl ?_ ?_
  · simp_all
  · by_cases none : p.slots = []
    · simp [Spim.protObj,lines,objectLines,none]
    · have some : p.slots.flatMap PrototypeSlot.lines ≠ [] := by
        obtain ⟨slot,rest,given⟩ := List.exists_cons_of_ne_nil none
        simp [given,slot.lines_solid.1]
      simp [Spim.protObj,lines,objectLines,none,texts,below_eq some]

theorem joinLines_wordLines (labels : List String) :
    joinLines (labels.map wordOf) = joined (labels.map .word) := by
  rw [joinLines_words,joined,List.map_map]
  rfl

theorem DispatchTable.render_lines (t : DispatchTable) :
    t.toValue.render Spim.group = .ok (joined t.lines) := by
  refine render_listing (("className",t.className) ::
    t.labels.map fun label => ("methods",wordOf label)) rfl ?_ ?_
  · simp [Function.comp_def]
  · simp [Spim.dispatchTable,lines,joinLines_wordLines]

theorem repr_neg_ofNat {n : Nat} (some : n ≠ 0) : Int.repr (-(n : Int)) = "-" ++ Int.repr n := by
  obtain ⟨m,rfl⟩ := Nat.exists_eq_succ_of_ne_zero some
  rfl

theorem render_prologue (frameWords : Nat) :
    (prologue frameWords).render Spim.group = .ok (joined (code (prologueCode frameWords))) := by
  have minus := fused (rfl : "\n\taddiu\t$sp $sp " ++ "-" = "\n\taddiu\t$sp $sp -")
  refine render_listing (if frameWords = 0 then [] else
    [("frame",toString (frameWords * wordSize : Int))]) rfl ?_ ?_
  · by_cases none : frameWords = 0 <;> simp [frameBindings,none]
  · by_cases none : frameWords = 0
    · simp [Spim.prologue,prologueCode,none]
    · have size := repr_neg_ofNat (Nat.mul_ne_zero none (by decide : wordSize ≠ 0))
      simp_all [Spim.prologue,prologueCode]

theorem render_epilogue (frameWords formals : Nat) :
    (epilogue frameWords formals).render Spim.group =
      .ok (joined (code (epilogueCode frameWords formals))) := by
  have restore := fused (rfl : "\n" ++ "\tlw\t$fp 12($sp)" = "\n\tlw\t$fp 12($sp)")
  refine render_listing (("pop",toString (formalBase + wordSize * formals : Int)) ::
    if frameWords = 0 then [] else [("frame",toString (frameWords * wordSize : Int))]) rfl ?_ ?_
  · by_cases none : frameWords = 0 <;> simp [frameBindings,none]
  · by_cases none : frameWords = 0 <;> simp [Spim.epilogue,epilogueCode,none,restore]

theorem AttributeStore.render_toValue (s : AttributeStore) :
    s.toValue.render Spim.group = .ok (joined s.lines) := by
  have inner := s.value.render_toValue
  refine render_listing ([("initExpr",joined s.value.lines),("offset",toString s.offset)] ++
    if s.barrier then [("gcAssign","1")] else []) rfl ?_ ?_
  · cases given : s.barrier <;> simp [inner,Code.barrierBindings]
  · cases given : s.barrier <;> simp [Spim.attrInit,lines,Code.storeTo,given]

theorem AttributeStore.lines_solid (s : AttributeStore) : s.lines ≠ [] ∧ s.lines ≠ [.blank] := by
  have store : .instruction (.sw .a0 s.offset .s0) ∈ s.lines := by simp [lines,Code.storeTo]
  exact ⟨List.ne_nil_of_mem store,ne_blank_of_mem store⟩

theorem InitRoutine.render_toValue (r : InitRoutine) :
    r.toValue.render Spim.group = .ok (joined r.lines) := by
  have stores := renderBindings_listings "attrInit" r.stores AttributeStore.render_toValue
  have texts := joinLines_flatMap _ fun s (_ : s ∈ r.stores) => s.lines_solid.2
  have start : code (prologueCode r.frameWords) ≠ [] := by simp [prologueCode]
  have finish : code (epilogueCode r.frameWords 0) ≠ [] := by simp [epilogueCode]
  refine render_listing ([("className",r.className),
    ("prologue",joined (code (prologueCode r.frameWords))),
    ("epilogue",joined (code (epilogueCode r.frameWords 0)))] ++
    (r.parent.map fun parent => ("parent",parent)).toList ++
    r.stores.map fun s => ("attrInit",joined s.lines)) rfl ?_ ?_
  · cases r.parent <;> simp_all [render_prologue,render_epilogue]
  · by_cases none : r.stores = []
    · cases given : r.parent <;>
        simp [Spim.init,lines,none,given,below_eq start,below_eq finish]
    · have some : r.stores.flatMap AttributeStore.lines ≠ [] := by
        obtain ⟨s,rest,given⟩ := List.exists_cons_of_ne_nil none
        simp [given,s.lines_solid.1]
      cases given : r.parent <;>
        simp [Spim.init,lines,none,given,texts,below_eq some,below_eq start,below_eq finish]

theorem MethodRoutine.render_toValue (r : MethodRoutine) :
    r.toValue.render Spim.group = .ok (joined r.lines) := by
  have inner := r.body.render_toValue
  have start : code (prologueCode r.frameWords) ≠ [] := by simp [prologueCode]
  have finish : code (epilogueCode r.frameWords r.formals) ≠ [] := by simp [epilogueCode]
  refine render_listing [("className",r.className),("methodName",r.method),
    ("prologue",joined (code (prologueCode r.frameWords))),("body",joined r.body.lines),
    ("epilogue",joined (code (epilogueCode r.frameWords r.formals)))] rfl ?_ ?_
  · simp [render_prologue,render_epilogue,inner]
  · simp [Spim.methodDeclare,lines,below_eq start,below_eq finish]

theorem Literal.lines_ne_blank (l : Literal) : l.lines ≠ [.blank] := by
  cases l <;> simp [lines,objectLines]

theorem Prototype.lines_ne_blank (p : Prototype) : p.lines ≠ [.blank] := by
  simp [lines,objectLines]

theorem DispatchTable.lines_ne_blank (t : DispatchTable) : t.lines ≠ [.blank] := by simp [lines]

namespace Image

theorem objectWordsOf_eq (p : Prototype) :
    objectWordsOf p.className = joined (classObjects p) := rfl

theorem lines_ne_nil (image : Image) : image.lines ≠ [] := by simp [lines,header]

/-- The text of an image is that of its lines. -/
theorem render_lines (image : Image) :
    image.toFragment.render Spim.group = .ok (joined image.lines) := by
  have literals := joinLines_flatMap _ fun l (_ : l ∈ image.literals) => l.lines_ne_blank
  have bools := joinLines_flatMap _ fun l (_ : l ∈ Literal.bools) => l.lines_ne_blank
  have prototypes := joinLines_flatMap _ fun p (_ : p ∈ image.prototypes) => p.lines_ne_blank
  have tables := joinLines_flatMap _ fun t (_ : t ∈ image.dispatchTables) => t.lines_ne_blank
  have objects := joinLines_flatMap classObjects fun p (_ : p ∈ image.prototypes) =>
    by simp [classObjects]
  have inits := joinSpaced_map InitRoutine.lines fun r (_ : r ∈ image.inits) =>
    by simp [InitRoutine.lines]
  have methods := joinSpaced_map MethodRoutine.lines fun r (_ : r ∈ image.methods) =>
    by simp [MethodRoutine.lines]
  refine render_listing (
    [("intTag",toString (Builtin.intTag : Int)),("boolTag",toString (Builtin.boolTag : Int)),
      ("stringTag",toString (Builtin.stringTag : Int)),("gcInit",image.options.gc.initializer),
      ("gcCollect",image.options.gc.collector),
      ("gcTest",toString (if image.options.gcTest then 1 else 0 : Int))] ++
    image.classNames.map (fun label => ("classNames",wordOf label)) ++
    image.prototypes.map (fun p => ("classObjects",joined (classObjects p))) ++
    image.prototypes.map (fun p => ("protObjs",joined p.lines)) ++
    image.dispatchTables.map (fun t => ("dispTabs",joined t.lines)) ++
    image.inits.map (fun r => ("inits",joined r.lines)) ++
    image.methods.map (fun r => ("methods",joined r.lines)) ++
    image.literals.map (fun l => ("literalConsts",joined l.lines)) ++
    Literal.bools.map (fun l => ("boolConsts",joined l.lines))) rfl ?_ ?_
  · simp [toFragment,objectWordsOf_eq,Function.comp_def,Literal.render_toValue,
      Prototype.render_toValue,DispatchTable.render_lines,InitRoutine.render_toValue,
      MethodRoutine.render_toValue]
  · simp [Spim.program,lines,header,dataLines,textSection,globals,variableLines,literals,bools,
      prototypes,tables,objects,inits,methods,joinLines_wordLines]

end Image

end CoolBackend
