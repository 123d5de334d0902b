import CoolBackend.Proofs.Decoding
import CoolBackend.Proofs.WrittenRecords

/-!
Many bytes hold the same program, and those that encoding gives are one choice among them. Whatever
was read can be written again and read back, as long as there is room for one more level: a position
is written even where none was given.
-/
namespace CoolBackend

theorem Expr.textValid_of_content {e : Expr} (valid : e.content.toText?.isSome) : e.textValid := by
  cases e with
  | constant info value =>
    cases value with
    | string value => exact valid
    | _ => rfl
  | _ => rfl

namespace Wire

/-- An expression that can be written again, in one level more than it was read from. -/
structure Kept (levels : Nat) (e : CoolBackend.Expr) : Prop where
  portable : ∀ part ∈ e.parts, part.Portable
  fits : (ofExpr e).Fits
  within : (ofExpr e).toItem.Within (levels + 1)

structure KeptBinding (levels : Nat) (b : CoolBackend.Binder × CoolBackend.Expr) : Prop where
  span : b.1.span.IsPoint
  storable : (Binder.ofBinder b.1).Storable
  expr : Kept levels b.2

theorem kept_absent (levels : Nat) : Kept levels .absent :=
  ⟨List.forall_mem_nil _,.null,within_simple 22⟩

theorem isPoint_toSpan (pos : Pos) : pos.toSpan.IsPoint := rfl

theorem storable_toBinder {b : Binder} (storable : b.Storable) :
    (Binder.ofBinder b.toBinder).Storable := ⟨storable.name,storable.type⟩

/-- What is directly inside an expression can be written again. The room is that of the record which
the expression was read from. -/
structure KeptInside (levels : Nat) (e : CoolBackend.Expr) : Prop where
  receiver : Kept (levels - 1) e.receiver
  fewOperands : e.operands.length ≤ Cbor.maxElements
  operands : ∀ o ∈ e.operands, 2 < levels ∧ Kept (levels - 2) o
  fewBindings : e.bindings.length ≤ Cbor.maxElements
  bindings : ∀ b ∈ e.bindings, 2 < levels ∧ KeptBinding (levels - 3) b

section Expressions

variable {levels : Nat} {e : CoolBackend.Expr}

theorem KeptInside.portable (inner : KeptInside levels e) (present : e.isAbsent = false)
    (span : e.info.span.IsPoint) (content : e.content.Storable) :
    ∀ part ∈ e.parts, part.Portable := by
  have own : e.Portable := by
    refine ⟨span,?_,CoolBackend.Expr.textValid_of_content content.valid⟩
    rw [CoolBackend.Expr.binders_eq]
    exact List.forall_mem_map.mpr fun b member => (inner.bindings b member).2.span
  intro part member
  rcases (CoolBackend.Expr.mem_parts present).mp member with rfl | ⟨child,inside,member⟩
  · exact own
  · rcases CoolBackend.Expr.child_cases inside with rfl | inside | inside
    · exact inner.receiver.portable part member
    · exact (inner.operands child inside).2.portable part member
    · obtain ⟨b,among,rfl⟩ := List.mem_map.mp inside
      exact (inner.bindings b among).2.expr.portable part member

theorem KeptInside.fits (inner : KeptInside levels e) {f : Fields} (storable : f.Storable) :
    (Expr.node f (ofExpr e.receiver) (e.operands.map ofExpr) (ofBindings e.bindings)).Fits := by
  refine .node storable.str.valid ?_ ?_ inner.receiver.fits ?_ ?_
  · simpa using inner.fewOperands
  · simpa [ofBindings_eq] using inner.fewBindings
  · exact List.forall_mem_map.mpr fun o member => (inner.operands o member).2.fits
  · intro b e member
    obtain ⟨binding,among,-,rfl⟩ := mem_ofBindings_iff.mp member
    exact (inner.bindings binding among).2.expr.fits

theorem KeptInside.within (inner : KeptInside levels e) (positive : 0 < levels) {f : Fields}
    (storable : f.Storable) :
    (Expr.node f (ofExpr e.receiver) (e.operands.map ofExpr) (ofBindings e.bindings)).toItem.Within
      (levels + 1) := by
  refine Expr.within_toItem positive storable ?_ ?_ ?_ ?_ ?_ ?_
  · simpa using inner.fewOperands
  · simpa [ofBindings_eq] using inner.fewBindings
  · exact fun _ => inner.receiver.within.mono (by omega)
  · refine List.forall_mem_map.mpr fun o member => ?_
    obtain ⟨room,kept⟩ := inner.operands o member
    exact kept.within.mono (by omega)
  · intro some
    obtain ⟨b,among⟩ := List.exists_mem_of_ne_nil e.bindings fun none => some (by rw [none]; rfl)
    exact (inner.bindings b among).1
  · intro b e member
    obtain ⟨binding,among,rfl,rfl⟩ := mem_ofBindings_iff.mp member
    obtain ⟨room,kept⟩ := inner.bindings binding among
    exact ⟨kept.storable,fun _ => kept.expr.within.mono (by omega)⟩

/-- The step from what is directly inside an expression to the whole. -/
theorem KeptInside.kept (inner : KeptInside levels e) (present : e.isAbsent = false)
    (positive : 0 < levels) (span : e.info.span.IsPoint)
    (type : (Bytes.ofText e.staticType).Storable)
    (names : ∀ s ∈ e.names, (Bytes.ofText s).Storable) (content : e.content.Storable) :
    Kept levels e := by
  obtain ⟨f,record,storable⟩ := ofExpr_eq present
  have storable := storable type names content
  refine ⟨inner.portable present span content,?_,?_⟩
  · rw [record]
    exact inner.fits storable
  · rw [record]
    exact inner.within positive storable

theorem keptBinding {records : List (Option (Binder × Expr))}
    {b : CoolBackend.Binder × CoolBackend.Expr}
    (origin : ∃ record, some record ∈ records ∧
      BindingOf (fun e => orAbsent e e.toExpr) record b)
    (binders : ∀ b e, some (b,e) ∈ records → b.Storable)
    (each : ∀ b record, some (b,record) ∈ records → ∀ e, record.toExpr = .ok e → Kept levels e) :
    KeptBinding levels b := by
  obtain ⟨⟨binder,record⟩,inside,same,read⟩ := origin
  refine ⟨?_,?_,?_⟩
  · rw [same]
    exact isPoint_toSpan _
  · rw [same]
    exact storable_toBinder (binders binder record inside)
  · rcases orAbsent_cases read with none | read
    · rw [none]
      exact kept_absent levels
    · exact each binder record inside b.2 read

/-- What is read from a record within bounds takes one level more when it is written, and was not
read from nothing. -/
theorem Expr.Within.kept {record : Expr} (within : record.Within levels) :
    ∀ e, record.toExpr = .ok e → 0 < levels ∧ Kept levels e := by
  induction within with
  | null => exact fun e run => by cases run
  | @node levels f receiver kids bindings named storable fewKids fewBindings _ _ binders _ onReceiver
      eachKid eachBinding =>
    intro e run
    have found := readFrom_of_toExpr run
    have positive := named (kind_of_toExpr run)
    have receiver : Kept (levels - 1) e.receiver := by
      rcases found.receiver with none | read
      · rw [none]
        exact kept_absent _
      · exact (onReceiver _ read).2
    have operands : e.operands.length ≤ Cbor.maxElements ∧
        ∀ o ∈ e.operands, 2 < levels ∧ Kept (levels - 2) o := by
      rcases found.operands with none | read
      · rw [none]
        exact ⟨Nat.zero_le _,List.forall_mem_nil _⟩
      · obtain ⟨length,origin⟩ := toExprs_origin read
        refine ⟨by omega,fun o member => ?_⟩
        obtain ⟨kid,inside,read⟩ := origin o member
        obtain ⟨room,kept⟩ := eachKid kid inside o read
        exact ⟨by omega,kept⟩
    have bindings : ∀ b ∈ e.bindings, 2 < levels ∧ KeptBinding (levels - 3) b := by
      intro b member
      -- The operand that goes with the bindings lies as deep as they do.
      obtain ⟨o,operand⟩ := List.exists_mem_of_ne_nil _ (found.body (List.ne_nil_of_mem member))
      refine ⟨(operands.2 o operand).1,keptBinding (found.bindings.2 b member) binders ?_⟩
      exact fun b record inside e read => (eachBinding b record inside e read).2
    have inner : KeptInside levels e :=
      ⟨receiver,operands.1,operands.2,Nat.le_trans found.bindings.1 fewBindings,bindings⟩
    refine ⟨positive,inner.kept found.present positive ?_ ?_ ?_ ?_⟩
    · rw [found.info]
      exact isPoint_toSpan _
    · rw [CoolBackend.Expr.staticType,found.info]
      exact storable.texts f.type (by simp [Fields.texts])
    · intro s member
      rcases found.names s member with rfl | rfl
      · exact storable.texts f.name (by simp [Fields.texts])
      · exact storable.texts f.className (by simp [Fields.texts])
    · rcases found.content with none | given
      · rw [none]
        exact Bytes.storable_nil
      · rw [given]
        exact storable.str

end Expressions

structure KeptMethod (levels : Nat) (m : MethodDecl) : Prop where
  span : m.span.IsPoint
  formals : ∀ f ∈ m.formals, f.span.IsPoint
  parts : ∀ e ∈ m.body.parts, e.Portable
  fits : (Method.ofMethod m).Fits
  within : (Method.ofMethod m).toItem.Within (levels + 2)

structure KeptClass (levels : Nat) (c : ClassDecl) : Prop where
  portable : c.Portable
  parts : ∀ e ∈ c.parts, e.Portable
  fits : (Class.ofClass c).Fits
  within : (Class.ofClass c).toItem.Within (levels + 4)

section Programs

variable {levels : Nat} (room : 2 ≤ levels)
include room

theorem Method.Within.kept {className : String} {record : Method} {m : MethodDecl}
    (within : record.Within levels) (run : record.toMethod className = .ok m) :
    KeptMethod levels m := by
  rw [Method.toMethod] at run
  obtain ⟨body,read,run⟩ := except_bind_eq_ok.mp run
  obtain ⟨formals,readFormals,run⟩ := except_bind_eq_ok.mp run
  cases run
  obtain ⟨-,kept⟩ := within.body.kept body (mapError_eq_ok.mp read)
  obtain ⟨length,origin⟩ := toFormals_origin readFormals
  have few : formals.length ≤ Cbor.maxElements := length ▸ within.fewFormals
  have each (f) (member : f ∈ formals) : f.span.IsPoint ∧ (Binder.ofBinder f).Storable := by
    obtain ⟨b,inside,rfl⟩ := origin f member
    exact ⟨isPoint_toSpan _,storable_toBinder (within.formals b inside)⟩
  refine ⟨isPoint_toSpan _,fun f member => (each f member).1,kept.portable,?_,?_⟩
  · exact ⟨by simpa [Method.ofMethod] using few,kept.fits⟩
  · refine Method.within_toItem (by omega) within.name within.returnType ?_ ?_ kept.within
    · simpa [Method.ofMethod] using few
    · intro b member
      obtain ⟨f,inside,same⟩ := List.mem_map.mp member
      cases same
      exact (each f inside).2

theorem Class.Within.kept {record : Class} {c : ClassDecl} (within : record.Within levels)
    (run : record.toClass = .ok c) : KeptClass levels c := by
  rw [Class.toClass] at run
  obtain ⟨attributes,readAttributes,run⟩ := except_bind_eq_ok.mp run
  obtain ⟨methods,readMethods,run⟩ := except_bind_eq_ok.mp run
  cases run
  obtain ⟨lengthAttributes,originAttributes⟩ := toAttributes_origin readAttributes
  obtain ⟨lengthMethods,originMethods⟩ := toMethods_origin readMethods
  have fewAttributes : (ofBindings attributes).length ≤ Cbor.maxElements := by
    rw [ofBindings_eq,List.length_map,lengthAttributes]
    exact within.fewAttributes
  have fewMethods : (methods.map fun m => some (Method.ofMethod m)).length ≤ Cbor.maxElements := by
    rw [List.length_map,lengthMethods]
    exact within.fewMethods
  have declared (a) (member : a ∈ attributes) : KeptBinding levels a :=
    keptBinding (originAttributes a member) (fun b e inside => (within.attributes b e inside).1)
      fun b record inside e read => ((within.attributes b record inside).2.kept e read).2
  have defined (m) (member : m ∈ methods) : KeptMethod levels m := by
    obtain ⟨record,inside,read⟩ := originMethods m member
    exact (within.methods record inside).kept room read
  refine ⟨⟨isPoint_toSpan _,within.file.valid,?_,?_,?_⟩,?_,⟨within.file.valid,fewAttributes,
    fewMethods,?_,?_⟩,Class.within_toItem (by omega) within.file within.name
      within.parent fewAttributes ?_ fewMethods ?_⟩
  · exact fun a member => (declared a member).span
  · exact fun m member => (defined m member).span
  · exact fun m member => (defined m member).formals
  · intro e member
    rcases ClassDecl.mem_parts.mp member with ⟨a,among,inside⟩ | ⟨m,among,inside⟩
    · exact (declared a among).expr.portable e inside
    · exact (defined m among).parts e inside
  · intro b e member
    obtain ⟨a,among,-,rfl⟩ := mem_ofBindings_iff.mp member
    exact (declared a among).expr.fits
  · intro record member
    obtain ⟨m,among,same⟩ := List.mem_map.mp member
    cases same
    exact (defined m among).fits
  · intro b e member
    obtain ⟨a,among,rfl,rfl⟩ := mem_ofBindings_iff.mp member
    exact ⟨(declared a among).storable,fun _ => (declared a among).expr.within⟩
  · intro record member
    obtain ⟨m,among,same⟩ := List.mem_map.mp member
    cases same
    exact (defined m among).within

/-- The whole program, in six levels more than its initializers and bodies were read from. -/
theorem Program.Within.kept {record : Program} {p : CoolBackend.Program}
    (within : record.Within levels) (run : record.toProgram = .ok p) :
    p.Portable ∧ (Program.ofProgram p).Fits ∧
      (Program.ofProgram p).toItem.Within (levels + 6) := by
  obtain ⟨classes,read,run⟩ := except_bind_eq_ok.mp run
  cases run
  obtain ⟨length,origin⟩ := toClasses_origin read
  have each (c) (member : c ∈ classes) : KeptClass levels c := by
    obtain ⟨record,inside,read⟩ := origin c member
    exact (within.classes record inside).kept room read
  have few : (classes.map fun c => some (Class.ofClass c)).length ≤ Cbor.maxElements := by
    rw [List.length_map,length]
    exact within.fewClasses
  have written (record) (member : some record ∈ classes.map fun c => some (Class.ofClass c)) :
      ∃ c ∈ classes, record = Class.ofClass c := by
    obtain ⟨c,among,same⟩ := List.mem_map.mp member
    exact ⟨c,among,(Option.some.inj same).symm⟩
  refine ⟨⟨fun c member => (each c member).portable,?_⟩,⟨few,?_⟩,
    Program.within_toItem few ?_⟩
  · intro e member
    obtain ⟨c,among,inside⟩ := List.mem_flatMap.mp member
    exact (each c among).parts e inside
  · intro record member
    obtain ⟨c,among,rfl⟩ := written record member
    exact (each c among).fits
  · intro record member
    obtain ⟨c,among,rfl⟩ := written record member
    exact (each c among).within

end Programs

end Wire

/-- Whatever bytes a program was read from, it is complete, its positions are points and its texts
are valid; and reading the bytes that it is written to gives it again. The bytes that it was read
from are fewer than `2 ^ 64`, and leave room for one more level. -/
theorem Program.decode_encode_of_decode {bytes : Bytes} {item : Cbor.Item} {p : Program}
    (size : bytes.length < 2 ^ 64) (parsed : Cbor.parse bytes = .ok item)
    (nesting : item.depth + 1 ≤ Cbor.maxNesting) (accepted : Program.decode bytes = .ok p) :
    p.Complete ∧ p.Portable ∧ Program.decode p.encode = .ok p := by
  have complete := Program.complete_of_decode accepted
  obtain ⟨other,records,same,read,program⟩ := Program.decode_eq_ok.mp accepted
  obtain rfl : other = item := Except.ok.inj (same.symm.trans parsed)
  have inside : other.Within (Cbor.maxNesting - 6 + 5) :=
    ⟨Cbor.sized_of_parse parsed size,Nat.le_of_succ_le_succ nesting⟩
  obtain ⟨portable,fits,within⟩ :=
    (Wire.readProgram_within read inside).kept (by decide) program
  refine ⟨complete,portable,Program.decode_eq_ok.mpr ⟨_,_,?_,fits.reads within.depth,?_⟩⟩
  · exact Cbor.parse_encode_of_sized fits.plain within.sized within.depth
  · exact Wire.toProgram_ofProgram complete portable

/-- A program as encoding never writes it: containers without a length, a key in capitals and one
that is a number, a name in two chunks, tags, and a null behind a tag for an attribute. -/
def sloppy : Bytes :=
  [0xbf,0x01,0xf6] ++ 0x67 :: Bytes.ofText "CLASSES" ++ [0x9f,0xd8,0x64,0xa4] ++
    0x64 :: Bytes.ofText "name" ++
      0x7f :: 0x62 :: Bytes.ofText "Ma" ++ 0x62 :: Bytes.ofText "in" ++ [0xff] ++
    0x65 :: Bytes.ofText "attrs" ++ [0x81,0xd9,0xd9,0xf7,0xf6] ++
    0x66 :: Bytes.ofText "parent" ++ [0xf6] ++
    0x67 :: Bytes.ofText "methods" ++ [0x81,0xa2] ++
      0x64 :: Bytes.ofText "name" ++ 0x64 :: Bytes.ofText "main" ++
      0x64 :: Bytes.ofText "body" ++ [0xa2] ++ 0x64 :: Bytes.ofText "kind" ++
        0x62 :: Bytes.ofText "id" ++ 0x64 :: Bytes.ofText "name" ++ 0x64 :: Bytes.ofText "self" ++
  [0xff,0xff]

def tidied : Program where
  classes := [{
    name := "Main"
    attributes := [({ name := "", type := "" },.absent)]
    methods := [{
      name := "main"
      formals := []
      returnType := ""
      body := .ident {} "self" .unknown }] }]

theorem sloppy_decode_encode : Program.decode sloppy = .ok tidied ∧ tidied.encode ≠ sloppy ∧
    tidied.Complete ∧ tidied.Portable ∧ Program.decode tidied.encode = .ok tidied := by
  have accepted : Program.decode sloppy = .ok tidied := rfl
  obtain ⟨item,-,parsed,-,-⟩ := Program.decode_eq_ok.mp accepted
  have shallow : (Cbor.parse sloppy).toOption.all (·.depth + 1 ≤ Cbor.maxNesting) := by
    decide +kernel
  rw [parsed] at shallow
  exact ⟨accepted,by decide +kernel,Program.decode_encode_of_decode (by decide +kernel) parsed
    (of_decide_eq_true shallow) accepted⟩

end CoolBackend
