import CoolBackend.Proofs.Assembling
import CoolBackend.Proofs.AttributeLayouts

/-!
A layout puts the zero and the empty string first into the pool, so that every later request finds
them there. The words of a prototype are therefore known beforehand: each is the default of the type
that its slot was first declared with.
-/
namespace CoolBackend

namespace LiteralPool

def base : List Literal := [.int "int_const0" 0,.string "str_const0" [] "int_const0"]

def Based (pool : LiteralPool) : Prop := base <+: pool.entries

variable {pool : LiteralPool}

theorem Based.grows {after : LiteralPool} (based : pool.Based) (grows : pool.Grows after) :
    after.Based := List.IsPrefix.trans based grows.kept

theorem Based.int_zero (based : pool.Based) : pool.int 0 = ("int_const0",pool) := by
  obtain ⟨rest,entries⟩ := based
  have found : pool.ints.lookup 0 = some "int_const0" := by
    rw [pool.ints_eq,← entries]
    rfl
  rw [LiteralPool.int,found]

theorem Based.string_empty (based : pool.Based) : pool.string [] = ("str_const0",pool) := by
  obtain ⟨rest,entries⟩ := based
  have found : pool.strings.lookup [] = some "str_const0" := by
    rw [pool.strings_eq,← entries]
    rfl
  rw [LiteralPool.string,found]

end LiteralPool

theorem Session.based_of_layout {p : Program} {options : Options} {s : Session}
    (run : layout p { options } = .ok () s) : s.supply.literals.Based := by
  have first : ((({} : Supply).int 0).2.string []).2.literals.Based :=
    List.prefix_refl LiteralPool.base
  exact first.grows (layout_requests_names run).grows

def defaultWord (type : String) : String :=
  if type = Builtin.intName then "int_const0"
  else if type = Builtin.boolName then Literal.falseLabel
  else if type = Builtin.stringName then "str_const0"
  else "0"

namespace ClassTable

def prototype (classes : ClassTable) (c : ClassEntry) : Prototype where
  className := c.name
  tag := c.tag
  words := (classes.objectSize c.tag).1
  slots := if c.name = Builtin.stringName then [.emptyString "int_const0"]
    else (classes.slots c).map fun slot => .word (defaultWord slot.type)

def RawDefault (classes : ClassTable) : Prop :=
  ∀ c ∈ classes.toList, ∀ a ∈ c.attributes, ∀ word ∈ a.raw, word = defaultWord a.type

theorem rawDefault_of_declared {p : Program} {table : ClassTable}
    (same : table.toList.map ClassEntry.bare = p.declared) : table.RawDefault := by
  intro c member a own word given
  have all : ∀ b ∈ Builtin.all, ∀ a ∈ b.attributes, ∀ word ∈ a.raw, word = defaultWord a.type := by
    decide
  obtain ⟨b,among,builtin⟩ := builtin_of_raw same member own given
  exact all b among a builtin word given

end ClassTable

/-- The first declaration on a chain is the first in its class. -/
theorem find?_own_of_declarations {chain : List ClassEntry} {name : String} {k : ClassEntry}
    {a : AttributeDecl} (found : (declarationsOf chain).find? (·.2.name = name) = some (k,a)) :
    k.attributes.find? (·.name = name) = some a := by
  induction chain with
  | nil => cases found
  | cons c rest ih =>
    rw [← List.singleton_append,declarationsOf_append,List.find?_append] at found
    cases above : (declarationsOf rest).find? (·.2.name = name) with
    | some first =>
      rw [above] at found
      exact ih (above.trans found)
    | none =>
      rw [above,Option.none_or] at found
      simp only [declarationsOf,List.reverse_singleton,List.flatMap_singleton,List.find?_map]
        at found
      obtain ⟨b,own,same⟩ := Option.map_eq_some_iff.mp found
      cases same
      exact own

/-- Steps that leave the state as it is can be taken one by one. -/
theorem mapM_run {ε σ α β : Type} {f : α → EStateM ε σ β} {g : α → β} {s : σ} {xs : List α}
    (each : ∀ x ∈ xs, f x s = .ok (g x) s) : xs.mapM f s = .ok (xs.map g) s := by
  induction xs with
  | nil => rfl
  | cons x xs ih =>
    obtain ⟨first,rest⟩ := List.forall_mem_cons.mp each
    rw [List.mapM_cons]
    exact bind_eq_ok.mpr ⟨_,s,first,bind_eq_ok.mpr ⟨_,s,ih rest,rfl⟩⟩

section Words

variable {classes : ClassTable} {c : ClassEntry} {s : Supply}

theorem int_zero_run (based : s.literals.Based) : LowerM.int 0 s = .ok "int_const0" s := by
  change EStateM.Result.ok (s.literals.int 0).1 { s with literals := (s.literals.int 0).2 } = _
  rw [based.int_zero]

theorem string_empty_run (based : s.literals.Based) : LowerM.string [] s = .ok "str_const0" s := by
  change EStateM.Result.ok (s.literals.string []).1 { s with literals := (s.literals.string []).2 } = _
  rw [based.string_empty]

/-- A word of a prototype is the default of the type of its slot. -/
theorem prototypeWord_run (ready : classes.Ready) (raw : classes.RawDefault)
    (member : c ∈ classes.toList) (based : s.literals.Based) {slot : AttributeSlot}
    (here : slot ∈ classes.slots c) :
    prototypeWord classes slot s = .ok (defaultWord slot.type) s := by
  obtain ⟨k,a,first,owner,type⟩ := ready.firstDeclaration?_slot member here
  obtain ⟨onChain,-⟩ := mem_declarationsOf.mp (List.mem_of_find?_eq_some first)
  have memberK := ready.mem_of_mem_chain member k onChain
  have found : classes.require slot.className = .ok k := by
    rw [owner]
    exact ClassTable.require_eq_ok.mpr (ready.find?_name memberK)
  have own := find?_own_of_declarations first
  rw [prototypeWord,type]
  refine bind_eq_ok.mpr ⟨k,s,by rw [found]; rfl,?_⟩
  simp only [own,Option.bind_some]
  cases given : a.raw with
  | some word => rw [raw k memberK a (List.mem_of_find?_eq_some own) word given]; rfl
  | none =>
    unfold defaultWord
    simp only
    split
    next => exact int_zero_run based
    next =>
      split
      next => rfl
      next =>
        split
        next => exact string_empty_run based
        next => rfl

theorem prototypeOf_run (ready : classes.Ready) (raw : classes.RawDefault)
    (member : c ∈ classes.toList) (based : s.literals.Based) :
    prototypeOf classes c s = .ok (classes.prototype c) s := by
  rw [prototypeOf,ClassTable.prototype]
  split
  next => exact bind_eq_ok.mpr ⟨_,s,map_eq_ok.mpr ⟨_,int_zero_run based,rfl⟩,rfl⟩
  next =>
    refine bind_eq_ok.mpr ⟨_,s,mapM_run fun slot here => ?_,rfl⟩
    exact map_eq_ok.mpr ⟨_,prototypeWord_run ready raw member based here,rfl⟩

end Words

theorem prototypes_of_assemble {options : Options} {classes : ClassTable} {s t : Supply}
    {image : Image} (ready : classes.Ready) (raw : classes.RawDefault)
    (based : s.literals.Based) (run : assemble options classes s = .ok image t) :
    image.prototypes = classes.toList.map classes.prototype := by
  rw [assemble_eq,assembleWith] at run
  obtain ⟨rows,u,tabulated,others⟩ := bind_eq_ok.mp run
  obtain ⟨inits,v,-,others⟩ := bind_eq_ok.mp others
  obtain ⟨methods,_,-,others⟩ := bind_eq_ok.mp others
  obtain ⟨_,_,-,final⟩ := bind_eq_ok.mp others
  cases final
  refine mapM_induction (R := fun s cs rows _ => (∀ c ∈ cs, c ∈ classes.toList) →
    s.literals.Based → rows.map (·.2.1) = cs.map classes.prototype) ?_ ?_ tabulated
    (fun c member => member) based
  · exact fun _ _ _ => rfl
  · intro c row cs rows s u t first ih members based
    obtain ⟨memberC,members⟩ := List.forall_mem_cons.mp members
    obtain ⟨name,v,drawn,others⟩ := bind_eq_ok.mp first
    have later := based.grows (string_drawn drawn).1.grows
    rw [bind_run,prototypeOf_run ready raw memberC later] at others
    cases others
    rw [List.map_cons,List.map_cons,ih members later]

namespace Image

open Assembly

/-- Where the words of an object end: at the mark of the next one, or at a label. -/
def Ended (lines : List Line) : Prop :=
  (∃ rest, lines = .word "-1" :: rest) ∨ ∃ label rest, lines = .label label :: rest

theorem ended_objects {prototypes : List Prototype} {lines : List Line} (ended : Ended lines) :
    Ended (prototypes.flatMap Prototype.lines ++ lines) := by
  cases prototypes with
  | nil => exact ended
  | cons => exact .inl ⟨_,rfl⟩

/-- A prototype in the text of its image. -/
theorem lines_around_prototype {image : Image} {p : Prototype} (member : p ∈ image.prototypes)
    (tables : image.dispatchTables ≠ []) :
    ∃ before after, image.lines = before ++ p.lines ++ after ∧ Ended after := by
  obtain ⟨front,back,split⟩ := List.append_of_mem member
  have objects : block (image.prototypes.flatMap Prototype.lines) =
      front.flatMap Prototype.lines ++ p.lines ++ back.flatMap Prototype.lines := by
    rw [block_eq (by simp [split,Prototype.lines,objectLines]),split]
    simp
  obtain ⟨t,rest,first⟩ := List.exists_cons_of_ne_nil tables
  have labelled : ∃ rest, block (image.dispatchTables.flatMap DispatchTable.lines) =
      .label (t.className ++ "_dispTab") :: rest := by
    rw [block_eq (by simp [first,DispatchTable.lines]),first]
    exact ⟨_,rfl⟩
  obtain ⟨words,labelled⟩ := labelled
  obtain ⟨above,below,data⟩ : ∃ above below, image.dataLines =
      above ++ block (image.prototypes.flatMap Prototype.lines) ++
        (block (image.dispatchTables.flatMap DispatchTable.lines) ++ below) :=
    ⟨_,_,by rw [dataLines,List.append_assoc,List.append_assoc]⟩
  rw [Image.lines,data,objects,labelled]
  refine ⟨header image.options ++ above ++ front.flatMap Prototype.lines,
    back.flatMap Prototype.lines ++
      .label (t.className ++ "_dispTab") :: (words ++ below ++ image.textSection),?_,
    ended_objects (.inr ⟨_,_,rfl⟩)⟩
  simp only [List.append_assoc,List.cons_append]

end Image

end CoolBackend
