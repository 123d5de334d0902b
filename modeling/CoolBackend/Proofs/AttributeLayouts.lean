import CoolBackend.Location
import CoolBackend.Proofs.KnownClasses
import Mathlib.Data.List.Induction
import Mathlib.Data.List.Nodup

/-!
The layout of a class is one pass over the declarations of its chain, from the root down: the first
declaration of a name takes the next word, a later one takes nothing. So a layout starts with the
layout of every ancestor, and an attribute keeps its place in all descendants.
-/
namespace CoolBackend

/-- What the classes of a chain declare, from the root down, each class in the order of its text. -/
def declarationsOf (chain : List ClassEntry) : List (ClassEntry × AttributeDecl) :=
  chain.reverse.flatMap fun k => k.attributes.map (k,·)

def ClassTable.firstDeclaration? (table : ClassTable) (c : ClassEntry) (name : String) :
    Option (ClassEntry × AttributeDecl) :=
  (declarationsOf (table.chain c)).find? (·.2.name = name)

theorem mem_declarationsOf {chain : List ClassEntry} {d : ClassEntry × AttributeDecl} :
    d ∈ declarationsOf chain ↔ d.1 ∈ chain ∧ d.2 ∈ d.1.attributes := by
  obtain ⟨k,a⟩ := d
  simp [declarationsOf]

theorem declarationsOf_append (front chain : List ClassEntry) :
    declarationsOf (front ++ chain) = declarationsOf chain ++ declarationsOf front := by
  simp [declarationsOf]

namespace AttributeSlot

def place (slots : List AttributeSlot) (d : ClassEntry × AttributeDecl) : List AttributeSlot :=
  if slots.any (·.name = d.2.name) then slots
  else slots ++ [{ name := d.2.name, className := d.1.name, type := d.2.type,
                   offset := (headerWords + slots.length) * wordSize }]

theorem prefix_place (slots : List AttributeSlot) (d : ClassEntry × AttributeDecl) :
    slots <+: place slots d := by
  unfold place
  split
  next => exact List.prefix_rfl
  next => exact List.prefix_append ..

theorem prefix_foldl_place (ds : List (ClassEntry × AttributeDecl)) (slots : List AttributeSlot) :
    slots <+: ds.foldl place slots := by
  induction ds generalizing slots with
  | nil => exact List.prefix_rfl
  | cons d ds ih => exact (prefix_place slots d).trans (ih _)

structure LaidOut (ds : List (ClassEntry × AttributeDecl)) (slots : List AttributeSlot) : Prop where
  offsets : ∀ i slot, slots[i]? = some slot → slot.offset = (headerWords + i) * wordSize
  distinct : (slots.map (·.name)).Nodup
  first : ∀ name, (slots.find? (·.name = name)).map (fun slot => (slot.className,slot.type)) =
    (ds.find? (·.2.name = name)).map fun d => (d.1.name,d.2.type)

theorem laidOut_nil : LaidOut [] [] := ⟨by simp,List.nodup_nil,fun _ => rfl⟩

section Placing

variable {ds : List (ClassEntry × AttributeDecl)} {slots : List AttributeSlot}
  {d : ClassEntry × AttributeDecl}

theorem LaidOut.any_name (laid : LaidOut ds slots) (name : String) :
    slots.any (·.name = name) = (ds.find? (·.2.name = name)).isSome := by
  have same := congrArg Option.isSome (laid.first name)
  rw [Option.isSome_map,Option.isSome_map] at same
  rw [← same,Bool.eq_iff_iff,List.any_eq_true,List.find?_isSome]

/-- A name that has a slot keeps it. -/
theorem LaidOut.again (laid : LaidOut ds slots) (taken : slots.any (·.name = d.2.name)) :
    LaidOut (ds ++ [d]) slots := by
  refine ⟨laid.offsets,laid.distinct,fun name => ?_⟩
  rw [laid.first,List.find?_append]
  by_cases same : d.2.name = name
  · rw [laid.any_name] at taken
    obtain ⟨e,found⟩ := Option.isSome_iff_exists.mp taken
    rw [← same,found]
    rfl
  · rw [List.find?_cons_of_neg (by simpa using same),List.find?_nil,Option.or_none]

/-- A new name gets the place behind all others. -/
theorem LaidOut.push (laid : LaidOut ds slots) (free : ¬slots.any (·.name = d.2.name))
    {new : AttributeSlot} (name : new.name = d.2.name)
    (origin : (new.className,new.type) = (d.1.name,d.2.type))
    (offset : new.offset = (headerWords + slots.length) * wordSize) :
    LaidOut (ds ++ [d]) (slots ++ [new]) := by
  refine ⟨?_,?_,?_⟩
  · intro i slot here
    rcases Nat.lt_trichotomy i slots.length with before | rfl | beyond
    · rw [List.getElem?_append_left before] at here
      exact laid.offsets i slot here
    · rw [List.getElem?_concat_length] at here
      cases here
      exact offset
    · have bound := (List.getElem?_eq_some_iff.mp here).1
      rw [List.length_append,List.length_singleton] at bound
      omega
  · rw [List.map_append,List.nodup_append]
    refine ⟨laid.distinct,List.nodup_singleton _,fun earlier member other last same => ?_⟩
    obtain ⟨slot,here,rfl⟩ := List.mem_map.mp member
    cases List.mem_singleton.mp last
    exact free (List.any_eq_true.mpr ⟨slot,here,decide_eq_true (same.trans name)⟩)
  · intro wanted
    rw [List.find?_append,List.find?_append]
    have earlier := laid.first wanted
    cases found : slots.find? (·.name = wanted) with
    | some slot =>
      rw [found] at earlier
      obtain ⟨e,first,same⟩ := Option.map_eq_some_iff.mp earlier.symm
      rw [first]
      exact congrArg some same.symm
    | none =>
      rw [found] at earlier
      rw [Option.map_eq_none_iff.mp earlier.symm]
      by_cases same : d.2.name = wanted
      · simpa [name,same] using origin
      · simp [name,same]

theorem LaidOut.place (laid : LaidOut ds slots) (d : ClassEntry × AttributeDecl) :
    LaidOut (ds ++ [d]) (place slots d) := by
  unfold AttributeSlot.place
  split
  next taken => exact laid.again taken
  next free => exact laid.push free rfl rfl rfl

end Placing

theorem laidOut_foldl (ds : List (ClassEntry × AttributeDecl)) : LaidOut ds (ds.foldl place []) := by
  induction ds using List.reverseRecOn with
  | nil => exact laidOut_nil
  | append_singleton ds d ih =>
    rw [List.foldl_append]
    exact ih.place d

end AttributeSlot

open AttributeSlot

namespace LayoutKind

/-- The recursion over the chain is one pass over its declarations. -/
theorem attributes_plain_eq (chain : List ClassEntry) :
    attributes.plain chain = (declarationsOf chain).foldl place [] := by
  induction chain with
  | nil => rfl
  | cons c rest ih =>
    have step : attributes.plain (c :: rest) = c.extendAttributes (attributes.plain rest) := rfl
    rw [step,ih,← List.singleton_append,declarationsOf_append,List.foldl_append]
    simp only [declarationsOf,List.reverse_singleton,List.flatMap_singleton,List.foldl_map]
    rfl

theorem attributes_laidOut (chain : List ClassEntry) :
    LaidOut (declarationsOf chain) (attributes.plain chain) := by
  rw [attributes_plain_eq]
  exact laidOut_foldl _

theorem prefix_attributes {upper lower : List ClassEntry} (suffix : upper <:+ lower) :
    attributes.plain upper <+: attributes.plain lower := by
  obtain ⟨front,rfl⟩ := suffix
  rw [attributes_plain_eq,attributes_plain_eq,declarationsOf_append,List.foldl_append]
  exact prefix_foldl_place _ _

end LayoutKind

namespace ClassTable.Ready

variable {table : ClassTable} {c d : ClassEntry}

theorem laidOut (ready : table.Ready) (member : c ∈ table.toList) :
    LaidOut (declarationsOf (table.chain c)) (table.slots c) := by
  rw [ready.slots_eq member]
  exact LayoutKind.attributes_laidOut _

theorem prefix_slots (ready : table.Ready) (memberC : c ∈ table.toList)
    (memberD : d ∈ table.toList) (sub : table.isSubclassOf d c) :
    table.slots c <+: table.slots d := by
  rw [ready.slots_eq memberC,ready.slots_eq memberD]
  exact LayoutKind.prefix_attributes ((ready.isSubclassOf_iff memberC memberD).mp sub)

/-- A slot is found under its own name. -/
theorem find?_slots (ready : table.Ready) (member : c ∈ table.toList) {slot : AttributeSlot}
    (here : slot ∈ table.slots c) : (table.slots c).find? (·.name = slot.name) = some slot := by
  obtain ⟨other,found⟩ := exists_find?_of_mem (List.mem_map_of_mem (f := (·.name)) here)
  have same : other.name = slot.name := by simpa using List.find?_some found
  rw [found,List.inj_on_of_nodup_map (ready.laidOut member).distinct
    (List.mem_of_find?_eq_some found) here same]

theorem firstDeclaration?_slot (ready : table.Ready) (member : c ∈ table.toList)
    {slot : AttributeSlot} (here : slot ∈ table.slots c) :
    ∃ k a, table.firstDeclaration? c slot.name = some (k,a) ∧ slot.className = k.name ∧
      slot.type = a.type := by
  have first := (ready.laidOut member).first slot.name
  rw [ready.find?_slots member here] at first
  obtain ⟨⟨k,a⟩,found,same⟩ := Option.map_eq_some_iff.mp first.symm
  obtain ⟨owner,type⟩ := Prod.mk.inj same
  exact ⟨k,a,found,owner.symm,type.symm⟩

theorem slot_offset (ready : table.Ready) (member : c ∈ table.toList) {i : Nat}
    {slot : AttributeSlot} (here : (table.slots c)[i]? = some slot) : slot.offset = 12 + 4 * i := by
  rw [(ready.laidOut member).offsets i slot here,headerWords,wordSize]
  omega

theorem offset_lt_size (ready : table.Ready) (member : c ∈ table.toList) {slot : AttributeSlot}
    (here : slot ∈ table.slots c) : slot.offset < 4 * (table.objectSize c.tag).1 := by
  obtain ⟨i,at_i⟩ := List.mem_iff_getElem?.mp here
  have bound := (List.getElem?_eq_some_iff.mp at_i).1
  have size : (table.objectSize c.tag).1 = (table.slots c).length + 3 := rfl
  rw [ready.slot_offset member at_i,size]
  omega

/-- The location of an attribute is that of its slot. -/
theorem attributeLocation_eq (ready : table.Ready) (member : c ∈ table.toList)
    {slot : AttributeSlot} (here : slot ∈ table.slots c) :
    attributeLocation c slot.name table =
      .ok ⟨.receiver,slot.offset⟩ (table.attributes c.tag).2 := by
  have located : Location.ofAttribute c.name (table.slots c) slot.name =
      .ok ⟨.receiver,slot.offset⟩ := by
    rw [Location.ofAttribute,ready.find?_slots member here]
  rw [attributeLocation,bind_run]
  change (ofExcept (Location.ofAttribute c.name (table.slots c) slot.name) : TableM Location) _ = _
  rw [located]
  rfl

end ClassTable.Ready

/-- In a laid out program, the layout of a class starts with that of each of its ancestors. Its slots
are one word each, have different names, and are those of the first declarations on its chain; so an
attribute of an ancestor is at the same place, inside the object. -/
theorem attribute_places_inherited {p : Program} {options : Options} {s : Session}
    (run : Session.layout p { options } = .ok () s) :
    ∀ c ∈ s.classes.toList, ∀ d ∈ s.classes.toList, s.classes.isSubclassOf d c →
      s.classes.slots c <+: s.classes.slots d ∧
      (∀ i slot, (s.classes.slots d)[i]? = some slot → slot.offset = 12 + 4 * i) ∧
      ((s.classes.slots d).map (·.name)).Nodup ∧
      (∀ name, name ∈ (s.classes.slots d).map (·.name) ↔
        ∃ k ∈ s.classes.chain d, name ∈ k.attributes.map (·.name)) ∧
      (∀ slot ∈ s.classes.slots d, ∃ k a,
        s.classes.firstDeclaration? d slot.name = some (k,a) ∧
          slot.className = k.name ∧ slot.type = a.type) ∧
      (∀ name ∈ (s.classes.slots c).map (·.name), ∃ place t t',
        ClassTable.attributeLocation c name s.classes = .ok place t ∧
          ClassTable.attributeLocation d name s.classes = .ok place t' ∧
          place.base = .receiver ∧ place.offset < 4 * (s.classes.objectSize d.tag).1) := by
  obtain ⟨ready,-⟩ := Session.ready_of_layout run
  intro c memberC d memberD sub
  have front := ready.prefix_slots memberC memberD sub
  refine ⟨front,?_,(ready.laidOut memberD).distinct,?_,?_,?_⟩
  · intro i slot here
    exact ready.slot_offset memberD here
  · intro name
    rw [ready.slots_eq memberD,LayoutKind.mem_attributes_plain]
  · intro slot here
    exact ready.firstDeclaration?_slot memberD here
  · intro name own
    obtain ⟨slot,here,rfl⟩ := List.mem_map.mp own
    have inherited := front.subset here
    refine ⟨_,_,_,ready.attributeLocation_eq memberC here,
      ready.attributeLocation_eq memberD inherited,rfl,?_⟩
    have bound := ready.offset_lt_size memberD inherited
    change (slot.offset : Int) < _
    omega

/-- A name that is declared again, in the same class and further down, with another type. -/
def redeclaring : Program where
  classes :=
    [ { name := "C", parent := "B", attributes := [({ name := "z", type := "Bool" },.absent)] },
      { name := "B", parent := "A"
        attributes := [({ name := "y", type := "C" },.absent),
          ({ name := "x", type := "String" },.absent)] },
      { name := "A"
        attributes := [({ name := "x", type := "Int" },.absent),
          ({ name := "x", type := "Bool" },.absent),({ name := "w", type := "A" },.absent)] } ]

theorem redeclaring_places :
    ∃ s c d, Session.layout redeclaring {} = .ok () s ∧ s.classes.find? "A" = some c ∧
      s.classes.find? "C" = some d ∧ s.classes.isSubclassOf d c ∧
      (s.classes.slots d).map (fun slot => (slot.name,slot.className,slot.type)) =
        [("x","A","Int"),("w","A","A"),("y","B","C"),("z","C","Bool")] ∧
      s.classes.slots c <+: s.classes.slots d ∧
      ∃ place t t', ClassTable.attributeLocation c "w" s.classes = .ok place t ∧
        ClassTable.attributeLocation d "w" s.classes = .ok place t' ∧
        place.base = .receiver ∧ place.offset < 4 * (s.classes.objectSize d.tag).1 := by
  have run := eq_ok_of_succeeded
    (by decide +kernel : succeeded (Session.layout redeclaring {}))
  let s := stateAfter (Session.layout redeclaring {})
  obtain ⟨c,foundC⟩ := Option.isSome_iff_exists.mp
    (by decide +kernel : (s.classes.find? "A").isSome)
  obtain ⟨d,foundD⟩ := Option.isSome_iff_exists.mp
    (by decide +kernel : (s.classes.find? "C").isSome)
  have facts : s.classes.isSubclassOf d c ∧ "w" ∈ (s.classes.slots c).map (·.name) ∧
      (s.classes.slots d).map (fun slot => (slot.name,slot.className,slot.type)) =
        [("x","A","Int"),("w","A","A"),("y","B","C"),("z","C","Bool")] := by
    have all : (s.classes.find? "A").all fun c => (s.classes.find? "C").all fun d =>
        s.classes.isSubclassOf d c ∧ "w" ∈ (s.classes.slots c).map (·.name) ∧
        (s.classes.slots d).map (fun slot => (slot.name,slot.className,slot.type)) =
          [("x","A","Int"),("w","A","A"),("y","B","C"),("z","C","Bool")] := by decide +kernel
    simpa only [foundC,foundD,Option.all_some,decide_eq_true_eq] using all
  obtain ⟨sub,own,layout⟩ := facts
  obtain ⟨front,-,-,-,-,located⟩ := attribute_places_inherited run c (ClassTable.mem_of_find? foundC).1
    d (ClassTable.mem_of_find? foundD).1 sub
  exact ⟨s,c,d,run,foundC,foundD,sub,layout,front,located "w" own⟩

end CoolBackend
