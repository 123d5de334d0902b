import CoolBackend.Proofs.Items
import CoolBackend.Proofs.Runs
import CoolBackend.Wire

/-!
A record is written from slots: a name with the item for it, or with none where the value is the one
that reading falls back to. What reading finds are the slots that are filled.
-/
namespace CoolBackend.Wire

open Cbor

abbrev Slots := List (String × Option Item)

def present (slots : Slots) : List (String × Item) :=
  slots.filterMap fun slot => slot.2.map (slot.1,·)

def written (slots : Slots) : List Entry :=
  (present slots).map fun slot => entry slot.1 slot.2

def filled (empty : Bool) (item : Item) : Option Item := if empty then none else some item

@[simp] theorem written_nil : written [] = [] := rfl

@[simp] theorem written_some (name : String) (item : Item) (slots : Slots) :
    written ((name,some item) :: slots) = entry name item :: written slots := rfl

@[simp] theorem written_filled (name : String) (empty : Bool) (item : Item) (slots : Slots) :
    written ((name,filled empty item) :: slots) =
      entryUnless empty name item ++ written slots := by
  cases empty <;> rfl

theorem ofText_injective {s t : String} (same : Bytes.ofText s = Bytes.ofText t) : s = t := by
  have := congrArg Bytes.toText? same
  simpa only [Bytes.toText?_ofText,Option.some.injEq] using this

theorem fieldFor?_ofText {names : List String} {name : String} (known : name ∈ names) :
    fieldFor? names (Bytes.ofText name) = some name := by
  have found : names.find? (Bytes.ofText · = Bytes.ofText name) = some name := by
    cases result : names.find? (Bytes.ofText · = Bytes.ofText name) with
    | none =>
      have := List.find?_eq_none.mp result name known
      simp at this
    | some other =>
      have same := List.find?_some result
      rw [ofText_injective (of_decide_eq_true same)]
  rw [fieldFor?,found,Option.some_or]

theorem matchFields_map {names : List String} {fields : List (String × Item)}
    (distinct : (fields.map Prod.fst).Nodup) (known : ∀ f ∈ fields, f.1 ∈ names) :
    matchFields names (fields.map fun f => entry f.1 f.2) = .ok fields := by
  induction fields generalizing names with
  | nil => rfl
  | cons f fields ih =>
    rw [List.map_cons,List.nodup_cons] at distinct
    have later : ∀ g ∈ fields, g.1 ∈ names.erase f.1 := fun g member => by
      have different : g.1 ≠ f.1 := fun same =>
        distinct.1 (same ▸ List.mem_map_of_mem member)
      exact (List.mem_erase_of_ne different).mpr (known g (by simp [member]))
    rw [List.map_cons,entry,Item.ofText,matchFields]
    simp only [List.all_cons,List.all_nil,Bytes.toText?_ofText,Option.isSome_some,Bool.and_self,
      Bool.not_true,Bool.false_eq_true,if_false,List.flatten_cons,List.flatten_nil,List.append_nil,
      fieldFor?_ofText (known f (by simp)),ih distinct.2 later]
    rfl

theorem fst_present (slots : Slots) :
    ((present slots).map Prod.fst).Sublist (slots.map Prod.fst) := by
  induction slots with
  | nil => simp [present]
  | cons slot slots ih =>
    obtain ⟨name,value⟩ := slot
    cases value with
    | none => exact ih.cons _
    | some item => exact ih.cons_cons _

/-- The fields of a record are those that were written. -/
theorem readFields_written {names : List String} {slots : Slots}
    (distinct : (slots.map Prod.fst).Nodup) (known : ∀ slot ∈ slots, slot.1 ∈ names) :
    readFields names (.map (written slots)) = .ok (present slots) := by
  have inside := fst_present slots
  refine matchFields_map (distinct.sublist inside) fun f member => ?_
  obtain ⟨slot,there,same⟩ := List.mem_map.mp (inside.subset (List.mem_map_of_mem member))
  exact same ▸ known slot there

theorem lookup_present {slots : Slots} (distinct : (slots.map Prod.fst).Nodup) {name : String}
    {value : Option Item} (member : (name,value) ∈ slots) :
    (present slots).lookup name = value := by
  induction slots with
  | nil => cases member
  | cons slot slots ih =>
    rw [List.map_cons,List.nodup_cons] at distinct
    obtain ⟨first,held⟩ := slot
    rcases List.mem_cons.mp member with same | later
    · cases same
      cases value with
      | none =>
        refine List.lookup_eq_none_iff.mpr fun f inside => ?_
        have there := (fst_present slots).subset (List.mem_map_of_mem inside)
        exact bne_iff_ne.mpr fun same => distinct.1 (same ▸ there)
      | some item => simp [present]
    · have there : name ∈ slots.map Prod.fst := List.mem_map_of_mem later
      have different : (name == first) = false := beq_false_of_ne fun same =>
        distinct.1 (same ▸ there)
      have rest := ih distinct.2 later
      cases held with
      | none => exact rest
      | some item =>
        change List.lookup name ((first,item) :: present slots) = value
        rw [List.lookup_cons,different]
        exact rest

theorem mem_present {slots : Slots} {name : String} {item : Item} :
    (name,item) ∈ present slots ↔ (name,some item) ∈ slots := by
  constructor
  · intro member
    obtain ⟨⟨other,value⟩,inside,same⟩ := List.mem_filterMap.mp member
    obtain ⟨item,rfl,same⟩ := Option.map_eq_some_iff.mp same
    cases same
    exact inside
  · exact fun member => List.mem_filterMap.mpr ⟨_,member,rfl⟩

/-- What a record holds nests less deep than the record. -/
theorem depth_lt_written {slots : Slots} {name : String} {item : Item}
    (member : (name,some item) ∈ slots) : item.depth < (Item.map (written slots)).depth := by
  rw [Item.depth]
  have inside : entry name item ∈ written slots :=
    List.mem_map.mpr ⟨(name,item),mem_present.mpr member,rfl⟩
  exact Nat.lt_succ_of_le (depth_le_entriesDepth inside)

/-- The same for a slot that can be left out, by its place. -/
theorem depth_lt_filled (slots : Slots) (i : Nat) {name : String} {empty : Bool} {item : Item}
    (there : slots[i]? = some (name,filled empty item)) (given : empty = false) :
    item.depth < (Item.map (written slots)).depth := by
  subst given
  exact depth_lt_written (List.mem_of_getElem? there)

/-- A slot that is empty or holds a plain item. -/
def PlainSlot (sound : Prop) (value : Option Item) : Prop :=
  ∀ item, value = some item → item.Plain sound

variable {sound : Prop}

theorem plainSlot_some {item : Item} (plain : item.Plain sound) : PlainSlot sound (some item) := by
  rintro _ ⟨⟩
  exact plain

theorem plainSlot_filled {item : Item} (plain : item.Plain sound) (empty : Bool) :
    PlainSlot sound (filled empty item) := by
  cases empty
  · exact plainSlot_some plain
  · rintro _ ⟨⟩

theorem plain_written {slots : Slots} (few : slots.length ≤ maxElements)
    (plain : ∀ slot ∈ slots, PlainSlot sound slot.2) :
    (Item.map (written slots)).Plain sound := by
  have size : (written slots).length ≤ slots.length := by
    rw [written,List.length_map]
    exact List.length_filterMap_le _ _
  refine .map (by omega) ?_ ?_
  · intro e member
    obtain ⟨slot,-,rfl⟩ := List.mem_map.mp member
    exact .text _
  · intro e member
    obtain ⟨slot,inside,rfl⟩ := List.mem_map.mp member
    exact plain (slot.1,some slot.2) (mem_present.mp inside) slot.2 rfl

section Fields

variable {slots : Slots} (distinct : (slots.map Prod.fst).Nodup) {name : String} {α : Type}
  {read : Item → Except Fault α}
include distinct

theorem field_some {item : Item} (member : (name,some item) ∈ slots) {default value : α}
    (reads : Gives sound (read item) value) :
    Gives sound (field (present slots) name read default) value := by
  rw [field,lookup_present distinct member]
  exact reads

/-- A slot that is left out stands for the value that reading falls back to. -/
theorem field_filled {empty : Bool} {item : Item}
    (member : (name,filled empty item) ∈ slots) {default value : α}
    (hollow : empty = true → default = value)
    (reads : empty = false → Gives sound (read item) value) :
    Gives sound (field (present slots) name read default) value := by
  rw [field,lookup_present distinct member]
  cases empty with
  | true => exact .inl (congrArg Except.ok (hollow rfl))
  | false => exact reads rfl

end Fields

theorem readBytes_ofBytes {content : Bytes} (valid : sound → content.toText?.isSome) :
    Gives sound (readBytes (Item.ofBytes content)) content := by
  change Gives sound (if [content].all (·.toText?.isSome) then pure [content].flatten
    else throw Fault.badText) content
  rw [List.flatten_singleton,List.all_cons,List.all_nil,Bool.and_true]
  split
  next => exact .inl rfl
  next invalid => exact .inr ⟨mt valid invalid,.badText,rfl⟩

theorem readText_ofText (s : String) : Gives sound (readText (Item.ofText s)) s := by
  have content : readBytes (Item.ofText s) = .ok (Bytes.ofText s) :=
    (readBytes_ofBytes fun _ => by simp [Bytes.toText?_ofText]).eq_ok trivial
  simp only [readText,content,ok_bind,Bytes.toText?_ofText]
  exact .inl rfl

theorem readInt_ofInt {low high n : Int} (above : low ≤ n) (below : n ≤ high) :
    readInt low high (Item.ofInt n) = .ok n := by
  have within : (decide (low ≤ n) && decide (n ≤ high)) = true := by simp [above,below]
  cases n with
  | ofNat n =>
    change (if low ≤ Int.ofNat n && Int.ofNat n ≤ high then pure (Int.ofNat n)
      else throw Fault.outOfRange) = _
    rw [within]
    rfl
  | negSucc n =>
    change (if low ≤ -1 - (n : Int) && -1 - (n : Int) ≤ high then pure (-1 - (n : Int))
      else throw Fault.outOfRange) = _
    have same : -1 - (n : Int) = Int.negSucc n := by omega
    rw [same,within]
    rfl

theorem readInt64_ofInt (n : Int64) : Gives sound (readInt64 (Item.ofInt n.toInt)) n := by
  rw [readInt64,readInt_ofInt n.minValue_le_toInt n.toInt_le]
  exact .inl (congrArg Except.ok (Int64.ofInt_toInt n))

theorem readInt32_ofInt (n : Int32) : Gives sound (readInt32 (Item.ofInt n.toInt)) n := by
  rw [readInt32,readInt_ofInt n.minValue_le_toInt n.toInt_le]
  exact .inl (congrArg Except.ok (Int32.ofInt_toInt n))

theorem readBool_ofBool (b : Bool) : Gives sound (readBool (Item.ofBool b)) b := by
  cases b <;> exact .inl rfl

theorem readList_map {α : Type} {read : Item → Except Fault α} {toItem : α → Item} {xs : List α}
    (reads : ∀ x ∈ xs, Gives sound (read (toItem x)) x) :
    Gives sound (readList read (.array (xs.map toItem))) xs := by
  have steps := Gives.steps (G := fun xs => (xs.map toItem).mapM read) (m := fun _ x => x) rfl
    (fun _ _ => List.mapM_cons) reads
  rwa [List.map_id'] at steps

theorem readEntry_orNull {α : Type} {read : Item → Except Fault α} {toItem : α → Item}
    {entry : Option α} (record : ∀ a, (toItem a).isNull = false)
    (reads : ∀ a, entry = some a → Gives sound (read (toItem a)) a) :
    Gives sound (readEntry read (orNull toItem entry)) entry := by
  cases entry with
  | none => exact .inl rfl
  | some a =>
    rw [orNull,readEntry,record a]
    exact (reads a rfl).map some

theorem depth_lt_array {item : Item} {items : List Item} (member : item ∈ items) :
    item.depth < (Item.array items).depth := by
  rw [Item.depth]
  exact Nat.lt_succ_of_le (depth_le_itemsDepth member)

theorem plain_ofInt {n : Int} (above : -2 ^ 63 ≤ n) (below : n < 2 ^ 63) :
    (Item.ofInt n).Plain sound := by
  cases n with
  | ofNat n =>
    rw [Int.ofNat_eq_natCast] at below
    exact .uint (by omega)
  | negSucc n => exact .negative (by omega)

theorem plain_ofText (s : String) : (Item.ofText s).Plain sound := .text _

theorem plain_null : Item.null.Plain sound := .simple (by decide)

theorem plain_list {α : Type} {toItem : α → Item} {xs : List α}
    (few : sound → xs.length ≤ maxElements) (each : ∀ x ∈ xs, (toItem x).Plain sound) :
    (Item.array (xs.map toItem)).Plain sound := by
  refine .array (by simpa using few) fun item member => ?_
  obtain ⟨x,inside,rfl⟩ := List.mem_map.mp member
  exact each x inside

theorem plain_orNull {α : Type} {toItem : α → Item} {entry : Option α}
    (plain : ∀ a, entry = some a → (toItem a).Plain sound) : (orNull toItem entry).Plain sound := by
  cases entry with
  | none => exact plain_null
  | some a => exact plain a rfl

end CoolBackend.Wire
