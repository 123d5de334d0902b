import CoolBackend.Proofs.Dispatching
import CoolBackend.Symbols
import Mathlib.Data.List.Nodup

/-!
Tags and names tell the classes of a table apart, and indices and slots the rows of one class. So no
row is refused when the symbols of a program that was laid out are put into an empty table, and the
queries find every layout again, in its order.
-/
namespace CoolBackend

/-- Rows that keep each other's keys free are all added. -/
theorem foldlM_added {ρ τ ε : Type} {add : τ → ρ → Except ε τ} {f : List ρ → τ}
    {Apart : ρ → ρ → Prop} {held rows : List ρ}
    (step : ∀ held, ∀ row ∈ rows, (∀ r ∈ held, Apart r row) →
      add (f held) row = .ok (f (held ++ [row])))
    (outside : ∀ r ∈ held, ∀ row ∈ rows, Apart r row) (inside : rows.Pairwise Apart) :
    rows.foldlM add (f held) = .ok (f (held ++ rows)) := by
  induction rows generalizing held with
  | nil => rw [List.append_nil]; rfl
  | cons row rows ih =>
    obtain ⟨first,others⟩ := List.pairwise_cons.mp inside
    have added := step held row (.head _) fun r member => outside r member row (.head _)
    have later : ∀ r ∈ held ++ [row], ∀ other ∈ rows, Apart r other :=
      List.forall_mem_append.mpr
        ⟨fun r member other among => outside r member other (.tail _ among),
          List.forall_mem_singleton.mpr first⟩
    rw [List.foldlM_cons,added,ok_bind,
      ih (fun held row member => step held row (.tail _ member)) later others,List.append_assoc,
      List.singleton_append]

/-- Where all elements but one give nothing. -/
theorem flatMap_eq_of_others {α β : Type} {l : List α} {a : α} {f : α → List β}
    (distinct : l.Nodup) (member : a ∈ l) (others : ∀ b ∈ l, b ≠ a → f b = []) :
    l.flatMap f = f a := by
  obtain ⟨front,back,rfl⟩ := List.append_of_mem member
  rw [List.nodup_middle,List.nodup_cons,List.mem_append,not_or] at distinct
  have none (part : List α) (absent : a ∉ part) (inside : part ⊆ front ++ a :: back) :
      part.flatMap f = [] :=
    List.flatMap_eq_nil_iff.mpr fun b here =>
      others b (inside here) fun same => absent (same ▸ here)
  rw [List.flatMap_append,List.flatMap_cons,none front distinct.1.1 (by simp),
    none back distinct.1.2 (by simp),List.nil_append,List.append_nil]

namespace SymbolTable

theorem addAttributes_ok (t : SymbolTable) {rows : List AttributeRow}
    (outside : ∀ r ∈ t.attributes, ∀ row ∈ rows,
      ¬(r.index = row.index ∧ r.className = row.className))
    (inside : rows.Pairwise fun r row => ¬(r.index = row.index ∧ r.className = row.className)) :
    rows.foldlM (·.addAttribute ·) t = .ok { t with attributes := t.attributes ++ rows } := by
  refine foldlM_added (f := fun held => { t with attributes := held }) ?_ outside inside
  intro held row _ free
  rw [addAttribute,if_neg]
  simpa using free

theorem addMethods_ok (t : SymbolTable) {rows : List MethodRow}
    (outside : ∀ r ∈ t.methods, ∀ row ∈ rows, ¬(r.slot = row.slot ∧ r.className = row.className))
    (inside : rows.Pairwise fun r row => ¬(r.slot = row.slot ∧ r.className = row.className)) :
    rows.foldlM (·.addMethod ·) t = .ok { t with methods := t.methods ++ rows } := by
  refine foldlM_added (f := fun held => { t with methods := held }) ?_ outside inside
  intro held row _ free
  rw [addMethod,if_neg]
  simpa using free

end SymbolTable

namespace ClassTable

/-- The table that holds the symbols of some classes. -/
def rowsOf (table : ClassTable) (session : String) (cs : List ClassEntry) : SymbolTable where
  sessions := [session]
  classes := cs.map table.classRow
  attributes := cs.flatMap table.attributeRows
  methods := cs.flatMap table.methodRows

section Rows

variable {table : ClassTable} {c : ClassEntry}

theorem className_of_attributeRow {row : AttributeRow} (member : row ∈ table.attributeRows c) :
    row.className = c.name := by
  obtain ⟨i,bound,rfl⟩ := List.mem_mapIdx.mp member
  rfl

theorem className_of_methodRow {row : MethodRow} (member : row ∈ table.methodRows c) :
    row.className = c.name := by
  obtain ⟨e,-,rfl⟩ := List.mem_map.mp member
  rfl

/-- Rows of one kind that belong to other classes have other class names. -/
theorem className_ne {ρ : Type} {rows : ClassEntry → List ρ} {className : ρ → String}
    (named : ∀ c, ∀ row ∈ rows c, className row = c.name) {held : List ClassEntry}
    (names : ∀ d ∈ held, d.name ≠ c.name) {r row : ρ} (among : r ∈ held.flatMap rows)
    (here : row ∈ rows c) : className r ≠ className row := by
  obtain ⟨d,inside,origin⟩ := List.mem_flatMap.mp among
  rw [named d r origin,named c row here]
  exact names d inside

theorem attributeRows_ascend : (table.attributeRows c).Pairwise (·.index < ·.index) := by
  refine List.pairwise_iff_getElem.mpr fun i j boundI boundJ less => ?_
  simpa [attributeRows] using less

/-- Slots are positions in the dispatch table, even where a class declares a method twice. -/
theorem Ready.methodRows_ascend (ready : table.Ready) (member : c ∈ table.toList) :
    (table.methodRows c).Pairwise (·.slot < ·.slot) := by
  have slot (i : Nat) (bound : i < (table.entries c).length) : (table.entries c)[i].slot = i := by
    have here : (LayoutKind.dispatch.plain (table.chain c))[i]? = some (table.entries c)[i] := by
      rw [← ready.entries_eq member,List.getElem?_eq_getElem bound]
    exact (LayoutKind.dispatch_entry here).1
  refine List.pairwise_iff_getElem.mpr fun i j boundI boundJ less => ?_
  simpa [methodRows,slot] using less

theorem Sound.tags_ascend (sound : table.Sound) : table.toList.Pairwise (·.tag < ·.tag) := by
  refine List.pairwise_iff_getElem.mpr fun i j boundI boundJ less => ?_
  have tag (i : Nat) (bound : i < table.toList.length) : table.toList[i].tag = i :=
    sound.tag (by simp [toList])
  rwa [tag,tag]

theorem Sound.toList_nodup (sound : table.Sound) : table.toList.Nodup := by
  refine List.Pairwise.imp ?_ sound.tags_ascend
  rintro c d less rfl
  exact Nat.lt_irrefl _ less

theorem Ready.addSymbols_ok (ready : table.Ready) (session : String) {held : List ClassEntry}
    (member : c ∈ table.toList) (apart : ∀ d ∈ held, d.tag ≠ c.tag ∧ d.name ≠ c.name) :
    table.addSymbols (table.rowsOf session held) c =
      .ok (table.rowsOf session (held ++ [c])) := by
  have row : (table.rowsOf session held).addClass (table.classRow c) =
      .ok { table.rowsOf session held with classes := (held ++ [c]).map table.classRow } := by
    rw [SymbolTable.addClass,if_neg]
    · simp [rowsOf]
    · simp only [rowsOf,List.any_map,List.any_eq_true,not_exists,not_and]
      intro d member taken
      exact (of_decide_eq_true taken).elim (apart d member).1 (apart d member).2
  have names : ∀ d ∈ held, d.name ≠ c.name := fun d inside => (apart d inside).2
  have otherAttributes : ∀ r ∈ held.flatMap table.attributeRows, ∀ row ∈ table.attributeRows c,
      ¬(r.index = row.index ∧ r.className = row.className) := by
    intro r among row here both
    exact className_ne (fun _ _ => className_of_attributeRow) names among here both.2
  have otherMethods : ∀ r ∈ held.flatMap table.methodRows, ∀ row ∈ table.methodRows c,
      ¬(r.slot = row.slot ∧ r.className = row.className) := by
    intro r among row here both
    exact className_ne (fun _ _ => className_of_methodRow) names among here both.2
  have ownAttributes : (table.attributeRows c).Pairwise fun r row =>
      ¬(r.index = row.index ∧ r.className = row.className) := by
    refine attributeRows_ascend.imp ?_
    intro r row less both
    exact Nat.ne_of_lt less both.1
  have ownMethods : (table.methodRows c).Pairwise fun r row =>
      ¬(r.slot = row.slot ∧ r.className = row.className) := by
    refine (ready.methodRows_ascend member).imp ?_
    intro r row less both
    exact Nat.ne_of_lt less both.1
  rw [addSymbols,row,ok_bind,SymbolTable.addAttributes_ok _ otherAttributes ownAttributes,ok_bind,
    SymbolTable.addMethods_ok _ otherMethods ownMethods]
  simp [rowsOf]

/-- No key is taken twice among the symbols of a laid out program. -/
theorem Ready.symbols_ok (ready : table.Ready) (session : String) :
    table.symbols session {} = .ok (table.rowsOf session table.toList) := by
  have inside : table.toList.Pairwise fun c d => c.tag ≠ d.tag ∧ c.name ≠ d.name := by
    refine List.Pairwise.imp_of_mem ?_ ready.tags_ascend
    intro c d memberC memberD less
    refine ⟨Nat.ne_of_lt less,fun same => Nat.ne_of_lt less ?_⟩
    exact ready.name (ready.at_tag memberC) (ready.at_tag memberD) same
  exact foldlM_added (f := table.rowsOf session)
    (fun held c member apart => ready.addSymbols_ok session member apart) (List.forall_mem_nil _)
    inside

/-- The rows of one kind that belong to a class are found by its name. -/
theorem Sound.filter_rows {ρ : Type} (sound : table.Sound) {rows : ClassEntry → List ρ}
    {className : ρ → String} (named : ∀ c, ∀ row ∈ rows c, className row = c.name)
    (member : c ∈ table.toList) :
    (table.toList.flatMap rows).filter (className · = c.name) = rows c := by
  have own : (rows c).filter (className · = c.name) = rows c :=
    List.filter_eq_self.mpr fun row here => decide_eq_true (named c row here)
  rw [List.filter_flatMap,flatMap_eq_of_others sound.toList_nodup member,own]
  intro d memberD other
  refine List.filter_eq_nil_iff.mpr fun row here same => other ?_
  rw [decide_eq_true_eq,named d row here] at same
  have tags := sound.name (sound.at_tag memberD) (sound.at_tag member) same
  have at_d := sound.at_tag memberD
  rw [tags,sound.at_tag member] at at_d
  exact (Option.some.inj at_d).symm

theorem filter_rows_unknown {ρ : Type} {rows : ClassEntry → List ρ} {className : ρ → String}
    (named : ∀ c, ∀ row ∈ rows c, className row = c.name) {name : String}
    (unknown : table.find? name = none) :
    (table.toList.flatMap rows).filter (className · = name) = [] := by
  refine List.filter_eq_nil_iff.mpr fun row among same => ?_
  obtain ⟨c,member,here⟩ := List.mem_flatMap.mp among
  rw [decide_eq_true_eq,named c row here] at same
  have known : (table.find? name).isSome := find?_isSome.mpr ⟨c,member,same⟩
  rw [unknown] at known
  cases known

/-- The classes come back in tag order. -/
theorem Sound.classRows_rowsOf (sound : table.Sound) (session : String) :
    (table.rowsOf session table.toList).classRows = table.toList.map table.classRow := by
  refine List.mergeSort_of_pairwise (List.pairwise_map.mpr (sound.tags_ascend.imp fun less => ?_))
  exact decide_eq_true (Nat.le_of_lt less)

theorem Sound.attributesOf_rowsOf (sound : table.Sound) (session : String)
    (member : c ∈ table.toList) :
    (table.rowsOf session table.toList).attributesOf c.name = table.attributeRows c := by
  rw [SymbolTable.attributesOf,rowsOf,
    sound.filter_rows (fun _ _ => className_of_attributeRow) member]
  exact List.mergeSort_of_pairwise
    (attributeRows_ascend.imp fun less => decide_eq_true (Nat.le_of_lt less))

theorem Ready.methodsOf_rowsOf (ready : table.Ready) (session : String)
    (member : c ∈ table.toList) :
    (table.rowsOf session table.toList).methodsOf c.name = table.methodRows c := by
  rw [SymbolTable.methodsOf,rowsOf,ready.filter_rows (fun _ _ => className_of_methodRow) member]
  exact List.mergeSort_of_pairwise
    ((ready.methodRows_ascend member).imp fun less => decide_eq_true (Nat.le_of_lt less))

/-- A name that no class has leads to no rows. -/
theorem unknown_rowsOf (session : String) {name : String} (unknown : table.find? name = none) :
    (table.rowsOf session table.toList).attributesOf name = [] ∧
      (table.rowsOf session table.toList).methodsOf name = [] := by
  constructor
  · rw [SymbolTable.attributesOf,rowsOf,
      filter_rows_unknown (fun _ _ => className_of_attributeRow) unknown,List.mergeSort_nil]
  · rw [SymbolTable.methodsOf,rowsOf,
      filter_rows_unknown (fun _ _ => className_of_methodRow) unknown,List.mergeSort_nil]

theorem Sound.classByTag?_rowsOf (sound : table.Sound) (session : String)
    (member : c ∈ table.toList) :
    (table.rowsOf session table.toList).classByTag? c.tag = some (table.classRow c) := by
  rw [SymbolTable.classByTag?,rowsOf]
  cases found : (table.toList.map table.classRow).find? (fun r => (r.tag : Int) = c.tag) with
  | none =>
    have missed := List.find?_eq_none.mp found _ (List.mem_map_of_mem member)
    exact absurd (decide_eq_true rfl) missed
  | some row =>
    obtain ⟨d,memberD,rfl⟩ := List.mem_map.mp (List.mem_of_find?_eq_some found)
    have picked := List.find?_some found
    have same : (d.tag : Int) = c.tag := of_decide_eq_true picked
    have at_d := sound.at_tag memberD
    rw [Int.ofNat_inj.mp same,sound.at_tag member] at at_d
    rw [Option.some.inj at_d]

theorem classByTag?_unknown (session : String) {tag : Int}
    (unknown : ∀ c ∈ table.toList, (c.tag : Int) ≠ tag) :
    (table.rowsOf session table.toList).classByTag? tag = none := by
  rw [SymbolTable.classByTag?,rowsOf,List.find?_eq_none]
  intro row among
  obtain ⟨c,member,rfl⟩ := List.mem_map.mp among
  exact fun same => unknown c member (of_decide_eq_true same)

end Rows

end ClassTable

end CoolBackend
