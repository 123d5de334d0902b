import CoolBackend.Proofs.Climbs

/-!
What linking achieves: every class but the root has its parent linked, and every chain of parents
ends. A chain is then a class followed by the chain of its parent, and facts about classes can be
proved from parents to children.
-/
namespace CoolBackend

namespace ClassTable

/-- A table in which every class that names a parent is linked and every chain ends. -/
structure Linked (table : ClassTable) : Prop extends table.Wired where
  reaches : ∀ c ∈ table.toList, table.reachesRoot c

theorem link_eq_ok {table table' : ClassTable} (sound : table.Sound) :
    link table = .ok () table' ↔ linkParents table.toList table = .ok () table' ∧
      table'.toList.countP (·.parentName = "") = 1 ∧
      ∀ c ∈ table'.toList, table'.reachesRoot c := by
  simp only [link,bind_run,get_run]
  cases run : linkParents table.toList table with
  | error e t => simp
  | ok u t =>
    obtain ⟨wired,-⟩ := wired_of_linkParents sound run
    by_cases count : t.toList.countP (·.parentName = "") = 1
    · simp only [count,ne_eq,not_true_eq_false,if_false]
      cases found : t.toList.find? fun c => t.circles c.tag (t.size + 1) c.parent with
      | none =>
        have all : ∀ c ∈ t.toList, t.reachesRoot c := by
          intro c member
          have ends := List.find?_eq_none.mp found c member
          rw [wired.circles_eq member] at ends
          simpa using ends
        constructor
        · intro same; cases same; exact ⟨rfl,count,all⟩
        · rintro ⟨same,-,-⟩; cases same; rfl
      | some c =>
        have stuck := List.find?_some found
        have member := List.mem_of_find?_eq_some found
        constructor
        · intro failed; cases failed
        · rintro ⟨same,-,all⟩
          cases same
          rw [wired.circles_eq member,all c member] at stuck
          cases stuck
    · simp only [count,ne_eq,not_false_eq_true,if_true]
      constructor
      · intro failed; cases failed
      · rintro ⟨same,one,-⟩; cases same; exact absurd one count

theorem linked_of_link {table table' : ClassTable} (sound : table.Sound)
    (run : link table = .ok () table') :
    table'.Linked ∧
      table'.toList.map ClassEntry.unlinked = table.toList.map ClassEntry.unlinked := by
  obtain ⟨runParents,-,reaches⟩ := (link_eq_ok sound).mp run
  obtain ⟨wired,frame⟩ := wired_of_linkParents sound runParents
  exact ⟨⟨wired,reaches⟩,frame⟩

/-- A chain that has come to the root gets no longer. -/
theorem chainFrom_stable {table : ClassTable} {fuel more tag : Nat}
    (ends : (table.chainFrom fuel tag).any (·.parent.isNone)) (enough : fuel ≤ more) :
    table.chainFrom more tag = table.chainFrom fuel tag := by
  induction fuel generalizing more tag with
  | zero => simp [chainFrom] at ends
  | succ fuel ih =>
    obtain ⟨more,rfl⟩ := Nat.exists_eq_add_of_le' (Nat.le_trans (Nat.le_add_left 1 fuel) enough)
    simp only [chainFrom] at ends ⊢
    cases at_tag : table.classes[tag]? with
    | none => rfl
    | some c =>
      cases link : c.parent with
      | none => simp [link]
      | some p =>
        simp only [at_tag,link,List.any_cons,Option.isNone_some,Bool.false_or] at ends
        simp only [link,ih ends (Nat.le_of_add_le_add_right enough)]

namespace Linked

variable {table : ClassTable} {c d : ClassEntry}

theorem size_pos (member : c ∈ table.toList) : ∃ n, table.size = n + 1 := by
  have nonempty : 0 < table.toList.length := List.length_pos_of_mem member
  exact Nat.exists_eq_add_one.mpr (by simpa [toList,size] using nonempty)

theorem chain_root (linked : table.Linked) (member : c ∈ table.toList) (root : c.parent = none) :
    table.chain c = [c] := by
  obtain ⟨n,size⟩ := size_pos member
  simp [chain,size,chainFrom,linked.at_tag member,root]

/-- The chain of a class goes on with the chain of its parent. -/
theorem chain_step (linked : table.Linked) (member : c ∈ table.toList)
    (parent : c.parent = some d.tag) : table.chain c = c :: table.chain d := by
  obtain ⟨n,size⟩ := size_pos member
  have unfolded : table.chain c = c :: table.chainFrom n d.tag := by
    simp [chain,size,chainFrom,linked.at_tag member,parent]
  have ends : (table.chainFrom n d.tag).any (·.parent.isNone) := by
    have reaches := linked.reaches c member
    rw [reachesRoot,unfolded] at reaches
    simpa [parent] using reaches
  rw [unfolded,chain,size,chainFrom_stable ends (Nat.le_succ n)]

/-- A fact holds of every class if it passes from parents to children. -/
theorem induction (linked : table.Linked) {P : ClassEntry → Prop}
    (root : ∀ c ∈ table.toList, c.parentName = "" → c.parent = none → P c)
    (child : ∀ c ∈ table.toList, ∀ d ∈ table.toList, c.parent = some d.tag →
      d.name = c.parentName → c.parentName ≠ "" → P d → P c) :
    ∀ c ∈ table.toList, P c := by
  -- The chain of a parent is one class shorter.
  suffices ∀ n, ∀ c ∈ table.toList, (table.chain c).length = n → P c from
    fun c member => this _ c member rfl
  intro n
  induction n with
  | zero =>
    intro c member length
    obtain ⟨-,unset⟩ | ⟨d,-,-,parent,-⟩ := linked.parent_cases member
    · simp [linked.chain_root member unset] at length
    · simp [linked.chain_step member parent] at length
  | succ n ih =>
    intro c member length
    obtain ⟨named,unset⟩ | ⟨d,memberD,named,parent,name⟩ := linked.parent_cases member
    · exact root c member named unset
    · rw [linked.chain_step member parent,List.length_cons] at length
      exact child c member d memberD parent name named (ih d memberD (Nat.succ.inj length))

theorem mem_of_mem_chain (linked : table.Linked) (member : c ∈ table.toList) :
    ∀ k ∈ table.chain c, k ∈ table.toList := by
  refine linked.induction (P := fun c => ∀ k ∈ table.chain c, k ∈ table.toList) ?_ ?_ c member
  · intro c member _ unset k inChain
    rw [linked.chain_root member unset,List.mem_singleton] at inChain
    exact inChain ▸ member
  · intro c member d memberD parent _ _ ih k inChain
    rw [linked.chain_step member parent] at inChain
    rcases List.mem_cons.mp inChain with rfl | inChain
    · exact member
    · exact ih k inChain

theorem mem_chain_self (linked : table.Linked) (member : c ∈ table.toList) :
    c ∈ table.chain c := by
  obtain ⟨-,unset⟩ | ⟨d,-,-,parent,-⟩ := linked.parent_cases member
  · simp [linked.chain_root member unset]
  · simp [linked.chain_step member parent]

theorem eq_of_tag (linked : table.Linked) (memberC : c ∈ table.toList) (memberD : d ∈ table.toList)
    (same : c.tag = d.tag) : c = d := by
  have at_c := linked.at_tag memberC
  rw [same,linked.at_tag memberD] at at_c
  exact (Option.some.inj at_c).symm

/-- A class inherits from another exactly if its chain ends with the chain of the other. -/
theorem isSubclassOf_iff (linked : table.Linked) (memberC : c ∈ table.toList)
    (memberD : d ∈ table.toList) :
    table.isSubclassOf d c ↔ table.chain c <:+ table.chain d := by
  simp only [isSubclassOf,List.any_eq_true,decide_eq_true_eq]
  constructor
  · refine linked.induction (P := fun d => (∃ k ∈ table.chain d, k.tag = c.tag) →
      table.chain c <:+ table.chain d) ?_ ?_ d memberD
    · rintro d member - unset ⟨k,inChain,same⟩
      rw [linked.chain_root member unset,List.mem_singleton] at inChain
      cases linked.eq_of_tag member memberC (inChain ▸ same)
      exact List.suffix_rfl
    · rintro d member e memberE parent - - ih ⟨k,inChain,same⟩
      rw [linked.chain_step member parent] at inChain ⊢
      rcases List.mem_cons.mp inChain with rfl | inChain
      · cases linked.eq_of_tag member memberC same
        exact ⟨[],linked.chain_step member parent⟩
      · exact (ih ⟨k,inChain,same⟩).trans (List.suffix_cons d _)
  · intro suffix
    exact ⟨c,suffix.subset (linked.mem_chain_self memberC),rfl⟩

theorem isSubclassOf_trans (linked : table.Linked) {e : ClassEntry} (memberC : c ∈ table.toList)
    (memberD : d ∈ table.toList) (memberE : e ∈ table.toList) (lower : table.isSubclassOf e d)
    (upper : table.isSubclassOf d c) : table.isSubclassOf e c := by
  rw [linked.isSubclassOf_iff memberD memberE] at lower
  rw [linked.isSubclassOf_iff memberC memberD] at upper
  rw [linked.isSubclassOf_iff memberC memberE]
  exact upper.trans lower

end Linked

end ClassTable

end CoolBackend
