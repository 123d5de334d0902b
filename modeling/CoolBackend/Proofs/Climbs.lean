import CoolBackend.Proofs.Linking
import CoolBackend.Verify.Hierarchy
import Mathlib.Data.List.Perm.Subperm

/-!
Two loops look for cycles. That of the class table follows links until it is back at the class that
it started from, or has made more steps than there are classes. That of the verifier follows names
until it comes to one that it has seen. Either of them finds a cycle exactly if the climb from the
class does not end at a root, for a climb that ends meets no class twice.
-/
namespace CoolBackend

namespace ClassTable

def reachesRoot (table : ClassTable) (c : ClassEntry) : Bool :=
  (table.chain c).any (·.parent.isNone)

/-- Following parent names from a class comes to one without a parent name in so many steps. -/
inductive Climbs (table : ClassTable) : Nat → String → Prop
  | root {name : String} {c : ClassEntry} (found : table.find? name = some c)
      (top : c.parentName = "") : Climbs table 0 name
  | child {name : String} {c : ClassEntry} {n : Nat} (found : table.find? name = some c)
      (named : c.parentName ≠ "") (above : Climbs table n c.parentName) : Climbs table (n + 1) name

namespace Climbs

variable {table table' : ClassTable} {n m : Nat} {name : String}

theorem found (climbs : table.Climbs n name) : (table.find? name).isSome := by
  cases climbs with
  | root found | child found => rw [found]; rfl

theorem steps_unique (climbs : table.Climbs n name) (again : table.Climbs m name) : n = m := by
  induction climbs generalizing m with
  | root found top =>
    cases again with
    | root => rfl
    | child found' named =>
      rw [found] at found'
      cases found'
      exact absurd top named
  | child found named _ ih =>
    cases again with
    | root found' top =>
      rw [found] at found'
      cases found'
      exact absurd top named
    | child found' _ above =>
      rw [found] at found'
      cases found'
      rw [ih above]

/-- The names on the way are different, as each has its own distance from the root. -/
theorem path (climbs : table.Climbs n name) : ∃ names : List String, names.length = n + 1 ∧
    names.Nodup ∧ ∀ other ∈ names, ∃ k ≤ n, table.Climbs k other := by
  induction climbs with
  | @root name c found top =>
    refine ⟨[name],rfl,List.pairwise_singleton _ _,List.forall_mem_singleton.mpr ?_⟩
    exact ⟨0,Nat.le_refl 0,.root found top⟩
  | @child name c n found named above ih =>
    obtain ⟨names,length,distinct,each⟩ := ih
    refine ⟨name :: names,congrArg (· + 1) length,List.nodup_cons.mpr ⟨?_,distinct⟩,
      List.forall_mem_cons.mpr ⟨⟨n + 1,Nat.le_refl _,.child found named above⟩,?_⟩⟩
    · intro again
      obtain ⟨k,bound,climbs⟩ := each name again
      have steps := climbs.steps_unique (.child found named above)
      omega
    · intro other member
      obtain ⟨k,bound,climbs⟩ := each other member
      exact ⟨k,Nat.le_succ_of_le bound,climbs⟩

/-- A climb that ends takes fewer steps than there are classes. -/
theorem lt_size (climbs : table.Climbs n name) : n < table.size := by
  obtain ⟨names,length,distinct,each⟩ := climbs.path
  have inside : names ⊆ table.toList.map (·.name) := by
    intro other member
    obtain ⟨k,-,climbs⟩ := each other member
    obtain ⟨c,here,same⟩ := find?_isSome.mp climbs.found
    exact List.mem_map.mpr ⟨c,here,same⟩
  have bound := (distinct.subperm inside).length_le
  rw [length,List.length_map] at bound
  exact bound

/-- Only the names of the classes and of their parents matter, in any order. -/
theorem of_perm (sound : table'.Sound)
    (same : (table.toList.map fun c => (c.name,c.parentName)).Perm
      (table'.toList.map fun c => (c.name,c.parentName))) (climbs : table.Climbs n name) :
    table'.Climbs n name := by
  have transfer {name : String} {c : ClassEntry} (found : table.find? name = some c) :
      ∃ d, table'.find? name = some d ∧ d.parentName = c.parentName := by
    obtain ⟨member,rfl⟩ := mem_of_find? found
    have image := same.subset (List.mem_map_of_mem member)
    obtain ⟨d,memberD,sameD⟩ := List.mem_map.mp image
    obtain ⟨name,parent⟩ := Prod.mk.inj sameD
    exact ⟨d,name ▸ sound.find?_name memberD,parent⟩
  induction climbs with
  | root found top =>
    obtain ⟨d,found',parent⟩ := transfer found
    exact .root found' (parent.trans top)
  | child found named _ ih =>
    obtain ⟨d,found',parent⟩ := transfer found
    exact .child found' (parent ▸ named) (parent ▸ ih)

end Climbs

namespace Wired

variable {table : ClassTable} {c : ClassEntry} {n fuel : Nat}

/-- The chain of links comes to the root where the climb along names does, if there is room for all
steps. -/
theorem ends_of_climbs (wired : table.Wired) (member : c ∈ table.toList)
    (climbs : table.Climbs n c.name) (enough : n < fuel) :
    (table.chainFrom fuel c.tag).any (·.parent.isNone) := by
  induction fuel generalizing c n with
  | zero => cases enough
  | succ fuel ih =>
    rw [chainFrom,wired.at_tag member]
    cases climbs with
    | root found top =>
      rw [wired.find?_name member] at found
      cases found
      rcases wired.parent_cases member with ⟨-,unset⟩ | ⟨d,-,named,-⟩
      · simp [unset]
      · exact absurd top named
    | child found named above =>
      rw [wired.find?_name member] at found
      cases found
      rcases wired.parent_cases member with ⟨top,-⟩ | ⟨d,memberD,-,parent,same⟩
      · exact absurd top named
      · rw [← same] at above
        have higher := ih memberD above (Nat.lt_of_succ_lt_succ enough)
        simp [parent,higher]

theorem climbs_of_ends (wired : table.Wired) (member : c ∈ table.toList)
    (ends : (table.chainFrom fuel c.tag).any (·.parent.isNone)) : ∃ n, table.Climbs n c.name := by
  induction fuel generalizing c with
  | zero => cases ends
  | succ fuel ih =>
    have found := wired.find?_name member
    rcases wired.parent_cases member with ⟨top,-⟩ | ⟨d,memberD,named,parent,same⟩
    · exact ⟨0,.root found top⟩
    · rw [chainFrom,wired.at_tag member] at ends
      simp only [parent,List.any_cons,Option.isNone_some,Bool.false_or] at ends
      obtain ⟨n,above⟩ := ih memberD ends
      exact ⟨n + 1,.child found named (same ▸ above)⟩

theorem reachesRoot_iff (wired : table.Wired) (member : c ∈ table.toList) :
    table.reachesRoot c ↔ ∃ n, table.Climbs n c.name := by
  constructor
  · intro reaches
    exact wired.climbs_of_ends member reaches
  · rintro ⟨n,climbs⟩
    exact wired.ends_of_climbs member climbs climbs.lt_size

end Wired

namespace Wired

variable {table : ClassTable} {c k : ClassEntry} {n m left : Nat}

/-- From a class that is nearer to the root, the loop comes to the root and not to the class that it
started from. -/
theorem circles_of_climbs (wired : table.Wired) (member : c ∈ table.toList)
    (climbs : table.Climbs n c.name) (memberK : k ∈ table.toList) (above : table.Climbs m k.name)
    (nearer : m < n) (enough : m < left) : table.circles c.tag left (some k.tag) = false := by
  induction left generalizing k m with
  | zero => cases enough
  | succ left ih =>
    have other : k.tag ≠ c.tag := by
      intro same
      have at_k := wired.at_tag memberK
      rw [same,wired.at_tag member] at at_k
      cases at_k
      have steps := climbs.steps_unique above
      omega
    rw [circles,decide_eq_false other,Bool.false_or,wired.at_tag memberK,Option.bind_some]
    cases above with
    | root found top =>
      rw [wired.find?_name memberK] at found
      cases found
      rcases wired.parent_cases memberK with ⟨-,unset⟩ | ⟨_,-,named,-⟩
      · rw [unset,circles]
      · exact absurd top named
    | child found named higher =>
      rw [wired.find?_name memberK] at found
      cases found
      rcases wired.parent_cases memberK with ⟨top,-⟩ | ⟨d,memberD,-,parent,same⟩
      · exact absurd top named
      · rw [parent]
        exact ih memberD (same ▸ higher) (by omega) (by omega)

theorem climbs_of_circles (wired : table.Wired) (memberK : k ∈ table.toList) {tag : Nat}
    (ends : table.circles tag left k.parent = false) : ∃ n, table.Climbs n k.name := by
  induction left generalizing k with
  | zero =>
    rcases wired.parent_cases memberK with ⟨top,-⟩ | ⟨d,-,-,parent,-⟩
    · exact ⟨0,.root (wired.find?_name memberK) top⟩
    · rw [parent] at ends
      cases ends
  | succ left ih =>
    rcases wired.parent_cases memberK with ⟨top,-⟩ | ⟨d,memberD,named,parent,same⟩
    · exact ⟨0,.root (wired.find?_name memberK) top⟩
    · rw [parent,circles,Bool.or_eq_false_iff,wired.at_tag memberD] at ends
      obtain ⟨n,above⟩ := ih memberD ends.2
      exact ⟨n + 1,.child (wired.find?_name memberK) named (same ▸ above)⟩

/-- The loop of the class table finds a cycle exactly if the chain does not end. -/
theorem circles_eq (wired : table.Wired) (member : c ∈ table.toList) :
    table.circles c.tag (table.size + 1) c.parent = !table.reachesRoot c := by
  cases reaches : table.reachesRoot c with
  | false =>
    rw [Bool.not_false,← Bool.not_eq_false]
    intro ends
    have climbs := wired.climbs_of_circles member ends
    rw [← wired.reachesRoot_iff member,reaches] at climbs
    cases climbs
  | true =>
    obtain ⟨n,climbs⟩ := (wired.reachesRoot_iff member).mp reaches
    have bound := climbs.lt_size
    rcases wired.parent_cases member with ⟨-,unset⟩ | ⟨d,memberD,named,parent,same⟩
    · rw [unset,circles]
      rfl
    · cases climbs with
      | root found top =>
        rw [wired.find?_name member] at found
        cases found
        exact absurd top named
      | child found _ above =>
        rw [wired.find?_name member] at found
        cases found
        rw [parent]
        have climbs := Climbs.child (wired.find?_name member) named above
        exact wired.circles_of_climbs member climbs memberD (same ▸ above) (by omega) (by omega)

end Wired

end ClassTable

namespace Verify.Hierarchy

/-- Whether parents lead from a name to the root within so many steps. -/
def reachesRoot (h : Hierarchy) : Nat → String → Bool
  | 0, name => name = ""
  | steps + 1, name =>
    name = "" || match h.find? name with
      | none => true
      | some c => reachesRoot h steps c.parent

variable {h : Hierarchy} {name : String} {seen : List String}

theorem reachesRoot_succ {n : Nat} (reaches : h.reachesRoot n name) :
    h.reachesRoot (n + 1) name := by
  induction n generalizing name with
  | zero => simp_all [reachesRoot]
  | succ n ih =>
    rw [reachesRoot] at reaches ⊢
    cases found : h.find? name with
    | none => simp
    | some c =>
      rw [found] at reaches
      rcases (Bool.or_eq_true _ _).mp reaches with top | above
      · simp [top]
      · simp [ih above]

/-- A climb that ends comes to no name from which the root is farther away. -/
theorem comesBack_of_reachesRoot {n : Nat} (reaches : h.reachesRoot n name)
    (apart : ∀ other ∈ seen, ¬h.reachesRoot n other) (steps : Nat) :
    h.comesBack steps seen name = false := by
  induction n generalizing steps seen name with
  | zero =>
    obtain rfl := of_decide_eq_true reaches
    cases steps <;> simp [comesBack]
  | succ n ih =>
    have farther : ∀ other ∈ seen, ¬h.reachesRoot n other :=
      fun other member near => apart other member (reachesRoot_succ near)
    -- The name may join those that were seen only if the root is farther from it than from its
    -- parent.
    by_cases near : h.reachesRoot n name
    · exact ih near farther steps
    · cases steps with
      | zero => rfl
      | succ steps =>
        have new : name ∉ seen := fun again => apart name again reaches
        rw [reachesRoot] at reaches
        by_cases top : name = ""
        · simp [comesBack,top]
        · cases found : h.find? name with
          | none => simp [comesBack,top,new,found]
          | some c =>
            have above : h.reachesRoot n c.parent := by simpa [top,found] using reaches
            have back := ih above (List.forall_mem_cons.mpr ⟨near,farther⟩) steps
            simpa [comesBack,top,new,found] using back

/-- The loop sees a new class in every step, so it has either ended or come back when it has seen
all of them. -/
theorem reachesRoot_of_comesBack {steps : Nat} (ends : h.comesBack steps seen name = false)
    (distinct : seen.Nodup) (known : seen ⊆ h.map (·.name))
    (enough : h.length < steps + seen.length) : ∃ n, h.reachesRoot n name := by
  induction steps generalizing seen name with
  | zero =>
    have bound := (distinct.subperm known).length_le
    rw [List.length_map] at bound
    omega
  | succ steps ih =>
    by_cases top : name = ""
    · exact ⟨0,decide_eq_true top⟩
    · rw [comesBack,if_neg top] at ends
      by_cases again : seen.contains name
      · rw [if_pos again] at ends
        cases ends
      · rw [if_neg again] at ends
        cases found : h.find? name with
        | none => exact ⟨1,by simp [reachesRoot,found]⟩
        | some c =>
          rw [found] at ends
          have listed : name ∈ h.map (·.name) := by
            have same : c.name = name := by simpa using List.find?_some found
            exact List.mem_map.mpr ⟨c,List.mem_of_find?_eq_some found,same⟩
          have new : name ∉ seen := fun member => again (List.contains_iff_mem.mpr member)
          obtain ⟨n,above⟩ := ih ends (List.nodup_cons.mpr ⟨new,distinct⟩)
            (List.cons_subset.mpr ⟨listed,known⟩) (by rw [List.length_cons]; omega)
          exact ⟨n + 1,by simp [reachesRoot,found,above]⟩

/-- The loop of the verifier finds a cycle exactly if the climb does not end. -/
theorem comesBack_eq_false :
    h.comesBack (h.length + 1) [] name = false ↔ ∃ n, h.reachesRoot n name := by
  constructor
  · intro ends
    exact reachesRoot_of_comesBack ends List.nodup_nil (List.nil_subset _) (by simp)
  · rintro ⟨n,reaches⟩
    exact comesBack_of_reachesRoot reaches (List.forall_mem_nil _) _

end Verify.Hierarchy

end CoolBackend
