import CoolBackend.Verify

/-!
Which classes the verifier looks into. Of the classes of a name the first is taken, and its features
are looked at wherever its node is listed: once, if no node is listed twice.
-/
namespace CoolBackend.Verify

/-- A class is the one that is known by its name if the name is free and no class before has it. -/
theorem knownAt?_eq {before after : List ClassDecl} {c : ClassDecl} :
    (knownAt? (before ++ c :: after) c.name).any (· = before.length) =
      (!(c.name = selfType || Builtin.isBuiltin c.name) &&
        (before.find? (·.name = c.name)).isNone) := by
  rw [knownAt?]
  cases decide (c.name = selfType) || Builtin.isBuiltin c.name with
  | true => rfl
  | false =>
    rw [if_neg Bool.false_ne_true,List.findIdx?_append,List.findIdx?_cons]
    cases earlier : before.findIdx? (·.name = c.name) with
    | none =>
      have passed := List.findIdx?_eq_none_iff.mp earlier
      simpa using passed
    | some k =>
      obtain ⟨inside,same,-⟩ := List.findIdx?_eq_some_iff_getElem.mp earlier
      have short : k ≠ before.length := by omega
      have found : (before.find? (·.name = c.name)).isNone = false := by
        simpa using ⟨_,List.getElem_mem inside,by simpa using same⟩
      simpa [short] using found

theorem enroll_cons (c : ClassDecl) (rest known : List ClassDecl) :
    (enroll (c :: rest) known).2 =
      if !(c.name = selfType || Builtin.isBuiltin c.name) &&
          (known.find? (·.name = c.name)).isNone then (enroll rest (known ++ [c])).2
      else (enroll rest known).2 := by
  rw [enroll]
  by_cases self : c.name = selfType
  · simp [self]
  · cases Builtin.isBuiltin c.name with
    | true => simp [self]
    | false => cases known.find? (·.name = c.name) <;> simp [self]

/-- Enrolling the classes after `before`, of which those in `known` were taken. -/
theorem enroll_eq_filter {before after known : List ClassDecl}
    (taken : ∀ name, (name = selfType || Builtin.isBuiltin name) = false →
      known.find? (·.name = name) = before.find? (·.name = name)) :
    (enroll after known).2 = known ++ ((after.zipIdx before.length).filter fun x =>
      (knownAt? (before ++ after) x.1.name).any (· = x.2)).map Prod.fst := by
  induction after generalizing before known with
  | nil => simp [enroll]
  | cons c rest ih =>
    have whole : before ++ c :: rest = (before ++ [c]) ++ rest := List.append_cons ..
    have length : before.length + 1 = (before ++ [c]).length := by simp
    rw [List.zipIdx_cons,List.filter_cons,knownAt?_eq,whole,length,enroll_cons]
    cases reserved : decide (c.name = selfType) || Builtin.isBuiltin c.name with
    | true =>
      refine ih fun name free => ?_
      have other : c.name ≠ name := by
        rintro rfl
        simp [reserved] at free
      rw [taken name free,List.find?_append]
      simp [other]
    | false =>
      rw [taken c.name reserved]
      cases earlier : before.find? (·.name = c.name) with
      | none =>
        refine (ih fun name free => ?_).trans (List.append_assoc ..)
        rw [List.find?_append,List.find?_append,taken name free]
      | some d =>
        refine ih fun name free => ?_
        rw [taken name free,List.find?_append]
        by_cases same : c.name = name
        · rw [← same,earlier]
          rfl
        · simp [same]

theorem analyzed_tree (classes : List ClassDecl) : analyzed id classes = (enroll classes []).2 :=
  (@enroll_eq_filter [] classes [] fun _ _ => rfl).symm

/-- In a tree, the features of exactly those classes are looked at that were taken. -/
theorem diagnose_eq (p : Program) : diagnose p =
    let (refused,decls) := enroll p.classes []
    let h := Hierarchy.ofDecls decls
    let (found,walkable) := checkHierarchy h decls
    refused ++ found ++
      if walkable then checkMain h decls ++ decls.flatMap (checkClass h) else [] := by
  simp only [diagnose,diagnoseIn,NodeNames.tree,analyzed_tree]

end CoolBackend.Verify
