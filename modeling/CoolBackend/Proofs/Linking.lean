import CoolBackend.Proofs.Tables

/-!
Linking resolves the parent names of a table one class after the other. It changes nothing but
parent links, keeps the table sound also where it fails on the way, and leaves no class that names a
parent without its link.
-/
namespace CoolBackend

/-- A class without its parent link. Linking changes nothing else. -/
def ClassEntry.unlinked (c : ClassEntry) : ClassEntry := { c with parent := none }

namespace ClassTable

theorem bare_of_unlinked {table table' : ClassTable}
    (same : table.toList.map ClassEntry.unlinked = table'.toList.map ClassEntry.unlinked) :
    table.toList.map ClassEntry.bare = table'.toList.map ClassEntry.bare := by
  have through (t : ClassTable) : t.toList.map ClassEntry.bare =
      (t.toList.map ClassEntry.unlinked).map ClassEntry.bare := by
    rw [List.map_map]
    rfl
  rw [through,through,same]

theorem linkParents_cons (c : ClassEntry) (rest : List ClassEntry) (table : ClassTable) :
    linkParents (c :: rest) table =
      if c.parentName = "" then linkParents rest table
      else match table.find? c.parentName with
        | none => .error (.undefinedParent c.name c.parentName) table
        | some p =>
          linkParents rest (table.update c.tag fun c => { c with parent := some p.tag }) := by
  by_cases root : c.parentName = ""
  · simp only [linkParents,root]
    rfl
  · rw [if_neg root]
    cases found : table.find? c.parentName with
    | none => simp [linkParents,root,bind_run,found]
    | some p => simp [linkParents,root,bind_run,found]

/-- Linking a class to the class of its parent's name keeps a table sound. -/
theorem Sound.setParent {table : ClassTable} {c p : ClassEntry} (sound : table.Sound)
    (listed : table.classes[c.tag]?.map ClassEntry.bare = some c.bare) (named : c.parentName ≠ "")
    (found : table.find? c.parentName = some p) :
    (table.update c.tag fun c => { c with parent := some p.tag }).Sound := by
  obtain ⟨memberP,nameP⟩ := mem_of_find? found
  obtain ⟨d,at_d,sameD⟩ := Option.map_eq_some_iff.mp listed
  have parentD : d.parentName = c.parentName := congrArg (·.parentName) sameD
  refine sound.update (fun _ => rfl) ?_
  intro e q at_e set
  rw [at_d] at at_e
  cases at_e
  cases set
  exact ⟨parentD ▸ named,p,sound.at_tag memberP,by rw [nameP,parentD]⟩

/-- Setting a parent changes no class that is still to be linked. -/
theorem update_parent_bare (table : ClassTable) (tag p i : Nat) :
    (table.update tag fun c => { c with parent := some p }).classes[i]?.map ClassEntry.bare =
      table.classes[i]?.map ClassEntry.bare := by
  rw [update_get]
  split
  next => rw [Option.map_map]; rfl
  next => rfl

/-- Linking keeps a table sound, also where it fails on the way. -/
theorem linkParents_sound (cs : List ClassEntry) {table : ClassTable} (sound : table.Sound)
    (listed : ∀ c ∈ cs, table.classes[c.tag]?.map ClassEntry.bare = some c.bare) :
    (stateAfter (linkParents cs table)).Sound := by
  induction cs generalizing table with
  | nil => exact sound
  | cons c rest ih =>
    obtain ⟨here,listed⟩ := List.forall_mem_cons.mp listed
    rw [linkParents_cons]
    split
    next => exact ih sound listed
    next named =>
      split
      next => exact sound
      next p found =>
        apply ih (sound.setParent here named found)
        intro d member
        rw [update_parent_bare]
        exact listed d member

/-- Linking changes nothing but parent links, and links every class in its list that names a
parent. -/
theorem linkParents_spec {cs : List ClassEntry} {table table' : ClassTable} (sound : table.Sound)
    (listed : ∀ c ∈ cs, table.classes[c.tag]?.map ClassEntry.bare = some c.bare)
    (run : linkParents cs table = .ok () table') :
    table'.Sound ∧ table'.toList.map ClassEntry.unlinked = table.toList.map ClassEntry.unlinked ∧
    (∀ c ∈ cs, c.parentName ≠ "" → (table'.classes[c.tag]?.bind (·.parent)).isSome) ∧
    (∀ i : Nat, (table.classes[i]?.bind (·.parent)).isSome →
      (table'.classes[i]?.bind (·.parent)).isSome) := by
  have sound' : table'.Sound := by
    have kept := linkParents_sound cs sound listed
    rw [run] at kept
    exact kept
  refine ⟨sound',?_⟩
  clear sound' sound
  induction cs generalizing table with
  | nil =>
    cases run
    exact ⟨rfl,by simp,fun _ set => set⟩
  | cons c rest ih =>
    obtain ⟨here,listed⟩ := List.forall_mem_cons.mp listed
    rw [linkParents_cons] at run
    split at run
    next root =>
      obtain ⟨frame,linked,kept⟩ := ih listed run
      refine ⟨frame,fun d member named => ?_,kept⟩
      rcases List.mem_cons.mp member with rfl | member
      · exact absurd root named
      · exact linked d member named
    next named =>
      split at run
      next => cases run
      next p found =>
        obtain ⟨d,at_d,-⟩ := Option.map_eq_some_iff.mp here
        obtain ⟨frame,linked,kept⟩ := ih
          (fun e member => (update_parent_bare ..).trans (listed e member)) run
        refine ⟨frame.trans (update_map _ fun _ => rfl),fun e member namedE => ?_,
          fun i set => kept i ?_⟩
        · rcases List.mem_cons.mp member with rfl | member
          · apply kept
            rw [update_get,if_pos rfl,at_d]
            rfl
          · exact linked e member namedE
        · rw [update_get]
          split
          next => cases at_i : table.classes[i]? <;> simp_all
          next => exact set

/-- Linking gets through a list in which every parent is defined. -/
theorem linkParents_runs (cs : List ClassEntry) (table : ClassTable)
    (defined : ∀ c ∈ cs, c.parentName ≠ "" → (table.find? c.parentName).isSome) :
    ∃ table', linkParents cs table = .ok () table' := by
  induction cs generalizing table with
  | nil => exact ⟨table,rfl⟩
  | cons c rest ih =>
    have definedRest := fun d member => defined d (List.mem_cons_of_mem c member)
    rw [linkParents_cons]
    split
    next => exact ih table definedRest
    next named =>
      obtain ⟨p,found⟩ := Option.isSome_iff_exists.mp (defined c List.mem_cons_self named)
      rw [found]
      apply ih
      intro d member namedD
      have same := congrArg Option.isSome (find?_bare d.parentName
        (update_map (f := fun c => { c with parent := some p.tag }) ClassEntry.bare fun _ => rfl :
          (table.update c.tag _).toList.map _ = table.toList.map _))
      rw [Option.isSome_map,Option.isSome_map] at same
      rw [same]
      exact definedRest d member namedD

/-- A sound table in which every class that names a parent is linked. -/
structure Wired (table : ClassTable) : Prop extends table.Sound where
  linked : ∀ {c : ClassEntry}, c ∈ table.toList → c.parentName ≠ "" → c.parent ≠ none

theorem Wired.parent_cases {table : ClassTable} {c : ClassEntry} (wired : table.Wired)
    (member : c ∈ table.toList) :
    c.parentName = "" ∧ c.parent = none ∨
      ∃ d ∈ table.toList, c.parentName ≠ "" ∧ c.parent = some d.tag ∧ d.name = c.parentName := by
  cases link : c.parent with
  | none =>
    by_cases named : c.parentName = ""
    · exact .inl ⟨named,rfl⟩
    · exact absurd link (wired.linked member named)
  | some p =>
    obtain ⟨named,d,at_p,name⟩ := wired.parent (wired.at_tag member) link
    exact .inr ⟨d,mem_toList.mpr ⟨p,at_p⟩,named,by rw [wired.tag at_p],name⟩

theorem Sound.listed {table : ClassTable} (sound : table.Sound) :
    ∀ c ∈ table.toList, table.classes[c.tag]?.map ClassEntry.bare = some c.bare := by
  intro c member
  rw [sound.at_tag member]
  rfl

/-- Resolving the parents of all classes leaves none unlinked. -/
theorem wired_of_linkParents {table table' : ClassTable} (sound : table.Sound)
    (run : linkParents table.toList table = .ok () table') :
    table'.Wired ∧
      table'.toList.map ClassEntry.unlinked = table.toList.map ClassEntry.unlinked := by
  obtain ⟨sound',frame,linked,-⟩ := linkParents_spec sound sound.listed run
  refine ⟨⟨sound',fun {c} member named => ?_⟩,frame⟩
  obtain ⟨d,memberD,same⟩ : ∃ d ∈ table.toList, d.unlinked = c.unlinked := by
    have image : c.unlinked ∈ table'.toList.map ClassEntry.unlinked := List.mem_map_of_mem member
    rw [frame] at image
    exact List.mem_map.mp image
  have tagD : d.tag = c.tag := congrArg (·.tag) same
  have namedD : d.parentName = c.parentName := congrArg (·.parentName) same
  have set := linked d memberD (namedD ▸ named)
  rw [tagD,sound'.at_tag member] at set
  intro unset
  rw [Option.bind_some,unset] at set
  cases set

end ClassTable

end CoolBackend
