import CoolBackend.Assemble

/-!
A fragment is as good as its parts: if its template exists and its bindings have texts, it has the
text that the template makes of them. The order in which bindings are grouped does not show.
-/
namespace CoolBackend.Assembly

/-- Among distinct keys one is met at most once. -/
theorem flatMap_eraseDups {α : Type} (keys : List String) (key : String) (out : List α) :
    keys.eraseDups.flatMap (fun k => if k = key then out else []) =
      if key ∈ keys then out else [] := by
  -- Erasing duplicates recurses on the rest without the first key.
  suffices ∀ n, ∀ keys : List String, keys.length ≤ n →
      keys.eraseDups.flatMap (fun k => if k = key then out else []) =
        if key ∈ keys then out else [] from this _ keys (Nat.le_refl _)
  intro n
  induction n with
  | zero =>
    intro keys bound
    rw [List.length_eq_zero_iff.mp (Nat.le_zero.mp bound)]
    simp
  | succ n ih =>
    intro keys bound
    cases keys with
    | nil => simp
    | cons k rest =>
      have shorter : (rest.filter fun b => !b == k).length ≤ n :=
        Nat.le_trans (List.length_filter_le _ _) (Nat.le_of_succ_le_succ bound)
      rw [List.eraseDups_cons,List.flatMap_cons,ih _ shorter]
      by_cases same : k = key
      · simp [same]
      · have other : ¬key = k := fun h => same h.symm
        simp [same,other]

theorem valuesOf_grouped {α : Type} (bindings : List (String × α)) (key : String) :
    valuesOf (grouped bindings) key = valuesOf bindings key := by
  have group (k : String) : (bindings.filter (·.1 = k)).filter (·.1 = key) =
      if k = key then bindings.filter (·.1 = key) else [] := by
    rw [List.filter_filter]
    by_cases same : k = key
    · simp [same]
    · rw [if_neg same,List.filter_eq_nil_iff]
      intro b _ both
      simp only [Bool.and_eq_true,decide_eq_true_eq] at both
      exact same (both.2.symm.trans both.1)
  rw [valuesOf,valuesOf,grouped,List.filter_flatMap]
  simp only [group,keysOf,flatMap_eraseDups]
  split
  next => rfl
  next missing =>
    have none : bindings.filter (·.1 = key) = [] := by
      rw [List.filter_eq_nil_iff]
      intro b member same
      exact missing (List.mem_map.mpr ⟨b,member,of_decide_eq_true same⟩)
    rw [none]

theorem grouped_map {α β : Type} (f : α → β) (bindings : List (String × α)) :
    grouped (bindings.map fun b => (b.1,f b.2)) = (grouped bindings).map fun b => (b.1,f b.2) := by
  simp only [grouped,keysOf,List.map_map,List.map_flatMap,List.filter_map]
  rfl

theorem settle_ok (template : String) (texts : List (String × String)) :
    settle template (texts.map fun b => (b.1,.ok b.2)) = .ok (grouped texts) := by
  rw [settle,grouped_map]
  generalize grouped texts = settled
  induction settled with
  | nil => rfl
  | cons b rest ih =>
    rw [List.map_cons,List.mapM_cons,ih]
    rfl

/-- A fragment with a known template and texts for its bindings. -/
theorem render_fragment {group : Group} {name : String} {template : Template}
    {bindings : List (String × Value)} {texts : List (String × String)}
    (found : group.find? name = some template)
    (rendered : renderBindings group bindings = texts.map fun b => (b.1,.ok b.2)) :
    (Value.fragment name bindings).render group =
      .ok (Template.render (valuesOf texts) template) := by
  have values : valuesOf (grouped texts) = valuesOf texts := funext (valuesOf_grouped texts)
  simp only [Value.render,found,rendered,settle_ok]
  change Except.ok (Template.render (valuesOf (grouped texts)) template) = _
  rw [values]

theorem renderBindings_texts (group : Group) (texts : List (String × String)) :
    renderBindings group (texts.map fun b => (b.1,.text b.2)) =
      texts.map fun b => (b.1,.ok b.2) := by
  induction texts with
  | nil => rfl
  | cons b rest ih =>
    rw [List.map_cons,renderBindings,ih]
    rfl

end CoolBackend.Assembly

namespace CoolBackend

open Assembly

/-- The words of a dispatch table as they are written out. -/
def DispatchTable.words (t : DispatchTable) : List String := t.labels.map wordOf

theorem joinLines_singleton (text : String) : joinLines [text] = text := by
  by_cases empty : text = ""
  · simp [joinLines,joinNonEmpty,empty]
  · simp [joinLines,joinNonEmpty,empty]

/-- No word is empty, so that none is left out. -/
theorem joinLines_words (labels : List String) :
    joinLines (labels.map wordOf) = "\n".intercalate (labels.map wordOf) := by
  have kept : (labels.map wordOf).filter (· ≠ "") = labels.map wordOf := by
    rw [List.filter_eq_self]
    intro word member
    obtain ⟨label,-,rfl⟩ := List.mem_map.mp member
    simp [wordOf]
  rw [joinLines,joinNonEmpty,kept]

/-- The text of a dispatch table: a label, and below it one word for each method. -/
theorem DispatchTable.render_toValue (t : DispatchTable) :
    t.toValue.render Spim.group =
      .ok (t.className ++ "_dispTab:" ++ "\n" ++ "\n".intercalate t.words) := by
  have bindings : t.toValue = .fragment "dispatchTable"
      ((("className",t.className) :: t.labels.map fun label => ("methods",wordOf label)).map
        fun b => (b.1,.text b.2)) := by
    simp [toValue,Function.comp_def]
  have found : Spim.group.find? "dispatchTable" = some Spim.dispatchTable := rfl
  have className : valuesOf (("className",t.className) :: t.labels.map fun label =>
      ("methods",wordOf label)) "className" = [t.className] := by
    simp [valuesOf,List.filter_map,Function.comp_def]
  have methods : valuesOf (("className",t.className) :: t.labels.map fun label =>
      ("methods",wordOf label)) "methods" = t.labels.map wordOf := by
    have all : t.labels.filter (fun _ => true) = t.labels :=
      List.filter_eq_self.mpr fun _ _ => rfl
    simp [valuesOf,List.filter_map,Function.comp_def,all]
  rw [bindings,render_fragment found (renderBindings_texts _ _)]
  simp only [Spim.dispatchTable,Template.render,Part.render,className,methods,joinLines_singleton,
    joinLines_words,words,String.append_assoc,String.append_empty]

end CoolBackend
