import CoolBackend.Proofs.Closedness
import CoolBackend.Proofs.Verified
import Mathlib.Data.List.DropRight
import Mathlib.Data.List.Forall2

/-!
No label is defined twice in the text of a program, and the labels drawn from the counter are those
with the numbers below its last value, each defined once. The families of labels are told apart by
the dot in the names of methods, by what stands before the number of a constant or a drawn label,
and by their last characters otherwise.
-/
namespace CoolBackend

open Assembly

/-- What the labels of one family have in common: the dot, the text without the number at its end,
or the last four characters. -/
def labelKind (label : String) : String :=
  if '.' ∈ label.toList then "."
  else if label.toList.getLast?.any (·.isDigit) then
    String.ofList (label.toList.filter (!·.isDigit))
  else String.ofList (label.toList.rtake 4)

theorem labelKind_numbered {stem : String} (plain : Digitless stem) (dotless : '.' ∉ stem.toList)
    (k : Nat) : labelKind (stem ++ toString k) = stem := by
  have dot : '.' ∉ (stem ++ toString k).toList := by
    rw [String.toList_append,List.mem_append,not_or]
    exact ⟨dotless,fun member => absurd (isDigit_of_mem_toString member) (by decide)⟩
  have some : (toString k).toList ≠ [] := by
    rw [Nat.toString_eq_repr,Nat.toList_repr]
    exact Nat.toDigits_ne_nil
  have last : (stem ++ toString k).toList.getLast?.any (·.isDigit) := by
    rw [String.toList_append,List.getLast?_append,List.getLast?_eq_some_getLast some]
    exact isDigit_of_mem_toString (List.getLast_mem some)
  rw [labelKind,if_neg dot,if_pos last,(filter_numbered plain k).1,String.ofList_toList]

def isTelling (suffix : String) : Bool :=
  decide (4 ≤ suffix.toList.length ∧ '.' ∉ suffix.toList) &&
    !suffix.toList.getLast?.any (·.isDigit)

theorem labelKind_suffix {name suffix : String} (dotless : '.' ∉ name.toList)
    (telling : isTelling suffix) :
    labelKind (name ++ suffix) = String.ofList (suffix.toList.rtake 4) := by
  simp only [isTelling,Bool.and_eq_true,decide_eq_true_eq,Bool.not_eq_true'] at telling
  obtain ⟨⟨long,plain⟩,last⟩ := telling
  have dot : '.' ∉ (name ++ suffix).toList := by
    rw [String.toList_append,List.mem_append,not_or]
    exact ⟨dotless,plain⟩
  have other : ¬(name ++ suffix).toList.getLast?.any (·.isDigit) := by
    have some : suffix.toList ≠ [] := List.length_pos_iff.mp (Nat.lt_of_lt_of_le (by decide) long)
    rw [String.toList_append,List.getLast?_append,List.getLast?_eq_some_getLast some]
    rw [List.getLast?_eq_some_getLast some] at last
    simpa using last
  rw [labelKind,if_neg dot,if_neg other,String.toList_append,List.rtake_eq_reverse_take_reverse,
    List.reverse_append,List.take_append_of_le_length (by simpa using long),
    ← List.rtake_eq_reverse_take_reverse]

theorem labelKind_method (className method : String) :
    labelKind (className ++ "." ++ method) = "." := by
  have dot : '.' ∈ (className ++ "." ++ method).toList := by simp
  rw [labelKind,if_pos dot]

theorem kinds_flatten {families kinds : List (List String)}
    (each : List.Forall₂ (fun labels kinds => ∀ label ∈ labels, labelKind label ∈ kinds)
      families kinds) : ∀ label ∈ families.flatten, labelKind label ∈ kinds.flatten := by
  induction each with
  | nil => exact List.forall_mem_nil _
  | cons here _ ih =>
    rw [List.flatten_cons,List.flatten_cons]
    exact List.forall_mem_append.mpr
      ⟨fun label member => List.mem_append_left _ (here label member),
        fun label member => List.mem_append_right _ (ih label member)⟩

def OfKinds (labels kinds : List String) : Prop :=
  labels.Nodup ∧ ∀ label ∈ labels, labelKind label ∈ kinds

theorem OfKinds.flatten {families kinds : List (List String)}
    (each : List.Forall₂ OfKinds families kinds) :
    ∀ label ∈ families.flatten, labelKind label ∈ kinds.flatten :=
  kinds_flatten (each.imp fun _ _ => And.right)

/-- Labels of families whose kinds are different are different. -/
theorem OfKinds.nodup_flatten {families kinds : List (List String)}
    (each : List.Forall₂ OfKinds families kinds) (apart : kinds.flatten.Nodup) :
    families.flatten.Nodup := by
  induction each with
  | nil => exact .nil
  | cons here others ih =>
    obtain ⟨-,rest,disjoint⟩ := List.nodup_append'.mp apart
    exact here.1.append (ih rest) fun label first later =>
      disjoint (here.2 label first) (OfKinds.flatten others label later)

/-- The kinds of the families of labels that a program has apart from those that its code drew. -/
def familyKinds : List (List String) :=
  [["_tag","IZER","CTOR","TEST","eTab","jTab","tart"],["int_const","str_const"],["bool_const"],
    ["tObj"],["pTab"],["init"],["."]]

theorem familyKinds_apart : (familyKinds.flatten ++ labelStems).Nodup := by decide

theorem ClassTable.Sound.nodup_names {table : ClassTable} (sound : table.Sound) :
    (table.toList.map (·.name)).Nodup := by
  rw [List.Nodup,List.pairwise_map,List.pairwise_iff_getElem]
  intro i j inside inside' before same
  have at_i : table.classes[i]? = some table.toList[i] := by
    rw [← Array.getElem?_toList]
    exact List.getElem?_eq_getElem inside
  have at_j : table.classes[j]? = some table.toList[j] := by
    rw [← Array.getElem?_toList]
    exact List.getElem?_eq_getElem inside'
  exact absurd (sound.name at_i at_j same) (Nat.ne_of_lt before)

/-- A method label determines the class. -/
theorem className_of_label {first second method other : String} (dotless : '.' ∉ first.toList)
    (dotless' : '.' ∉ second.toList) (same : first ++ "." ++ method = second ++ "." ++ other) :
    first = second := by
  have split (name rest : String) (free : '.' ∉ name.toList) :
      Text.splitAt '.' (name ++ "." ++ rest).toList =
        name.toList :: Text.splitAt '.' rest.toList := by
    have text : (name ++ "." ++ rest).toList = name.toList ++ '.' :: rest.toList := by simp
    rw [text,splitAt_append free]
  have parts := split first method dotless
  rw [same,split second other dotless'] at parts
  exact String.toList_inj.mp (List.cons.inj parts).1.symm

theorem nodup_methodLabels {table : ClassTable} (sound : table.Sound)
    (dotless : ∀ c ∈ table.toList, '.' ∉ c.name.toList)
    (distinct : ∀ c ∈ table.toList, (c.methodDecls.map (·.2.name)).Nodup) :
    ((table.toList.flatMap (·.methodDecls)).map methodLabel).Nodup := by
  have own {c : ClassEntry} {label : String}
      (member : label ∈ c.methodDecls.map methodLabel) :
      ∃ m : MethodDecl, label = c.name ++ "." ++ m.name := by
    obtain ⟨pair,here,rfl⟩ := List.mem_map.mp member
    obtain ⟨m,-,rfl⟩ := List.mem_map.mp here
    exact ⟨m,rfl⟩
  -- Within one class the names of the methods differ, between two the parts before the dot.
  rw [List.map_flatMap,List.nodup_flatMap]
  constructor
  · intro c member
    have labels : c.methodDecls.map methodLabel =
        (c.methodDecls.map (·.2.name)).map (c.name ++ "." ++ ·) := by
      simp [ClassEntry.methodDecls,methodLabel]
    rw [labels]
    exact (distinct c member).map fun m m' same => by simpa using same
  · have apart := List.pairwise_map.mp sound.nodup_names
    refine apart.imp_of_mem fun {c d} here there different label first second => ?_
    obtain ⟨m,rfl⟩ := own first
    obtain ⟨m',same⟩ := own second
    exact different (className_of_label (dotless c here) (dotless d there) same)

namespace Verify

theorem distinct_of_checkMethods {h : Hierarchy} {c : ClassDecl} {seen : List String}
    {methods : List MethodDecl} (clean : Clean (checkMethods h c seen methods)) :
    (methods.map (·.name)).Nodup ∧ ∀ m ∈ methods, m.name ∉ seen := by
  induction methods generalizing seen with
  | nil => exact ⟨.nil,List.forall_mem_nil _⟩
  | cons m rest ih =>
    simp only [checkMethods,clean_append] at clean
    obtain ⟨⟨⟨repeated,-⟩,-⟩,others⟩ := clean
    obtain ⟨distinct,new⟩ := ih others
    have fresh : m.name ∉ seen := by
      split at repeated
      next => cases clean_on.mp repeated
      next first => simpa using first
    refine ⟨List.nodup_cons.mpr ⟨fun again => ?_,distinct⟩,List.forall_mem_cons.mpr ⟨fresh,?_⟩⟩
    · obtain ⟨other,member,same⟩ := List.mem_map.mp again
      exact new other member (same ▸ List.mem_cons_self)
    · exact fun other member earlier => new other member (List.mem_cons_of_mem _ earlier)

end Verify

theorem dotless_identifier {name : String} (identifier : isIdentifier name) :
    '.' ∉ name.toList := by
  intro member
  rcases mem_identifier identifier member with word | same
  · revert word
    decide
  · revert same
    decide

/-- Each family of labels has kinds of its own. -/
theorem families_kinds {table : ClassTable} {pool : LiteralPool} (numbered : pool.Sound)
    (dotless : ∀ c ∈ table.toList, '.' ∉ c.name.toList) :
    List.Forall₂ (fun labels kinds => ∀ label ∈ labels, labelKind label ∈ kinds)
      (labelFamilies table pool) familyKinds := by
  have part (suffix : String) (telling : isTelling suffix) :
      ∀ label ∈ (table.toList.map (·.name)).map (· ++ suffix),
        labelKind label ∈ [String.ofList (suffix.toList.rtake 4)] := by
    rw [List.map_map]
    exact List.forall_mem_map.mpr fun c member =>
      List.mem_singleton.mpr (labelKind_suffix (dotless c member) telling)
  have constants : ∀ label ∈ pool.labels, labelKind label ∈ ["int_const","str_const"] := by
    intro label member
    obtain ⟨stem,among,k,rfl⟩ := numbered.numbered member
    have stems : ∀ stem ∈ ["int_const","str_const"], Digitless stem ∧ '.' ∉ stem.toList := by
      decide
    obtain ⟨plain,free⟩ := stems stem among
    rwa [labelKind_numbered plain free]
  have methods : ∀ label ∈ (table.toList.flatMap (·.methodDecls)).map methodLabel,
      labelKind label ∈ ["."] :=
    List.forall_mem_map.mpr fun _ _ => List.mem_singleton.mpr (labelKind_method ..)
  refine .cons (by decide) (.cons constants (.cons (by decide)
    (.cons (part "_protObj" (by decide)) (.cons (part "_dispTab" (by decide))
      (.cons (part "_init" (by decide)) (.cons methods .nil))))))

/-- In no family but that of the methods can a label occur twice. -/
theorem nodup_families {table : ClassTable} (sound : table.Sound) {pool : LiteralPool}
    (numbered : pool.Sound) : ∀ family ∈ (labelFamilies table pool).take 6, family.Nodup := by
  have part (suffix : String) : ((table.toList.map (·.name)).map (· ++ suffix)).Nodup :=
    sound.nodup_names.map fun name name' same => by simpa using same
  simp only [labelFamilies,List.take,List.forall_mem_cons]
  exact ⟨by decide,numbered.nodup,by decide,part _,part _,part _,List.forall_mem_nil _⟩

theorem families_ofKinds {table : ClassTable} (sound : table.Sound) {pool : LiteralPool}
    (numbered : pool.Sound) (dotless : ∀ c ∈ table.toList, '.' ∉ c.name.toList)
    (distinct : ∀ c ∈ table.toList, (c.methodDecls.map (·.2.name)).Nodup) :
    List.Forall₂ OfKinds (labelFamilies table pool) familyKinds := by
  refine (List.forall₂_and_left _ _).mpr ⟨?_,families_kinds numbered dotless⟩
  exact List.forall_mem_append.mpr ⟨nodup_families sound numbered,
    List.forall_mem_singleton.mpr (nodup_methodLabels sound dotless distinct)⟩

/-- Whether a label was made from a value of the counter. -/
def isDrawn (k : Nat) (label : String) : Bool := label ∈ labelStems.map (· ++ toString k)

theorem isDrawn_numbered {stem : String} (known : stem ∈ labelStems) {k n : Nat} :
    isDrawn k (stem ++ toString n) ↔ n = k := by
  rw [isDrawn,decide_eq_true_iff,List.mem_map]
  constructor
  · rintro ⟨other,among,same⟩
    exact (numbered_inj (digitless_of_labelStems other among) (digitless_of_labelStems stem known)
      same).2.symm
  · rintro rfl
    exact ⟨stem,known,rfl⟩

theorem labelKind_drawn {k : Nat} {label : String} (drawn : isDrawn k label) :
    labelKind label ∈ labelStems := by
  obtain ⟨stem,known,rfl⟩ := List.mem_map.mp (of_decide_eq_true drawn)
  have dots : ∀ stem ∈ labelStems, '.' ∉ stem.toList := by decide
  rwa [labelKind_numbered (digitless_of_labelStems stem known) (dots stem known)]

theorem countP_numbered {stems : List String} (known : ∀ stem ∈ stems, stem ∈ labelStems)
    (lo k : Nat) : (numbered lo stems).countP (isDrawn k) =
      if lo ≤ k ∧ k < lo + stems.length then 1 else 0 := by
  induction stems generalizing lo with
  | nil =>
    rw [numbered,List.countP_nil,if_neg (by simp)]
  | cons stem rest ih =>
    obtain ⟨first,known⟩ := List.forall_mem_cons.mp known
    rw [numbered,List.countP_cons,ih known,List.length_cons]
    simp only [isDrawn_numbered first]
    split <;> split <;> split <;> omega

/-- In the text of a program whose names are identifiers and about which the verifier has at most
warnings, no label is defined twice, and each value that the counter has taken is that of one
label. -/
theorem labels_unique {p : Program} (named : p.Named)
    (clean : ∀ d ∈ Verify.diagnose p, "warning:".toList <+: d.message.toList) {options : Options}
    {text : String} {s : Session} (run : Session.compile p { options } = .ok text s) :
    (definedIn text).Nodup ∧
      ∀ k, (definedIn text).countP (isDrawn k) = if k < s.supply.labels then 1 else 0 := by
  have verified := Verify.verified_of_clean fun d member =>
    Verify.isWarning_of_message member (clean d member)
  obtain ⟨laid,image,layout,assembled,defined,-⟩ := Session.text_of_compile named run
  obtain ⟨ready,same⟩ := Session.ready_of_layout layout
  have requests := Session.layout_requests layout
  have sound := assembled.sound (requests.grows.sound LiteralPool.sound_empty)
  have names := named.entries same
  have distinct : ∀ c ∈ laid.classes.toList, (c.methodDecls.map (·.2.name)).Nodup := by
    intro c member
    rcases entry_origin same member with ⟨-,none⟩ | ⟨d,declared,own⟩
    · rw [none]
      exact .nil
    · have methods := (Verify.clean_append.mp (verified.features d declared)).2
      rw [own.methods,List.map_map]
      exact (Verify.distinct_of_checkMethods methods).1
  have kinds := families_ofKinds ready.toSound sound
    (fun c member => dotless_identifier (names c member).1) distinct
  obtain ⟨apart,-,disjoint⟩ := List.nodup_append'.mp familyKinds_apart
  -- Only code draws from the counter, so its labels account for all values.
  have numbers : Numbers 0 s.supply.labels image.drawnLabels := by
    have drawn := assembled.drawn
    rwa [requests.counter] at drawn
  rw [defined,assembled.labels_perm.nodup_iff]
  constructor
  · refine (OfKinds.nodup_flatten kinds apart).append numbers.nodup fun label named drawn => ?_
    obtain ⟨stem,known,k,-,-,rfl⟩ := numbers.of_mem drawn
    exact disjoint (OfKinds.flatten kinds _ named)
      (labelKind_drawn ((isDrawn_numbered known).mpr rfl))
  · intro k
    have none : (labelFamilies laid.classes s.supply.literals).flatten.countP (isDrawn k) = 0 := by
      rw [List.countP_eq_zero]
      exact fun label named drawn =>
        disjoint (OfKinds.flatten kinds label named) (labelKind_drawn drawn)
    obtain ⟨stems,known,count,order⟩ := numbers
    rw [assembled.labels_perm.countP_eq,List.countP_append,none,order.countP_eq,
      countP_numbered known,count]
    simp

theorem ticking_unique : ∃ text s, Session.compile ticking {} = .ok text s ∧
    s.supply.labels = 5 ∧ (definedIn text).Nodup ∧
    ∀ k, (definedIn text).countP (isDrawn k) = if k < s.supply.labels then 1 else 0 := by
  obtain ⟨text,s,run⟩ := ticking_compiles
  have labels : (stateAfter (Session.compile ticking {})).supply.labels = 5 := by decide +kernel
  have silent : Verify.diagnose ticking = [] := by decide +kernel
  rw [run] at labels
  exact ⟨text,s,run,labels,labels_unique ⟨by decide,by decide⟩
    (by rw [silent]; exact List.forall_mem_nil _) run⟩

end CoolBackend
