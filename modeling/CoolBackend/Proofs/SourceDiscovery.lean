import CoolBackend.Manifest
import CoolBackend.Proofs.Patterns
import CoolBackend.Proofs.Reading
import CoolBackend.Proofs.Runs
import Mathlib.Data.List.TakeWhile

/-!
The sources of a project are its listed files and, for each source directory, the entries that end
in `.ast`. The path of a source directory is the front of a pattern: what is searched are all
directories that match it, element by element from the first pattern character on. These are the
directory itself if its path has no such character.
-/
namespace CoolBackend

open Assembly Glob

namespace Path

def Named (name : String) : Prop := name ≠ "" ∧ '/' ∉ name.toList

/-- The elements of a path once it is cleaned, none of them for the working directory and the empty
one for the root. -/
def steps (path : String) : List String := if isAbsolute path then "" :: names path else names path

theorem elements_free {path e : String} (member : e ∈ elements path) : '/' ∉ e.toList := by
  obtain ⟨part,inside,rfl⟩ := List.mem_map.mp member
  rw [String.toList_ofList]
  exact free_of_mem_splitAt inside

theorem keep_name {absolute : Bool} {kept : List String} {name : String} (some : name ≠ "")
    (dot : name ≠ ".") (up : name ≠ "..") : keep absolute kept name = name :: kept := by
  simp [keep,some,dot,up]

theorem keep_named {absolute : Bool} {kept : List String} {e : String}
    (named : ∀ name ∈ kept, Named name) (free : '/' ∉ e.toList) :
    ∀ name ∈ keep absolute kept e, Named name := by
  have up : Named ".." := ⟨by decide,by decide⟩
  unfold keep
  split
  next => exact named
  next kind =>
    split
    next =>
      split
      next => split <;> simp [up]
      next =>
        split
        next => exact List.forall_mem_cons.mpr ⟨up,named⟩
        next => exact fun name member => named name (.tail _ member)
    next => exact List.forall_mem_cons.mpr ⟨⟨fun empty => kind (.inl empty),free⟩,named⟩

theorem names_named (path : String) : ∀ name ∈ names path, Named name := by
  have run (es kept : List String) (free : ∀ e ∈ es, '/' ∉ e.toList)
      (named : ∀ name ∈ kept, Named name) :
      ∀ name ∈ es.foldl (keep (isAbsolute path)) kept, Named name := by
    induction es generalizing kept with
    | nil => exact named
    | cons e es ih =>
      obtain ⟨here,later⟩ := List.forall_mem_cons.mp free
      exact ih _ later (keep_named named here)
  intro name member
  exact run _ [] (fun _ => elements_free) (by simp) name (List.mem_reverse.mp member)

theorem steps_free (path : String) : ∀ e ∈ steps path, '/' ∉ e.toList := by
  have kept (name : String) (member : name ∈ names path) := (names_named path name member).2
  unfold steps
  split
  next => exact List.forall_mem_cons.mpr ⟨List.not_mem_nil,kept⟩
  next => exact kept

theorem steps_ne_nil {path : String} (some : names path ≠ []) : steps path ≠ [] := by
  unfold steps
  split
  next => exact List.cons_ne_nil _ _
  next => exact some

theorem clean_eq (path : String) :
    clean path = if names path = [] then if isAbsolute path then "/" else "."
      else "/".intercalate (steps path) := by
  unfold clean steps
  cases names path with
  | nil => split <;> rfl
  | cons first rest =>
    simp only [List.cons_ne_nil,if_false]
    split
    next => rw [ofNames,String.intercalate_cons_cons,String.empty_append]
    next => rfl

/-- What is joined with slashes is found again between them. -/
theorem elements_joined {es : List String} (some : es ≠ []) (free : ∀ e ∈ es, '/' ∉ e.toList) :
    elements ("/".intercalate es) = es := by
  have parts : ∀ part ∈ es.map String.toList, '/' ∉ part := by simpa using free
  have slash : "/".toList = ['/'] := rfl
  rw [elements,String.toList_intercalate,slash,splitAt_intercalate (by simpa using some) parts]
  simp

theorem elements_clean {path : String} (some : names path ≠ []) :
    elements (clean path) = steps path := by
  rw [clean_eq,if_neg some,elements_joined (steps_ne_nil some) (steps_free path)]

theorem elements_below (path : String) {name : String} (free : '/' ∉ name.toList) :
    elements (path ++ "/" ++ name) = elements path ++ [name] := by
  have text : (path ++ "/" ++ name).toList = path.toList ++ '/' :: name.toList := by simp
  rw [elements,text,splitAt_separated,splitAt_free free]
  simp [elements]

theorem isAbsolute_append {path : String} (some : path ≠ "") (rest : String) :
    isAbsolute (path ++ rest) = isAbsolute path := by
  have chars : path.toList ≠ [] := by simpa using some
  rw [isAbsolute,String.toList_append,List.head?_append_of_ne_nil _ chars]
  rfl

section Below

variable {name : String} (named : Named name) (dot : name ≠ ".") (up : name ≠ "..")

include named dot up

theorem names_alone : names name = [name] := by
  rw [names,elements,splitAt_free named.2]
  simp [keep_name named.1 dot up]

theorem names_below {path : String} (some : path ≠ "") :
    names (path ++ "/" ++ name) = names path ++ [name] := by
  rw [names,elements_below path named.2,String.append_assoc,isAbsolute_append some,
    List.foldl_append,List.foldl_cons,List.foldl_nil,keep_name named.1 dot up,List.reverse_cons]
  rfl

/-- Below a path, a name is one more step. -/
theorem elements_join (path : String) : elements (join [path,name]) = steps path ++ [name] := by
  by_cases empty : path = ""
  · have joined : join [path,name] = clean name := by simp [join,empty,named.1]
    have relative : isAbsolute name = false := by
      simpa [isAbsolute] using fun head => named.2 (List.mem_of_mem_head? head)
    have alone := names_alone named dot up
    have none : steps "" = [] := rfl
    rw [joined,elements_clean (by simp [alone]),steps,relative,alone,empty,none]
    rfl
  · have joined : join [path,name] = clean (path ++ "/" ++ name) := by simp [join,empty,named.1]
    have below := names_below named dot up empty
    rw [joined,elements_clean (by simp [below]),steps,below,String.append_assoc,
      isAbsolute_append empty,steps]
    split <;> rfl

end Below

end Path

namespace Glob

theorem directoryOf_reverse (above : List String) :
    directoryOf above.reverse =
      if above = [] then "." else if "/".intercalate above = "" then "/"
      else "/".intercalate above := by
  by_cases none : above = []
  · rw [none]
    rfl
  · rw [directoryOf,List.reverse_reverse,if_neg none]
    · split <;> simp_all
    · simpa using none

theorem hasMeta_directoryOf (above : List String) :
    hasMeta (directoryOf above.reverse) = above.any hasMeta := by
  rw [← hasMeta_joined,directoryOf_reverse]
  split
  next none =>
    rw [none]
    rfl
  next =>
    split
    next empty =>
      rw [empty]
      rfl
    next => rfl

/-- The steps of a path lead to the path, cleaned. -/
theorem directoryOf_steps (path : String) :
    directoryOf (Path.steps path).reverse = Path.clean path := by
  rw [directoryOf_reverse,Path.clean_eq]
  by_cases none : Path.names path = []
  · rw [if_pos none,Path.steps,none]
    split <;> simp
  · have text : "/".intercalate (Path.steps path) ≠ "" := by
      intro empty
      have parts := Path.elements_joined (Path.steps_ne_nil none) (Path.steps_free path)
      rw [empty] at parts
      have alone : Path.steps path = [""] := parts.symm
      unfold Path.steps at alone
      split at alone
      next => exact none (List.tail_eq_of_cons_eq alone)
      next => exact (Path.names_named path "" (by simp [alone])).1 rfl
    rw [if_neg none,if_neg (Path.steps_ne_nil none),if_neg text]

end Glob

namespace Workspace

variable (w : Workspace)

/-- The entries of a directory that match a pattern. -/
def matching (pattern directory : String) : List String :=
  ((w.entryNames directory).filter (accepts pattern)).map fun name => Path.join [directory,name]

/-- The directories that the elements of a path lead to. Those in front of the first pattern
character are names; all later ones are patterns for the entries of the directories found so far. -/
def reached (elements : List String) : List String :=
  (elements.dropWhile (!hasMeta ·)).foldl (fun found e => found.flatMap (w.matching e))
    [directoryOf (elements.takeWhile (!hasMeta ·)).reverse]

def sourcesOf (directory : String) : List String :=
  ((w.entryNames directory).filter fun name => ".ast".toList.isSuffixOf name.toList).map
    fun name => Path.join [directory,name]

theorem reached_plain {elements : List String} (plain : elements.any hasMeta = false) :
    w.reached elements = [directoryOf elements.reverse] := by
  have none : ∀ e ∈ elements, (!hasMeta e) = true := by simpa using plain
  rw [reached,List.dropWhile_eq_nil_iff.mpr none,List.takeWhile_eq_self_iff.mpr none]
  rfl

theorem reached_snoc {above : List String} {last : String}
    (special : (above ++ [last]).any hasMeta) :
    w.reached (above ++ [last]) = (w.reached above).flatMap (w.matching last) := by
  cases earlier : above.any hasMeta with
  | true =>
    have more : above.dropWhile (!hasMeta ·) ≠ [] := by
      simpa [List.dropWhile_eq_nil_iff] using earlier
    have cut : (above.takeWhile (!hasMeta ·)).length ≠ above.length := by
      intro same
      have all := (List.takeWhile_prefix _).eq_of_length same
      exact more (List.dropWhile_eq_nil_iff.mpr (List.takeWhile_eq_self_iff.mp all))
    rw [reached,List.dropWhile_append,if_neg (by simpa using more),List.takeWhile_append,if_neg cut,
      List.foldl_append]
    rfl
  | false =>
    have none : ∀ e ∈ above, (!hasMeta e) = true := by simpa using earlier
    have here : hasMeta last := by simpa [earlier] using special
    rw [reached_plain w earlier,reached,List.dropWhile_append_of_pos none,
      List.takeWhile_append_of_pos none]
    simp [here]

theorem matchEntries_eq {pattern : String} (formed : wellFormed pattern) (directory : String) :
    matchEntries w directory pattern = .ok (w.matching pattern directory) := by
  obtain ⟨runs,parsed⟩ := Option.isSome_iff_exists.mp formed
  have same : accepts pattern = fun name => matchRuns runs (Bytes.ofText name) := by
    funext name
    rw [accepts,parsed,Option.any_some]
  rw [matchEntries,parsed,matching,same]

theorem mapM_matchEntries {pattern : String} (formed : wellFormed pattern)
    (directories : List String) :
    directories.mapM (matchEntries w · pattern) = .ok (directories.map (w.matching pattern)) := by
  have each : (matchEntries w · pattern) = fun directory => pure (w.matching pattern directory) :=
    funext (matchEntries_eq w formed)
  rw [each,List.mapM_pure]
  rfl

theorem expandElements_malformed {elements : List String}
    (malformed : wellFormed ("/".intercalate elements) = false) :
    expandElements w elements.reverse = .error ⟨⟩ := by
  cases elements using List.reverseRecOn with
  | nil => cases malformed
  | append_singleton above last =>
    have none : (parse? ("/".intercalate (above ++ [last]))).isNone := by
      simpa [wellFormed] using malformed
    rw [List.reverse_append,List.reverse_singleton,List.singleton_append,expandElements,
      List.reverse_cons,List.reverse_reverse]
    simp only [none]
    rfl

theorem expandElements_snoc {above : List String} {last : String}
    (formed : wellFormed ("/".intercalate (above ++ [last])))
    (special : (above ++ [last]).any hasMeta) :
    expandElements w (above ++ [last]).reverse =
      if above.any hasMeta then do
        let found ← (← expandElements w above.reverse).mapM (matchEntries w · last)
        return found.flatten
      else matchEntries w (directoryOf above.reverse) last := by
  have some : (parse? ("/".intercalate (above ++ [last]))).isNone = false := by
    simpa [wellFormed] using formed
  rw [← hasMeta_joined] at special
  rw [List.reverse_append,List.reverse_singleton,List.singleton_append,expandElements,
    List.reverse_cons,List.reverse_reverse,hasMeta_directoryOf]
  simp only [some,special]
  rfl

/-- Elements with a pattern character are followed if all of them are well-formed. -/
theorem expandElements_eq {elements : List String} (special : elements.any hasMeta) :
    expandElements w elements.reverse =
      if elements.all wellFormed then .ok (w.reached elements) else .error ⟨⟩ := by
  induction elements using List.reverseRecOn with
  | nil => cases special
  | append_singleton above last ih =>
    cases before : above.all wellFormed with
    | true =>
      have joined := wellFormed_joined (List.all_eq_true.mp before) last
      cases here : wellFormed last with
      | true =>
        have all : (above ++ [last]).all wellFormed := by simp [before,here]
        rw [expandElements_snoc w (joined.trans here) special,reached_snoc w special,if_pos all]
        cases earlier : above.any hasMeta with
        | true =>
          rw [if_pos rfl,ih earlier,if_pos before,ok_bind,mapM_matchEntries w here,ok_bind]
          rfl
        | false =>
          rw [reached_plain w earlier,List.flatMap_singleton]
          exact matchEntries_eq w here _
      | false =>
        rw [expandElements_malformed w (joined.trans here)]
        simp [here]
    | false =>
      -- The malformed element has a pattern character, so that those above are expanded first.
      have earlier : above.any hasMeta := by
        obtain ⟨e,member,malformed⟩ := List.all_eq_false.mp before
        refine List.any_eq_true.mpr ⟨e,member,?_⟩
        exact Bool.of_not_eq_false (mt wellFormed_of_plain malformed)
      have all : (above ++ [last]).all wellFormed = false := by rw [List.all_append,before]; rfl
      rw [all]
      cases joined : wellFormed ("/".intercalate (above ++ [last])) with
      | true =>
        rw [expandElements_snoc w joined special,if_pos earlier,ih earlier,before]
        rfl
      | false => exact expandElements_malformed w joined

theorem matching_sources : w.matching "*.ast" = w.sourcesOf := by
  have plain : hasMeta ".ast" = false := rfl
  have whole : "*.ast" = "*" ++ ".ast" := by decide
  have same : accepts "*.ast" = fun name => ".ast".toList.isSuffixOf name.toList := by
    funext name
    rw [whole,accepts_star plain]
  funext directory
  rw [matching,same,sourcesOf]

end Workspace

/-- Steps that each may fail stop at the first one that does. -/
theorem mapM_eq_find? {ε α β : Type} {f : α → Except ε β} {passes : α → Bool} {g : α → β}
    {e : α → ε} (each : ∀ x, f x = if passes x then .ok (g x) else .error (e x)) (xs : List α) :
    xs.mapM f = (xs.find? (!passes ·)).elim (.ok (xs.map g)) fun x => .error (e x) := by
  induction xs with
  | nil => rfl
  | cons x xs ih =>
    rw [List.mapM_cons,each,ih]
    cases here : passes x with
    | true =>
      rw [List.find?_cons_of_neg (by simp [here]),if_pos rfl,ok_bind]
      cases xs.find? (!passes ·) <;> rfl
    | false =>
      rw [List.find?_cons_of_pos (by simp [here])]
      rfl

namespace Manifest

variable (w : Workspace) (m : Manifest)

/-- Whether the path of a source directory can be the front of a pattern. -/
def searchable (directory : String) : Bool := (Path.steps (m.resolve directory)).all wellFormed

theorem sourcesIn_eq (directory : String) :
    sourcesIn w m directory =
      if m.searchable directory then
        .ok ((w.reached (Path.steps (m.resolve directory))).flatMap w.sourcesOf).mergeSort
      else .error ⟨directory,⟨⟩⟩ := by
  have named : Path.Named "*.ast" := ⟨by decide,by decide⟩
  have formed : wellFormed "*.ast" := by decide +kernel
  have special : (Path.steps (m.resolve directory) ++ ["*.ast"]).any hasMeta := by
    rw [List.any_append]
    exact Bool.or_eq_true_iff.mpr (.inr rfl)
  rw [sourcesIn,expand,Path.elements_join named (by decide) (by decide),
    w.expandElements_eq special,w.reached_snoc special,w.matching_sources,List.all_append,
    List.all_cons,formed,searchable]
  cases (Path.steps (m.resolve directory)).all wellFormed <;> rfl

theorem sourcePaths_eq :
    m.sourcePaths w =
      (m.dirs.find? (!m.searchable ·)).elim
        (.ok (m.files.map m.resolve ++ m.dirs.flatMap fun d =>
          ((w.reached (Path.steps (m.resolve d))).flatMap w.sourcesOf).mergeSort))
        fun d => .error ⟨d,⟨⟩⟩ := by
  rw [sourcePaths,mapM_eq_find? (sourcesIn_eq w m),List.flatMap]
  cases m.dirs.find? (!m.searchable ·) <;> rfl

section Plain

variable {m : Manifest} {directory : String}
  (plain : hasMeta (Path.clean (m.resolve directory)) = false)

include plain

theorem steps_plain : (Path.steps (m.resolve directory)).any hasMeta = false := by
  rw [← hasMeta_directoryOf,directoryOf_steps]
  exact plain

theorem searchable_of_plain : m.searchable directory := by
  rw [searchable,List.all_eq_true]
  intro e member
  exact wellFormed_of_plain (by simpa using List.any_eq_false.mp (steps_plain plain) e member)

theorem reached_of_plain (w : Workspace) :
    w.reached (Path.steps (m.resolve directory)) = [Path.clean (m.resolve directory)] := by
  rw [w.reached_plain (steps_plain plain),directoryOf_steps]

end Plain

end Manifest

/-- Sorting a list gives what has the same elements in order. -/
theorem mergeSort_eq {xs ys : List String} (same : xs.Perm ys) (sorted : ys.Pairwise (· ≤ ·)) :
    xs.mergeSort = ys := by
  have ordered : xs.mergeSort.Pairwise fun a b => decide (a ≤ b) :=
    List.pairwise_mergeSort (by simpa using fun _ _ _ => String.le_trans)
      (by simpa using String.le_total) xs
  exact ((List.mergeSort_perm _ _).trans same).eq_of_pairwise
    (fun _ _ _ _ => String.le_antisymm) (ordered.imp of_decide_eq_true) sorted

section Listing

variable {w : Workspace} {path : String} {entries : List (String × FileTree)}
  (found : w.lookup path = .ok (.directory entries))

include found

theorem Workspace.entryNames_eq {names : List String} (same : (entries.map (·.1)).Perm names)
    (sorted : names.Pairwise (· ≤ ·)) : w.entryNames path = names := by
  rw [entryNames,found]
  exact mergeSort_eq same sorted

theorem Workspace.sourcesOf_eq {sources : List String}
    (same : (((entries.map (·.1)).filter fun name => ".ast".toList.isSuffixOf name.toList).map
      fun name => Path.join [path,name]).Perm sources)
    (sorted : sources.Pairwise (· ≤ ·)) : (w.sourcesOf path).mergeSort = sources := by
  have names : (w.entryNames path).Perm (entries.map (·.1)) := by
    rw [entryNames,found]
    exact List.mergeSort_perm _ _
  exact mergeSort_eq (((names.filter _).map _).trans same) sorted

end Listing

/-- The sources of a project are its listed files, the relative ones below the project, and for each
source directory the sorted entries that end in `.ast` of all directories that match its path. It is
an error if one of these paths is no pattern. A path without pattern characters matches itself, so
that the entries are then those of the source directory alone. -/
theorem source_paths_exact (w : Workspace) (m : Manifest) :
    m.sourcePaths w =
      (m.dirs.find? (!m.searchable ·)).elim
        (.ok ((m.files.map fun f => if Path.isAbsolute f then f else Path.join [m.directory,f]) ++
          m.dirs.flatMap fun d =>
            ((w.reached (Path.steps (m.resolve d))).flatMap w.sourcesOf).mergeSort))
        (fun d => .error ⟨d,⟨⟩⟩) ∧
    ((∀ d ∈ m.dirs, hasMeta (Path.clean (m.resolve d)) = false) →
      m.sourcePaths w =
        .ok ((m.files.map fun f => if Path.isAbsolute f then f else Path.join [m.directory,f]) ++
          m.dirs.flatMap fun d => (w.sourcesOf (Path.clean (m.resolve d))).mergeSort)) := by
  refine ⟨m.sourcePaths_eq w,fun plain => ?_⟩
  have all : m.dirs.find? (!m.searchable ·) = none := by
    simpa using fun d member => Manifest.searchable_of_plain (plain d member)
  have each : ∀ d ∈ m.dirs,
      ((w.reached (Path.steps (m.resolve d))).flatMap w.sourcesOf).mergeSort =
        (w.sourcesOf (Path.clean (m.resolve d))).mergeSort := by
    intro d member
    rw [Manifest.reached_of_plain (plain d member),List.flatMap_singleton]
  rw [m.sourcePaths_eq w,all,List.flatMap_congr each]
  rfl

/-- A project with three libraries, the name of one of which is a pattern for another one. -/
def libraries : Workspace :=
  let empty (name : String) : String × FileTree := (name,.file (.bytes []))
  { root := .directory [("project",.directory
      [("lib",.directory [empty "b.ast",empty "notes.txt",empty "a.ast"]),
        ("lib[1]",.directory [empty "a.ast"]),("lib1",.directory [empty "b.ast"])])]
    current := [] }

def usingLibrary (name : String) : Manifest :=
  { files := ["main.ast","/shared/other.ast"], dirs := [name], directory := "/project" }

theorem library_sources_found :
    (∀ d ∈ (usingLibrary "lib").dirs,
      hasMeta (Path.clean ((usingLibrary "lib").resolve d)) = false) ∧
    (usingLibrary "lib").sourcePaths libraries =
      .ok ["/project/main.ast","/shared/other.ast","/project/lib/a.ast","/project/lib/b.ast"] := by
  have plain : ∀ d ∈ (usingLibrary "lib").dirs,
      hasMeta (Path.clean ((usingLibrary "lib").resolve d)) = false := by decide +kernel
  have place : Path.clean ((usingLibrary "lib").resolve "lib") = "/project/lib" := by decide +kernel
  have sources : (libraries.sourcesOf "/project/lib").mergeSort =
      ["/project/lib/a.ast","/project/lib/b.ast"] :=
    Workspace.sourcesOf_eq rfl (by decide +kernel) (by decide +kernel)
  have dirs : (usingLibrary "lib").dirs = ["lib"] := rfl
  refine ⟨plain,?_⟩
  rw [(source_paths_exact libraries _).2 plain,dirs,List.flatMap_singleton,place,sources]
  decide +kernel

/-- A source directory with brackets in its name is passed over for one that the name matches. -/
theorem bracketed_sources_missed :
    (usingLibrary "lib[1]").sourcePaths libraries =
      .ok ["/project/main.ast","/shared/other.ast","/project/lib1/b.ast"] ∧
    (libraries.sourcesOf (Path.clean ((usingLibrary "lib[1]").resolve "lib[1]"))).mergeSort =
      ["/project/lib[1]/a.ast"] := by
  have steps : Path.steps ((usingLibrary "lib[1]").resolve "lib[1]") =
      ["","project"] ++ ["lib[1]"] := by decide +kernel
  have front : directoryOf ["","project"].reverse = "/project" := by decide +kernel
  have place : Path.clean ((usingLibrary "lib[1]").resolve "lib[1]") = "/project/lib[1]" := by
    decide +kernel
  have above : libraries.entryNames "/project" = ["lib","lib1","lib[1]"] :=
    Workspace.entryNames_eq rfl (by decide) (by decide)
  have found : libraries.reached (["","project"] ++ ["lib[1]"]) = ["/project/lib1"] := by
    rw [Workspace.reached_snoc _ (by decide +kernel),Workspace.reached_plain _ (by decide +kernel),
      front,List.flatMap_singleton,Workspace.matching,above]
    decide +kernel
  have beside : (libraries.sourcesOf "/project/lib1").mergeSort = ["/project/lib1/b.ast"] :=
    Workspace.sourcesOf_eq rfl (by decide +kernel) (by decide +kernel)
  have own : (libraries.sourcesOf "/project/lib[1]").mergeSort = ["/project/lib[1]/a.ast"] :=
    Workspace.sourcesOf_eq rfl (by decide +kernel) (by decide +kernel)
  have dirs : (usingLibrary "lib[1]").dirs = ["lib[1]"] := rfl
  have formed : ["lib[1]"].find? (!(usingLibrary "lib[1]").searchable ·) = none := by
    decide +kernel
  constructor
  · rw [Manifest.sourcePaths_eq,dirs,formed,Option.elim_none,List.flatMap_singleton,steps,found,
      List.flatMap_singleton,beside]
    decide +kernel
  · rw [place,own]

end CoolBackend
