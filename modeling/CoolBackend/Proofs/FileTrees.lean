import CoolBackend.SymbolStore
import CoolBackend.Proofs.Runs

/-!
Putting a file somewhere or taking one away leaves all other directories where they are. A path leads
to the same place as long as the directories on its way are there, so that a path at which a file can
be written still means the same place after a file was removed from it or written to it.
-/
namespace CoolBackend

namespace FileTree

def HasDirectory (root : FileTree) (place : List String) : Prop :=
  ∃ entries, root.find? place = some (directory entries)

theorem lookup_entry (entry : String × FileTree) (rest : List (String × FileTree))
    (name : String) :
    (entry :: rest).lookup name = if name = entry.1 then some entry.2 else rest.lookup name := by
  rw [List.lookup_cons]
  by_cases here : name = entry.1
  · rw [if_pos here,beq_iff_eq.mpr here]
  · rw [if_neg here,beq_false_of_ne here]

theorem lookup_setEntry (name other : String) (tree : FileTree)
    (entries : List (String × FileTree)) :
    (setEntry name tree entries).lookup other =
      if other = name then some tree else entries.lookup other := by
  induction entries with
  | nil => exact lookup_entry (name,tree) [] other
  | cons entry rest ih =>
    rw [setEntry,lookup_entry entry]
    by_cases here : entry.1 = name
    · rw [if_pos here,lookup_entry]
      grind
    · rw [if_neg here,lookup_entry,ih]
      grind

theorem find?_append (root : FileTree) (above below : List String) :
    root.find? (above ++ below) = (root.find? above).bind (·.find? below) := by
  induction above generalizing root with
  | nil => simp [find?]
  | cons name rest ih =>
    cases root with
    | file content => simp [find?]
    | directory entries =>
      simp only [List.cons_append,find?,Option.bind_assoc]
      exact congrArg _ (funext fun tree => ih tree)

/-- What has something below it is a directory. -/
theorem HasDirectory.of_append {root : FileTree} {above below : List String}
    (dir : root.HasDirectory (above ++ below)) : root.HasDirectory above := by
  obtain ⟨entries,found⟩ := dir
  rw [find?_append] at found
  obtain ⟨tree,top,rest⟩ := Option.bind_eq_some_iff.mp found
  cases tree with
  | directory inner => exact ⟨inner,top⟩
  | file content => cases below <;> simp [find?] at rest

theorem HasDirectory.dropLast {root : FileTree} {place : List String}
    (dir : root.HasDirectory place) : root.HasDirectory place.dropLast := by
  rcases List.eq_nil_or_concat place with rfl | ⟨above,last,rfl⟩
  · exact dir
  · rw [List.concat_eq_append] at dir ⊢
    rw [List.dropLast_concat]
    exact dir.of_append

theorem hasDirectory_cons {entries : List (String × FileTree)} {name : String}
    {place : List String} : (directory entries).HasDirectory (name :: place) ↔
      ∃ tree, entries.lookup name = some tree ∧ tree.HasDirectory place := by
  simp only [HasDirectory,find?,Option.bind_eq_some_iff]
  constructor
  · rintro ⟨inner,tree,here,found⟩
    exact ⟨tree,here,inner,found⟩
  · rintro ⟨tree,here,inner,found⟩
    exact ⟨inner,tree,here,found⟩

/-- Putting a tree somewhere leaves the directories that are not there or below. -/
theorem HasDirectory.insert {root tree : FileTree} {place other : List String}
    (apart : ¬place <+: other) (dir : root.HasDirectory other) :
    (root.insert place tree).HasDirectory other := by
  induction place generalizing root other with
  | nil => exact absurd List.nil_prefix apart
  | cons name rest ih =>
    cases root with
    | file => exact dir
    | directory entries =>
      cases other with
      | nil => exact ⟨_,rfl⟩
      | cons first others =>
        obtain ⟨inner,here,below⟩ := hasDirectory_cons.mp dir
        rw [FileTree.insert,hasDirectory_cons,lookup_setEntry]
        by_cases same : first = name
        · subst same
          have deeper : ¬rest <+: others := fun longer =>
            apart (List.cons_prefix_cons.mpr ⟨rfl,longer⟩)
          exact ⟨_,if_pos rfl,by rw [here]; exact ih deeper below⟩
        · exact ⟨inner,by rw [if_neg same,here],below⟩

theorem find?_insert {root : FileTree} {above : List String} (dir : root.HasDirectory above)
    (last : String) (tree : FileTree) :
    (root.insert (above ++ [last]) tree).find? (above ++ [last]) = some tree := by
  induction above generalizing root with
  | nil =>
    obtain ⟨entries,top⟩ := dir
    cases Option.some.inj top
    simp [FileTree.insert,find?,lookup_setEntry]
  | cons name rest ih =>
    cases root with
    | file =>
      obtain ⟨_,found⟩ := dir
      cases found
    | directory entries =>
      obtain ⟨inner,here,below⟩ := hasDirectory_cons.mp dir
      rw [List.cons_append,FileTree.insert,find?,lookup_setEntry,if_pos rfl,here]
      exact ih below

theorem lookup_map_erase (name other : String) (rest : List String)
    (entries : List (String × FileTree)) :
    (entries.map fun entry => if entry.1 = name then (name,entry.2.erase rest) else entry).lookup
        other =
      if other = name then (entries.lookup name).map (·.erase rest) else entries.lookup other := by
  induction entries with
  | nil => simp
  | cons entry others ih =>
    rw [List.map_cons,lookup_entry,ih,lookup_entry entry,lookup_entry entry]
    grind

theorem lookup_filter_ne (name other : String) (entries : List (String × FileTree)) :
    (entries.filter (·.1 ≠ name)).lookup other =
      if other = name then none else entries.lookup other := by
  induction entries with
  | nil => simp
  | cons entry rest ih =>
    rw [lookup_entry]
    by_cases here : entry.1 = name
    · rw [List.filter_cons_of_neg (by simp [here]),ih]
      grind
    · rw [List.filter_cons_of_pos (by simp [here]),lookup_entry,ih]
      grind

/-- What is left of a directory. -/
theorem erase_directory (entries : List (String × FileTree)) (name : String)
    (rest : List String) :
    ∃ left, (directory entries).erase (name :: rest) = directory left ∧
      ∀ other, left.lookup other =
        if other = name then
          if rest = [] then none else (entries.lookup name).map (·.erase rest)
        else entries.lookup other := by
  cases rest with
  | nil => exact ⟨_,rfl,fun other => lookup_filter_ne name other entries⟩
  | cons next rest => exact ⟨_,rfl,fun other => lookup_map_erase name other (next :: rest) entries⟩

theorem HasDirectory.erase {root : FileTree} {place other : List String}
    (apart : ¬place <+: other) (dir : root.HasDirectory other) :
    (root.erase place).HasDirectory other := by
  induction place generalizing root other with
  | nil => exact absurd List.nil_prefix apart
  | cons name rest ih =>
    cases root with
    | file => exact dir
    | directory entries =>
      obtain ⟨left,erased,lookup⟩ := erase_directory entries name rest
      rw [erased]
      cases other with
      | nil => exact ⟨left,rfl⟩
      | cons first others =>
        obtain ⟨inner,here,below⟩ := hasDirectory_cons.mp dir
        rw [hasDirectory_cons,lookup]
        by_cases same : first = name
        · subst same
          have deeper : ¬rest <+: others := fun longer =>
            apart (List.cons_prefix_cons.mpr ⟨rfl,longer⟩)
          have further : rest ≠ [] := fun none => deeper (none ▸ List.nil_prefix)
          rw [if_pos rfl,if_neg further,here]
          exact ⟨_,rfl,ih deeper below⟩
        · rw [if_neg same]
          exact ⟨inner,here,below⟩

/-- What was taken away is gone. -/
theorem find?_erase (root : FileTree) {place : List String} (some : place ≠ []) :
    (root.erase place).find? place = none := by
  induction place generalizing root with
  | nil => exact absurd rfl some
  | cons name rest ih =>
    cases root with
    | file => rfl
    | directory entries =>
      obtain ⟨left,erased,lookup⟩ := erase_directory entries name rest
      rw [erased,find?,lookup,if_pos rfl]
      by_cases last : rest = []
      · rw [if_pos last]
        rfl
      · rw [if_neg last]
        cases entries.lookup name with
        | none => rfl
        | some inner => exact ih inner last

end FileTree

namespace Workspace

/-- One element of a path leads from a directory to a place. -/
inductive Enters (place : List String) : String → List String → Prop where
  | stay {element : String} (dot : element = "" ∨ element = ".") : Enters place element place
  | up : Enters place ".." place.dropLast
  | down {element : String} (some : element ≠ "") (dot : element ≠ ".") (up : element ≠ "..")
      (short : element.utf8ByteSize ≤ maxNameBytes) : Enters place element (place ++ [element])

theorem follow_cons_eq_ok {root : FileTree} {place rest target : List String} {element : String} :
    follow root place (element :: rest) = .ok target ↔
      root.HasDirectory place ∧ ∃ next, Enters place element next ∧
        follow root next rest = .ok target := by
  rw [follow]
  constructor
  · intro run
    split at run
    next => cases run
    next => cases run
    next entries here =>
      refine ⟨⟨entries,here⟩,?_⟩
      split at run
      next dot => exact ⟨place,.stay dot,run⟩
      next plain =>
        obtain ⟨some,dot⟩ := not_or.mp plain
        split at run
        next up => exact ⟨_,up ▸ .up,run⟩
        next up =>
          split at run
          next => cases run
          next short => exact ⟨_,.down some dot up (Nat.not_lt.mp short),run⟩
  · rintro ⟨⟨entries,here⟩,next,enters,run⟩
    simp only [here]
    cases enters with
    | stay dot => rw [if_pos dot,run]
    | up => rw [if_neg (by decide),if_pos rfl,run]
    | down some dot up short =>
      rw [if_neg (not_or.mpr ⟨some,dot⟩),if_neg up,if_neg (Nat.not_lt.mpr short),run]

section Follow

variable {root root' : FileTree} {place target : List String} {xs ys : List String}

theorem follow_append_eq_ok : follow root place (xs ++ ys) = .ok target ↔
    ∃ middle, follow root place xs = .ok middle ∧ follow root middle ys = .ok target := by
  induction xs generalizing place with
  | nil => simp [follow]
  | cons element rest ih =>
    simp only [List.cons_append,follow_cons_eq_ok,ih]
    constructor
    · rintro ⟨dir,next,enters,middle,first,second⟩
      exact ⟨middle,⟨dir,next,enters,first⟩,second⟩
    · rintro ⟨middle,⟨dir,next,enters,first⟩,second⟩
      exact ⟨dir,next,enters,middle,first,second⟩

/-- Where the directories of a tree are kept, paths lead where they led. -/
theorem follow_kept (dirs : ∀ place, root.HasDirectory place → root'.HasDirectory place)
    (run : follow root place xs = .ok target) : follow root' place xs = .ok target := by
  induction xs generalizing place with
  | nil => exact run
  | cons element rest ih =>
    obtain ⟨dir,next,enters,others⟩ := follow_cons_eq_ok.mp run
    exact follow_cons_eq_ok.mpr ⟨dirs place dir,next,enters,ih others⟩

theorem follow_named (run : follow root place xs = .ok target) :
    follow root place (xs.filter (· ≠ "")) = .ok target := by
  induction xs generalizing place with
  | nil => exact run
  | cons element rest ih =>
    obtain ⟨dir,next,enters,others⟩ := follow_cons_eq_ok.mp run
    by_cases empty : element = ""
    · rw [List.filter_cons_of_neg (by simp [empty])]
      -- An empty element does not lead away.
      cases enters with
      | stay => exact ih others
      | up => exact absurd empty (by decide)
      | down some => exact absurd empty some
    · rw [List.filter_cons_of_pos (by simp [empty])]
      exact follow_cons_eq_ok.mpr ⟨dir,next,enters,ih others⟩

/-- A path that leads to no directory ends with a name, below a directory. -/
theorem follow_file (some : xs ≠ []) (run : follow root place xs = .ok target)
    (free : ¬root.HasDirectory target) :
    ∃ before last above, xs = before ++ [last] ∧ last ≠ "" ∧ last ≠ "." ∧ last ≠ ".." ∧
      target = above ++ [last] ∧ root.HasDirectory above ∧
      follow root place before = .ok above ∧ follow root above [last] = .ok target := by
  rcases List.eq_nil_or_concat xs with none | ⟨before,last,same⟩
  · exact absurd none some
  rw [List.concat_eq_append] at same
  subst same
  obtain ⟨above,first,step⟩ := follow_append_eq_ok.mp run
  obtain ⟨dir,next,enters,done⟩ := follow_cons_eq_ok.mp step
  cases done
  cases enters with
  | stay => exact absurd dir free
  | up => exact absurd dir.dropLast free
  | down some dot up => exact ⟨before,last,above,rfl,some,dot,up,rfl,dir,first,step⟩

end Follow

/-- A path at which a file is or can be written, and its place. -/
structure Hosts (w : Workspace) (path : String) (place : List String) : Prop where
  located : w.locate path = .ok place
  named : path.toList.getLast? ≠ some '/'
  free : ¬w.root.HasDirectory place

theorem elements_ne_nil (path : String) : Path.elements path ≠ [] := by
  intro none
  have parts := List.map_eq_nil_iff.mp none
  cases chars : path.toList with
  | nil => simp [chars,Text.splitAt] at parts
  | cons c rest =>
    rw [chars,Text.splitAt] at parts
    split at parts
    next => cases parts
    next => split at parts <;> cases parts

section Places

variable {w : Workspace} {path : String} {place : List String}

theorem locate_eq_ok : w.locate path = .ok place ↔
    checkPath path = .ok () ∧ follow w.root (w.origin path) (Path.elements path) = .ok place := by
  rw [locate,except_bind_eq_ok]
  exact ⟨fun ⟨_,checked,found⟩ => ⟨checked,found⟩,fun ⟨checked,found⟩ => ⟨(),checked,found⟩⟩

theorem named_eq (named : path.toList.getLast? ≠ some '/') :
    (path.toList.reverse.dropWhile (· = '/')).reverse = path.toList := by
  rw [List.getLast?_eq_head?_reverse] at named
  cases chars : path.toList.reverse with
  | nil => simpa using chars.symm
  | cons c rest =>
    rw [chars] at named
    have other : ¬c = '/' := fun same => named (congrArg some same)
    rw [List.dropWhile_cons_of_neg (by simpa using other),← chars,List.reverse_reverse]

theorem hosts_of_writePlace (run : w.writePlace path = .ok place) : w.Hosts path place := by
  by_cases named : path.toList.getLast? = some '/'
  · simp only [writePlace,named,if_true] at run
    split at run
    · obtain ⟨_,-,stopped⟩ := except_bind_eq_ok.mp run
      cases stopped
    · obtain ⟨_,-,stopped⟩ := except_bind_eq_ok.mp run
      cases stopped
  · simp only [writePlace,named_eq named,String.ofList_toList,if_neg named,ite_self] at run
    obtain ⟨found,located,run⟩ := except_bind_eq_ok.mp run
    split at run
    next => cases run
    next other =>
      cases run
      exact ⟨located,named,fun dir => dir.elim other⟩

theorem Hosts.writePlace (hosts : w.Hosts path place) : w.writePlace path = .ok place := by
  simp only [Workspace.writePlace,named_eq hosts.named,String.ofList_toList,if_neg hosts.named,
    ite_self]
  refine except_bind_eq_ok.mpr ⟨place,hosts.located,?_⟩
  split
  next entries here => exact absurd ⟨entries,here⟩ hosts.free
  next => rfl

namespace Hosts

theorem follows (hosts : w.Hosts path place) :
    follow w.root (w.origin path) (Path.elements path) = .ok place :=
  (locate_eq_ok.mp hosts.located).2

theorem parent (hosts : w.Hosts path place) :
    ∃ above last, place = above ++ [last] ∧ w.root.HasDirectory above := by
  obtain ⟨-,last,above,-,-,-,-,same,dir,-⟩ :=
    follow_file (elements_ne_nil path) hosts.follows hosts.free
  exact ⟨above,last,same,dir⟩

/-- No directory stands at the place or below it. -/
theorem apart (hosts : w.Hosts path place) {other : List String}
    (dir : w.root.HasDirectory other) : ¬place <+: other := by
  rintro ⟨below,rfl⟩
  exact hosts.free dir.of_append

/-- In a tree that keeps the directories, a path still leads to its place. -/
theorem with_root (hosts : w.Hosts path place) {root : FileTree}
    (dirs : ∀ other, w.root.HasDirectory other → root.HasDirectory other)
    (free : ¬root.HasDirectory place) : Hosts { w with root } path place := by
  obtain ⟨checked,found⟩ := locate_eq_ok.mp hosts.located
  exact ⟨locate_eq_ok.mpr ⟨checked,follow_kept dirs found⟩,hosts.named,free⟩

/-- Writing a file changes what stands at its place. -/
theorem write (hosts : w.Hosts path place) (content : FileContent) :
    ∃ w', w.write path content = .ok w' ∧ w'.Hosts path place ∧
      w'.root.find? place = some (.file content) := by
  obtain ⟨above,last,rfl,dir⟩ := hosts.parent
  have found := FileTree.find?_insert dir last (.file content)
  refine ⟨_,by rw [Workspace.write,hosts.writePlace],hosts.with_root ?_ ?_,found⟩
  · exact fun other dir => dir.insert (hosts.apart dir)
  · rintro ⟨entries,here⟩
    rw [found] at here
    cases here

/-- A place with a file on it can be cleared, and a place with nothing on it counts as missing. -/
theorem removePlace_eq (hosts : w.Hosts path place) :
    w.removePlace path =
      if (w.root.find? place).isSome then .ok place else .error .missing := by
  obtain ⟨checked,found⟩ := locate_eq_ok.mp hosts.located
  have names : (Path.elements path).filter (· ≠ "") ≠ [] := by
    intro none
    -- Then all elements are empty, and the path leads nowhere but to a directory.
    have stayed := follow_named found
    rw [none] at stayed
    cases stayed
    obtain ⟨first,rest,elements⟩ := List.exists_cons_of_ne_nil (elements_ne_nil path)
    rw [elements] at found
    exact hosts.free (follow_cons_eq_ok.mp found).1
  obtain ⟨before,last,above,elements,-,dot,up,-,dir,first,step⟩ :=
    follow_file names (follow_named found) hosts.free
  have directory : follow w.root (w.origin path) (before ++ ["."]) = .ok above :=
    follow_append_eq_ok.mpr ⟨above,first,follow_cons_eq_ok.mpr ⟨dir,above,.stay (.inr rfl),rfl⟩⟩
  simp only [removePlace,checked,ok_bind,elements,List.getLast?_concat,List.dropLast_concat,
    directory,if_neg dot,if_neg up,step]
  cases here : w.root.find? place with
  | none => rfl
  | some tree =>
    cases tree with
    | file content =>
      simp only [if_neg hosts.named]
      rfl
    | directory entries => exact absurd ⟨entries,here⟩ hosts.free

theorem clear (hosts : w.Hosts path place) :
    ∃ w', w.clear path = .ok w' ∧ w'.Hosts path place ∧ w'.root.find? place = none := by
  rw [Workspace.clear,remove,hosts.removePlace_eq]
  cases here : w.root.find? place with
  | none => exact ⟨w,rfl,hosts,here⟩
  | some tree =>
    obtain ⟨above,last,same,-⟩ := hosts.parent
    have gone : (w.root.erase place).find? place = none :=
      FileTree.find?_erase w.root (by rw [same]; exact List.concat_ne_nil _ _)
    refine ⟨_,rfl,hosts.with_root (fun other dir => dir.erase (hosts.apart dir)) ?_,gone⟩
    rintro ⟨entries,found⟩
    rw [gone] at found
    cases found

theorem lookup (hosts : w.Hosts path place) : w.lookup path =
    match w.root.find? place with
    | some tree => .ok tree
    | none => .error .missing := by
  rw [Workspace.lookup,hosts.located]
  rfl

end Hosts

end Places

end Workspace

end CoolBackend
