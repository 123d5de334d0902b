import CoolBackend.Proofs.KnownClasses
import CoolBackend.Proofs.Verified

/-!
A program without complaints against its hierarchy can be laid out: its classes can be defined,
their parents exist, the only root is the built-in one, and every class reaches it.
-/
namespace CoolBackend

open Verify

namespace ClassTable

theorem find?_builtins {name : String} :
    builtins.find? name = none ↔ Builtin.isBuiltin name = false := by
  have names : builtins.toList.map (·.name) = Builtin.all.map (·.name) := rfl
  have others : Builtin.isBuiltin name = false ↔ ∀ b ∈ Builtin.all.map (·.name), b ≠ name := by
    simp [Builtin.isBuiltin]
  rw [find?_eq_none,others,← names,List.forall_mem_map]

end ClassTable

/-- Classes whose names are free and different are all taken. -/
theorem Verify.enroll_eq {cs taken : List ClassDecl} (distinct : (cs.map (·.name)).Nodup)
    (free : ∀ c ∈ cs, c.name ≠ selfType ∧ Builtin.isBuiltin c.name = false ∧
      ∀ earlier ∈ taken, earlier.name ≠ c.name) : enroll cs taken = ([],taken ++ cs) := by
  induction cs generalizing taken with
  | nil => simp [enroll]
  | cons c rest ih =>
    obtain ⟨⟨notSelf,notBuiltin,new⟩,others⟩ := List.forall_mem_cons.mp free
    obtain ⟨apart,distinct⟩ := List.nodup_cons.mp distinct
    have unknown : taken.find? (·.name = c.name) = none := by
      simpa using new
    rw [enroll]
    simp only [notSelf,notBuiltin,unknown,if_false,Bool.false_eq_true]
    rw [ih distinct,List.append_assoc]
    · rfl
    · intro d member
      obtain ⟨first,second,third⟩ := others d member
      refine ⟨first,second,List.forall_mem_append.mpr ⟨third,?_⟩⟩
      intro earlier here same
      cases List.mem_singleton.mp here
      exact apart (List.mem_map.mpr ⟨d,member,same.symm⟩)

/-- The hierarchy that the verifier walks in a program that can be laid out. -/
theorem Session.known_of_layout {p : Program} {options : Options} {s : Session}
    (run : layout p { options } = .ok () s) :
    s.classes.known = Hierarchy.ofDecls (enroll p.classes []).2 := by
  obtain ⟨work,-⟩ := table_of_layout run
  obtain ⟨defined,linked,define,-,-⟩ := tableWork_eq_ok.mp work
  obtain ⟨distinct,free,-⟩ := defineAll_eq_ok.mp define
  have all : enroll p.classes [] = ([],[] ++ p.classes) :=
    enroll_eq distinct fun c member =>
      ⟨(free c member).1,ClassTable.find?_builtins.mp (free c member).2,by simp⟩
  rw [all,List.nil_append]
  exact ClassTable.known_eq (ready_of_layout run).2

theorem Verify.Hierarchy.mem_ofDecls {decls : List ClassDecl} {k : KnownClass} :
    k ∈ Hierarchy.ofDecls decls ↔ (∃ b ∈ Builtin.all, KnownClass.ofBuiltin b = k) ∨
      ∃ c ∈ decls, KnownClass.ofDecl c = k := by
  rw [Hierarchy.ofDecls,List.mem_append,List.mem_map,List.mem_map]

namespace Verify.Rooted

variable {p : Program} (rooted : Rooted p)

include rooted

/-- All parents but that of the root are classes. -/
theorem parent_defined {k : KnownClass} (member : k ∈ Hierarchy.ofDecls p.classes) :
    k.parent = "" ∨ (Hierarchy.ofDecls p.classes).defines k.parent := by
  rcases Hierarchy.mem_ofDecls.mp member with ⟨b,among,rfl⟩ | ⟨c,declared,rfl⟩
  · have above : ∀ b ∈ Builtin.all, b.parent = "" ∨ b.parent = Builtin.objectName := by decide
    rcases above b among with root | child
    · exact .inl root
    · have object : (Hierarchy.ofDecls p.classes).defines Builtin.objectName := rfl
      exact .inr (by rw [KnownClass.ofBuiltin,child]; exact object)
  · exact .inr (rooted.parents c declared)

theorem known_reaches {k : KnownClass} (member : k ∈ Hierarchy.ofDecls p.classes) :
    ∃ n, (Hierarchy.ofDecls p.classes).reachesRoot n k.name := by
  rcases Hierarchy.mem_ofDecls.mp member with ⟨b,among,rfl⟩ | ⟨c,declared,rfl⟩
  · have all : ∀ b ∈ Builtin.all, (Hierarchy.ofDecls p.classes).reachesRoot 2 b.name := by
      simp only [Builtin.all,List.forall_mem_cons]
      exact ⟨rfl,rfl,rfl,rfl,rfl,List.forall_mem_nil _⟩
    exact ⟨2,all b among⟩
  · exact rooted.reaches c declared

end Verify.Rooted

/-- A class of a program always has a parent. -/
theorem ClassDecl.parentName_ne (c : ClassDecl) : c.parentName ≠ "" := by
  rw [parentName]
  split
  next => decide
  next given => exact given

theorem Verify.Hierarchy.one_root (decls : List ClassDecl) :
    (Hierarchy.ofDecls decls).countP (·.parent = "") = 1 := by
  have own : (decls.map KnownClass.ofDecl).countP (·.parent = "") = 0 := by
    rw [List.countP_eq_zero]
    intro k member
    obtain ⟨c,-,rfl⟩ := List.mem_map.mp member
    exact fun root => c.parentName_ne (of_decide_eq_true root)
  rw [Hierarchy.ofDecls,List.countP_append,own]
  rfl

theorem ClassTable.mem_known {table : ClassTable} {c : ClassEntry} (member : c ∈ table.toList) :
    c.known ∈ table.known := List.mem_map_of_mem member

/-- No class of a table has the empty name if none of the program has. -/
theorem ClassTable.named_of_known {table : ClassTable} {p : Program}
    (known : table.known = Hierarchy.ofDecls p.classes) (named : ∀ c ∈ p.classes, c.name ≠ "") :
    ∀ c ∈ table.toList, c.name ≠ "" := by
  intro c member
  have inside := mem_known member
  rw [known] at inside
  rcases Hierarchy.mem_ofDecls.mp inside with ⟨b,among,same⟩ | ⟨d,declared,same⟩
  · have all : ∀ b ∈ Builtin.all, b.name ≠ "" := by decide
    rw [show c.name = b.name from congrArg (·.name) same.symm]
    exact all b among
  · rw [show c.name = d.name from congrArg (·.name) same.symm]
    exact named d declared

theorem Verify.Rooted.table_work {p : Program} (rooted : Rooted p)
    (named : ∀ c ∈ p.classes, c.name ≠ "") :
    ∃ table, Session.tableWork p ClassTable.builtins = .ok () table := by
  let defined : ClassTable := .ofList p.declared
  have define : Session.defineAll p.classes ClassTable.builtins = .ok () defined :=
    Session.defineAll_eq_ok.mpr ⟨rooted.distinct,fun c declared =>
      ⟨(rooted.free c declared).1,ClassTable.find?_builtins.mpr (rooted.free c declared).2⟩,rfl⟩
  have sound := Session.defineAll_sound Session.builtins_sound define
  have bare : defined.toList.map ClassEntry.bare = p.declared := by
    calc defined.toList.map ClassEntry.bare
        = defined.toList.map id := List.map_congr_left p.bare_of_declared
      _ = p.declared := List.map_id _
  have parents : ∀ c ∈ defined.toList, c.parentName ≠ "" →
      (defined.find? c.parentName).isSome := by
    intro c member child
    have inside := ClassTable.mem_known member
    rw [ClassTable.known_eq bare] at inside
    rcases rooted.parent_defined inside with root | found
    · exact absurd root child
    · rw [← ClassTable.known_eq bare,ClassTable.defines_known] at found
      exact found
  obtain ⟨linked,linking⟩ := ClassTable.linkParents_runs defined.toList defined parents
  obtain ⟨wired,same⟩ := ClassTable.wired_of_linkParents sound linking
  -- Linking changes nothing that the verifier sees.
  have known : linked.known = Hierarchy.ofDecls p.classes :=
    ClassTable.known_eq ((ClassTable.bare_of_unlinked same).trans bare)
  have one : linked.toList.countP (·.parentName = "") = 1 := by
    have roots := Hierarchy.one_root p.classes
    rw [← known,ClassTable.known,List.countP_map] at roots
    exact roots
  have reaches : ∀ c ∈ linked.toList, linked.reachesRoot c := by
    intro c member
    have inside := ClassTable.mem_known member
    rw [known] at inside
    obtain ⟨n,walk⟩ := rooted.known_reaches inside
    rw [← known] at walk
    have ends := ClassTable.reachesRoot_known (ClassTable.named_of_known known named)
      wired.toSound member n walk
    exact (wired.reachesRoot_iff member).mpr (wired.climbs_of_ends member ends)
  exact ⟨linked.build,Session.tableWork_eq_ok.mpr
    ⟨defined,linked,define,(ClassTable.link_eq_ok sound).mpr ⟨linking,one,reaches⟩,rfl⟩⟩

end CoolBackend
