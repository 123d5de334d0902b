import CoolBackend.Proofs.Layouts

/-!
Laying a program out defines the built-in classes and then its own, in their order, links them and
keeps their layouts. The result is a table that is ready, and its classes are those of the program.
-/
namespace CoolBackend

def ClassTable.builtins : ClassTable :=
  .ofList (Builtin.all.mapIdx fun i b => ClassEntry.ofBuiltin b i)

def Program.declared (p : Program) : List ClassEntry :=
  ClassTable.builtins.toList ++
    p.classes.mapIdx fun i c => ClassEntry.ofDecl c (ClassTable.builtins.size + i)

/-- What does not depend on the tags of classes can be read off their declarations. -/
theorem Program.map_declared {α : Type} (p : Program) {f : ClassEntry → α} {g : ClassDecl → α}
    (tagless : ∀ c tag, f (.ofDecl c tag) = g c) :
    p.declared.map f = ClassTable.builtins.toList.map f ++ p.classes.map g := by
  rw [declared,List.map_append]
  congr 1
  apply List.ext_getElem?
  intro i
  simp [Function.comp_def,tagless]

/-- A class is defined without links and without layouts. -/
theorem Program.bare_of_declared (p : Program) : ∀ c ∈ p.declared, c.bare = c := by
  intro c member
  rcases List.mem_append.mp member with builtin | declared
  · obtain ⟨i,b,-,rfl⟩ := List.mem_mapIdx.mp builtin
    rfl
  · obtain ⟨i,d,-,rfl⟩ := List.mem_mapIdx.mp declared
    rfl

namespace Session

open ClassTable

theorem defineBuiltins_all : defineBuiltins Builtin.all .empty = .ok () builtins := rfl

theorem defineBuiltins_sound {bs : List Builtin} {table table' : ClassTable} (sound : table.Sound)
    (run : defineBuiltins bs table = .ok () table') : table'.Sound := by
  induction bs generalizing table with
  | nil => cases run; exact sound
  | cons b rest ih =>
    simp only [defineBuiltins,bind_run,discard_run,defineBuiltin,addEntry_run] at run
    by_cases taken : (table.find? (ClassEntry.ofBuiltin b table.size).name).isSome
    · simp [taken] at run
    · simp only [taken] at run
      exact ih (sound.insert rfl (Option.not_isSome_iff_eq_none.mp taken) rfl) run

theorem defineAll_cons (c : ClassDecl) (rest : List ClassDecl) (table : ClassTable) :
    defineAll (c :: rest) table =
      if c.name = selfType then .error .namedSelfType table
      else if (table.find? c.name).isSome then .error (.definedTwice c.name) table
      else defineAll rest (table.insert (.ofDecl c table.size)) := by
  have name : (ClassEntry.ofDecl c table.size).name = c.name := rfl
  by_cases self : c.name = selfType
  · simp [defineAll,self,bind_run]
  · by_cases taken : (table.find? c.name).isSome
    · simp [defineAll,self,bind_run,discard_run,defineClass,addEntry_run,name,taken]
    · simp [defineAll,self,bind_run,discard_run,defineClass,addEntry_run,name,taken]

theorem defineAll_sound {cs : List ClassDecl} {table table' : ClassTable} (sound : table.Sound)
    (run : defineAll cs table = .ok () table') : table'.Sound := by
  induction cs generalizing table with
  | nil => cases run; exact sound
  | cons c rest ih =>
    rw [defineAll_cons] at run
    split at run
    next => cases run
    next =>
      split at run
      next => cases run
      next free => exact ih (sound.insert rfl (Option.not_isSome_iff_eq_none.mp free) rfl) run

/-- Classes can be defined exactly if their names are new and not reserved; they are appended in
their order. -/
theorem defineAll_eq_ok {cs : List ClassDecl} {table table' : ClassTable} :
    defineAll cs table = .ok () table' ↔
      (cs.map (·.name)).Nodup ∧ (∀ c ∈ cs, c.name ≠ selfType ∧ table.find? c.name = none) ∧
      table'.toList =
        table.toList ++ cs.mapIdx fun i c => ClassEntry.ofDecl c (table.size + i) := by
  induction cs generalizing table with
  | nil =>
    change EStateM.Result.ok () table = _ ↔ _
    constructor
    · intro same; cases same; simp
    · rintro ⟨-,-,same⟩
      rw [eq_of_toList (same.trans (List.append_nil _))]
  | cons c rest ih =>
    have appended : table.toList ++ (c :: rest).mapIdx (fun i c => .ofDecl c (table.size + i)) =
        (table.insert (.ofDecl c table.size)).toList ++ rest.mapIdx fun i d =>
          .ofDecl d ((table.insert (.ofDecl c table.size)).size + i) := by
      rw [toList_insert,size_insert,List.mapIdx_cons,List.append_assoc]
      simp only [Nat.add_zero,Nat.add_assoc,Nat.add_comm 1,List.singleton_append]
    have lookup (d : ClassDecl) : (table.insert (.ofDecl c table.size)).find? d.name = none ↔
        table.find? d.name = none ∧ c.name ≠ d.name := by
      simp only [find?_eq_none,toList_insert,List.mem_append,List.mem_singleton,or_imp,forall_and,
        forall_eq]
      rfl
    rw [defineAll_cons,appended]
    split
    next self => simp [self]
    next self =>
      split
      next taken =>
        simp only [List.mem_cons,forall_eq_or_imp]
        constructor
        · intro failed; cases failed
        · rintro ⟨-,⟨⟨-,free⟩,-⟩,-⟩
          rw [free] at taken; cases taken
      next free =>
        rw [ih]
        simp only [List.map_cons,List.nodup_cons,List.mem_cons,forall_eq_or_imp,lookup]
        have fresh : c.name ∉ rest.map (·.name) ↔ ∀ d ∈ rest, c.name ≠ d.name := by
          simp [eq_comm]
        rw [fresh]
        constructor
        · rintro ⟨distinct,each,same⟩
          exact ⟨⟨fun d member => (each d member).2.2,distinct⟩,
            ⟨⟨self,Option.not_isSome_iff_eq_none.mp free⟩,
              fun d member => ⟨(each d member).1,(each d member).2.1⟩⟩,same⟩
        · rintro ⟨⟨apart,distinct⟩,⟨-,each⟩,same⟩
          exact ⟨distinct,fun d member =>
            ⟨(each d member).1,(each d member).2,apart d member⟩,same⟩

theorem nameClasses_runs (cs : List ClassEntry) (supply : Supply) :
    ∃ supply', nameClasses cs supply = .ok () supply' := by
  induction cs generalizing supply with
  | nil => exact ⟨supply,rfl⟩
  | cons c rest ih => exact ih _

/-- The work of a layout on the table of the built-in classes. -/
def tableWork (p : Program) : TableM Unit := do
  defineAll p.classes
  link
  modify build

theorem tableWork_eq_ok {p : Program} {table built : ClassTable} :
    tableWork p table = .ok () built ↔
      ∃ defined linked, defineAll p.classes table = .ok () defined ∧
        link defined = .ok () linked ∧ built = linked.build := by
  simp only [tableWork,bind_eq_ok,modify_run]
  constructor
  · rintro ⟨_,defined,define,_,linked,link,same⟩
    cases same
    exact ⟨defined,linked,define,link,rfl⟩
  · rintro ⟨defined,linked,define,link,rfl⟩
    exact ⟨(),defined,define,(),linked,link,rfl⟩

/-- What is drawn before the classes are defined: the zero and the empty text. -/
def firstSupply : Supply := ((({} : Supply).int 0).2.string []).2

/-- A layout fails only where its work on the table fails. -/
theorem layout_eq (p : Program) (options : Options) :
    layout p { options } = match tableWork p builtins with
      | .ok () table =>
        onSupply (nameClasses table.toList) { options, classes := table, supply := firstSupply }
      | .error e table => .error e { options, classes := table, supply := firstSupply } := by
  simp only [layout,tableWork,bind_run,discard_run,onSupply,onClasses,LowerM.int,LowerM.string,
    modifyGet_run,defineBuiltins_all,get_run,firstSupply]
  cases defineAll p.classes builtins with
  | error e table => rfl
  | ok u table =>
    cases linked : link table <;> simp [linked]

theorem table_of_layout {p : Program} {options : Options} {s : Session}
    (run : layout p { options } = .ok () s) :
    tableWork p builtins = .ok () s.classes ∧ s.options = options := by
  rw [layout_eq] at run
  cases work : tableWork p builtins with
  | error e table => simp [work] at run
  | ok u table =>
    obtain ⟨supply,names⟩ := nameClasses_runs table.toList firstSupply
    simp only [work,onSupply,names] at run
    cases run
    exact ⟨rfl,rfl⟩

theorem layout_of_table {p : Program} {table : ClassTable} (options : Options)
    (work : tableWork p builtins = .ok () table) :
    ∃ s, layout p { options } = .ok () s ∧ s.classes = table ∧ s.options = options := by
  obtain ⟨supply,names⟩ := nameClasses_runs table.toList firstSupply
  exact ⟨{ options, classes := table, supply },by simp [layout_eq,work,onSupply,names],rfl,rfl⟩

/-- Compiling, once the layout is done. -/
theorem compileIn_of_layout (nodes : NodeNames) {p : Program} {options : Options} {s : Session}
    (run : layout p { options } = .ok () s) :
    compileIn nodes p { options } = match assembleIn nodes s.options s.classes s.supply with
      | .ok image supply =>
        match image.toFragment.render Assembly.Spim.group with
        | .ok text => .ok text { s with supply }
        | .error e => .error (.render e) { s with supply }
      | .error e supply => .error (.internal e) { s with supply } := by
  have unused : ¬({ options } : Session).classes.size > 0 := Nat.not_lt_zero _
  have laid : internal (layout p) { options } = .ok () s := by
    rw [internal,run]
  simp only [compileIn,bind_run,get_run,if_neg unused,laid]
  rw [internal,onSupply]
  cases assembleIn nodes s.options s.classes s.supply with
  | error e supply => rfl
  | ok image supply =>
    simp only
    cases image.toFragment.render Assembly.Spim.group with
    | ok text => rfl
    | error e => rfl

theorem compile_of_layout {p : Program} {options : Options} {s : Session}
    (run : layout p { options } = .ok () s) :
    compile p { options } = match assemble s.options s.classes s.supply with
      | .ok image supply =>
        match image.toFragment.render Assembly.Spim.group with
        | .ok text => .ok text { s with supply }
        | .error e => .error (.render e) { s with supply }
      | .error e supply => .error (.internal e) { s with supply } := by
  rw [compile,assemble,compileIn_of_layout .tree run]

theorem compileIn_of_failed_layout (nodes : NodeNames) {p : Program} {options : Options}
    {e : InternalError} {s : Session} (run : layout p { options } = .error e s) :
    compileIn nodes p { options } = .error (.internal e) s := by
  have unused : ¬({ options } : Session).classes.size > 0 := Nat.not_lt_zero _
  have failed : internal (layout p) { options } = .error (.internal e) s := by
    rw [internal,run]
  simp only [compileIn,bind_run,get_run,if_neg unused,failed]

theorem compile_of_failed_layout {p : Program} {options : Options} {e : InternalError} {s : Session}
    (run : layout p { options } = .error e s) :
    compile p { options } = .error (.internal e) s :=
  compileIn_of_failed_layout .tree run

/-- What compiling a program in a new session gives: its text, or the message of an error. -/
def outputIn (nodes : NodeNames) (p : Program) (options : Options) : Except String String :=
  match compileIn nodes p { options } with
  | .ok text _ => .ok text
  | .error e _ => .error e.message

def output (p : Program) (options : Options) : Except String String := outputIn .tree p options

def rendered : EStateM.Result InternalError Supply Image → Except String String
  | .ok image _ => (image.toFragment.render Assembly.Spim.group).mapError (·.message)
  | .error e _ => .error e.message

theorem outputIn_of_layout (nodes : NodeNames) {p : Program} {options : Options} {s : Session}
    (run : layout p { options } = .ok () s) :
    outputIn nodes p options = rendered (assembleIn nodes s.options s.classes s.supply) := by
  rw [outputIn,compileIn_of_layout nodes run]
  cases assembleIn nodes s.options s.classes s.supply with
  | error e supply => rfl
  | ok image supply =>
    simp only [rendered]
    cases image.toFragment.render Assembly.Spim.group <;> rfl

theorem output_of_layout {p : Program} {options : Options} {s : Session}
    (run : layout p { options } = .ok () s) :
    output p options = rendered (assemble s.options s.classes s.supply) :=
  outputIn_of_layout .tree run

theorem outputIn_of_failure (nodes : NodeNames) {p : Program} {options : Options}
    {e : InternalError} {s : Session} (run : layout p { options } = .error e s) :
    outputIn nodes p options = .error e.message := by
  rw [outputIn,compileIn_of_failed_layout nodes run]
  rfl

theorem output_of_failure {p : Program} {options : Options} {e : InternalError} {s : Session}
    (run : layout p { options } = .error e s) : output p options = .error e.message :=
  outputIn_of_failure .tree run

theorem builtins_sound : builtins.Sound := defineBuiltins_sound sound_empty defineBuiltins_all

/-- After a layout the table is ready, and its classes are those of the program. -/
theorem ready_of_layout {p : Program} {options : Options} {s : Session}
    (run : layout p { options } = .ok () s) :
    s.classes.Ready ∧ s.classes.toList.map ClassEntry.bare = p.declared := by
  obtain ⟨work,-⟩ := table_of_layout run
  obtain ⟨defined,linked,define,link,built⟩ := tableWork_eq_ok.mp work
  obtain ⟨-,-,classes⟩ := defineAll_eq_ok.mp define
  obtain ⟨isLinked,frame⟩ := linked_of_link (defineAll_sound builtins_sound define) link
  have bare : ∀ c ∈ defined.toList, c.bare = c := by
    rw [classes]
    exact p.bare_of_declared
  have fresh : defined.Fresh := fun c member =>
    ⟨congrArg (·.attributeLayout) (bare c member).symm,
      congrArg (·.dispatchLayout) (bare c member).symm⟩
  obtain ⟨ready,same⟩ := ((fresh.of_unlinked frame).ready isLinked).of_build
  rw [built]
  refine ⟨ready,?_⟩
  have through (t : ClassTable) : t.toList.map ClassEntry.bare =
      (t.toList.map ClassEntry.unkept).map ClassEntry.bare := by
    rw [List.map_map]
    rfl
  calc linked.build.toList.map ClassEntry.bare
      = linked.toList.map ClassEntry.bare := by rw [through,same,← through]
    _ = defined.toList.map ClassEntry.bare := bare_of_unlinked frame
    _ = defined.toList.map id := List.map_congr_left bare
    _ = p.declared := (List.map_id _).trans classes

end Session

/-- The entry of a class of the program. -/
structure ClassEntry.Declares (c : ClassEntry) (d : ClassDecl) : Prop where
  name : c.name = d.name
  attributes : c.attributes = d.attributes.map fun (b,init) =>
    { name := b.name, type := b.type, init }
  methods : c.methodDecls = d.methods.map (c,·)

theorem ClassEntry.declares_of_bare {c : ClassEntry} {d : ClassDecl} {tag : Nat}
    (made : c.bare = .ofDecl d tag) : c.Declares d := by
  have decl : c.decl = some d := congrArg (·.decl) made
  refine ⟨congrArg (·.name) made,congrArg (·.attributes) made,?_⟩
  rw [methodDecls,decl]
  rfl

/-- The built-in classes have no code of their own. -/
theorem builtin_inits {b : Builtin} (among : b ∈ Builtin.all) {a : AttributeDecl}
    (own : a ∈ b.attributes) : a.init = .absent := by
  have all : ∀ b ∈ Builtin.all, ∀ a ∈ b.attributes, a.init.isAbsent := by decide
  have missing := all b among a own
  cases init : a.init with
  | absent => rfl
  | _ => rw [init] at missing; cases missing

section Origins

variable {p : Program} {table : ClassTable}
  (same : table.toList.map ClassEntry.bare = p.declared)

include same

/-- Every class of the table is built in or declared by the program. -/
theorem entry_source {c : ClassEntry} (member : c ∈ table.toList) :
    (∃ b ∈ Builtin.all, ∃ tag, c.bare = .ofBuiltin b tag) ∨
      ∃ d ∈ p.classes, ∃ tag, c.bare = .ofDecl d tag := by
  have declared : c.bare ∈ p.declared := same ▸ List.mem_map_of_mem member
  rcases List.mem_append.mp declared with builtin | own
  · obtain ⟨i,bound,made⟩ := List.mem_mapIdx.mp builtin
    exact .inl ⟨_,List.getElem_mem bound,i,made.symm⟩
  · obtain ⟨i,bound,made⟩ := List.mem_mapIdx.mp own
    exact .inr ⟨_,List.getElem_mem bound,_,made.symm⟩

/-- Every class of the table with code is one of the program. -/
theorem entry_origin {c : ClassEntry} (member : c ∈ table.toList) :
    (∀ a ∈ c.attributes, a.init = .absent) ∧ c.methodDecls = [] ∨
      ∃ d ∈ p.classes, c.Declares d := by
  rcases entry_source same member with ⟨b,among,tag,made⟩ | ⟨d,among,tag,made⟩
  · have attributes : c.attributes = b.attributes := congrArg (·.attributes) made
    have decl : c.decl = none := congrArg (·.decl) made
    refine .inl ⟨?_,by rw [ClassEntry.methodDecls,decl]; rfl⟩
    intro a own
    rw [attributes] at own
    exact builtin_inits among own
  · exact .inr ⟨d,among,ClassEntry.declares_of_bare made⟩

/-- The class at a position of the program has the tag of this position. -/
theorem entry_at {i : Nat} {d : ClassDecl} (at_i : p.classes[i]? = some d) :
    ∃ c ∈ table.toList, c.bare = .ofDecl d (ClassTable.builtins.size + i) := by
  obtain ⟨bound,rfl⟩ := List.getElem?_eq_some_iff.mp at_i
  have member : ClassEntry.ofDecl p.classes[i] (ClassTable.builtins.size + i) ∈ p.declared :=
    List.mem_append_right _ (List.mem_mapIdx.mpr ⟨i,bound,rfl⟩)
  rw [← same] at member
  exact List.mem_map.mp member

theorem entry_of_decl {d : ClassDecl} (declared : d ∈ p.classes) :
    ∃ c ∈ table.toList, c.Declares d := by
  obtain ⟨i,at_i⟩ := List.mem_iff_getElem?.mp declared
  obtain ⟨c,member,made⟩ := entry_at same at_i
  exact ⟨c,member,ClassEntry.declares_of_bare made⟩

end Origins

end CoolBackend
