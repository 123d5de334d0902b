import CoolBackend.Proofs.LiteralRequests
import CoolBackend.Proofs.PartialRuns
import CoolBackend.Proofs.TableCalls

/-!
A layout asks for two constants and defines the class `Object` before it looks at the program. No
call on a session takes a class or a constant away again. So wherever the layout stopped, and
whatever was called since, the next compilation finds classes in the table and the next layout finds
`Object` there, and both refuse without changing anything.
-/
namespace CoolBackend

def ClassTable.Leads (table later : ClassTable) : Prop :=
  table.toList.map ClassEntry.bare <+: later.toList.map ClassEntry.bare

instance : IsPreorder ClassTable ClassTable.Leads where
  refl _ := List.prefix_rfl
  trans _ _ _ first second := List.IsPrefix.trans first second

theorem ClassTable.Leads.has_class {table later : ClassTable} (leads : table.Leads later)
    {name : String} (present : ∃ c ∈ table.toList, c.name = name) :
    ∃ c ∈ later.toList, c.name = name := by
  obtain ⟨c,member,rfl⟩ := present
  obtain ⟨d,inside,same⟩ := List.mem_map.mp (leads.subset (List.mem_map_of_mem member))
  exact ⟨d,inside,congrArg (·.name) same⟩

structure Session.Leads (s t : Session) : Prop where
  classes : s.classes.Leads t.classes
  supply : s.supply.Leads t.supply

instance : IsPreorder Session Session.Leads where
  refl s := ⟨Std.Refl.refl s.classes,Std.Refl.refl s.supply⟩
  trans s u t first second :=
    ⟨IsTrans.trans s.classes u.classes t.classes first.classes second.classes,
      IsTrans.trans s.supply u.supply t.supply first.supply second.supply⟩

namespace Session

def refused {α : Type} : EStateM.Result CompileError Session α → Bool
  | .error .sessionUsed _ => true
  | _ => false

section Lifting

variable {α : Type}

theorem stateAfter_onClasses (work : TableM α) (s : Session) :
    stateAfter (onClasses work s) = { s with classes := stateAfter (work s.classes) } := by
  rw [onClasses]
  cases work s.classes <;> rfl

theorem stateAfter_onSupply (work : LowerM α) (s : Session) :
    stateAfter (onSupply work s) = { s with supply := stateAfter (work s.supply) } := by
  rw [onSupply]
  cases work s.supply <;> rfl

theorem onClasses_leads {work : TableM α} (leads : Advances ClassTable.Leads work) :
    Advances Session.Leads (onClasses work) := by
  intro s
  rw [stateAfter_onClasses]
  exact ⟨leads s.classes,Std.Refl.refl s.supply⟩

theorem onSupply_leads {work : LowerM α} (leads : Advances Supply.Leads work) :
    Advances Session.Leads (onSupply work) := by
  intro s
  rw [stateAfter_onSupply]
  exact ⟨Std.Refl.refl s.classes,leads s.supply⟩

end Lifting

theorem defineBuiltins_leads (bs : List Builtin) :
    Advances ClassTable.Leads (defineBuiltins bs) := by
  induction bs with
  | nil => exact advances_pure _
  | cons b rest ih => exact .bind (ClassTable.step_extends (.defineBuiltin b)) fun _ => ih

theorem defineAll_leads (cs : List ClassDecl) : Advances ClassTable.Leads (defineAll cs) := by
  induction cs with
  | nil => exact advances_pure _
  | cons c rest ih =>
    have define : Advances ClassTable.Leads
        (do discard (ClassTable.defineClass c); defineAll rest) :=
      .bind (ClassTable.step_extends (.defineClass c)) fun _ => ih
    rw [defineAll]
    split
    · exact .bind (advances_throw _) fun _ => define
    · exact define

theorem nameClasses_leads (cs : List ClassEntry) : Advances Supply.Leads (nameClasses cs) := by
  induction cs with
  | nil => exact advances_pure _
  | cons c rest ih => exact ((string_leads _).map _).bind fun _ => ih

theorem tableWork_leads (p : Program) : Advances ClassTable.Leads (tableWork p) :=
  (defineAll_leads p.classes).bind fun _ =>
    .bind (ClassTable.step_extends .link) fun _ => ClassTable.step_extends .build

def opened (supply : Supply) : Supply := ((supply.int 0).2.string []).2

def openingWork (p : Program) : TableM Unit := do
  defineBuiltins Builtin.all
  tableWork p

theorem layout_run (p : Program) (s : Session) :
    layout p s = (onClasses (openingWork p) >>= fun _ => do
      onSupply (nameClasses (← get).classes.toList)) { s with supply := opened s.supply } := rfl

theorem openingWork_leads (p : Program) : Advances ClassTable.Leads (openingWork p) :=
  (defineBuiltins_leads Builtin.all).bind fun _ => tableWork_leads p

theorem naming_leads : Advances Session.Leads (do
    onSupply (nameClasses (← get).classes.toList) : EStateM InternalError Session Unit) :=
  advances_get.bind fun s => onSupply_leads (nameClasses_leads s.classes.toList)

theorem layout_leads (p : Program) : Advances Session.Leads (layout p) := by
  intro s
  have asked : s.Leads { s with supply := opened s.supply } :=
    ⟨Std.Refl.refl s.classes,(LiteralPool.Grows.int ..).trans (.string ..)⟩
  rw [layout_run]
  exact IsTrans.trans s _ _ asked
    (((onClasses_leads (openingWork_leads p)).bind fun _ => naming_leads) _)

theorem compile_used (p : Program) {s : Session} (used : s.classes.size > 0) :
    compile p s = .error .sessionUsed s := by
  simp only [compile,compileIn,bind_run,get_run,if_pos used,throw_run]

/-- A session without classes goes as far as its layout, and then as far as the program can be
assembled. -/
theorem compile_unused (p : Program) {s : Session} (unused : ¬s.classes.size > 0) :
    refused (compile p s) = false ∧
      stateAfter (compile p s) = match layout p s with
        | .ok _ t => { t with supply := stateAfter (assemble t.options t.classes t.supply) }
        | .error _ t => t := by
  simp only [compile,compileIn,bind_run,get_run,if_neg unused]
  rw [internal]
  cases layout p s with
  | error e t => exact ⟨rfl,rfl⟩
  | ok u t =>
    simp only [internal,onSupply,assemble]
    cases assembleIn .tree t.options t.classes t.supply with
    | error e supply => exact ⟨rfl,rfl⟩
    | ok image supply =>
      simp only
      cases image.toFragment.render Assembly.Spim.group with
      | ok text => exact ⟨rfl,rfl⟩
      | error e => exact ⟨rfl,rfl⟩

theorem compile_leads (p : Program) : Advances Session.Leads (compile p) := by
  intro s
  by_cases used : s.classes.size > 0
  · rw [compile_used p used]
    exact Std.Refl.refl s
  · have laid := layout_leads p s
    rw [(compile_unused p used).2]
    cases run : layout p s with
    | error e t => rw [run] at laid; exact laid
    | ok u t =>
      rw [run] at laid
      refine ⟨laid.classes,laid.supply.trans ?_⟩
      exact assemble_leads t.options t.classes t.supply

/-- The traces of a layout: the root of all classes and the first two constants. -/
structure Spent (s : Session) : Prop where
  object : ∃ c ∈ s.classes.toList, c.name = Builtin.objectName
  zero : .int 0 ∈ s.supply.literals.constants
  empty : .string [] ∈ s.supply.literals.constants

theorem Spent.leads {s t : Session} (spent : s.Spent) (leads : s.Leads t) : t.Spent := by
  have kept : s.supply.literals.constants ⊆ t.supply.literals.constants :=
    (leads.supply.kept.map Literal.constant).subset
  exact ⟨leads.classes.has_class spent.object,kept spent.zero,kept spent.empty⟩

end Session

namespace LiteralPool

theorem int_held (pool : LiteralPool) (value : Int32) :
    .int value ∈ (pool.int value).2.constants :=
  List.mem_map.mpr ⟨_,pool.int_entry value,rfl⟩

theorem string_held (pool : LiteralPool) (value : Bytes) :
    .string value ∈ (pool.string value).2.constants := by
  obtain ⟨length,member⟩ := pool.string_entry value
  exact List.mem_map.mpr ⟨_,member,rfl⟩

theorem int_again {pool : LiteralPool} {value : Int32} (held : .int value ∈ pool.constants) :
    (pool.int value).2 = pool := by
  rcases int_cases pool value with ⟨label,-,answer⟩ | ⟨new,-⟩
  · rw [answer]
  · exact absurd held new

theorem string_again {pool : LiteralPool} {value : Bytes} (held : .string value ∈ pool.constants) :
    (pool.string value).2 = pool := by
  rcases string_cases pool value with ⟨label,length,-,answer⟩ | ⟨new,-⟩
  · rw [answer]
  · exact absurd held new

end LiteralPool

/-- Whether a class was added or its name was taken, there is one of its name afterwards. -/
theorem ClassTable.addEntry_present (entry : Nat → ClassEntry) {name : String}
    (named : ∀ tag, (entry tag).name = name) (table : ClassTable) :
    ∃ c ∈ (stateAfter ((discard (addEntry entry) : TableM Unit) table)).toList, c.name = name := by
  rw [discard_run,addEntry_run,named]
  by_cases taken : (table.find? name).isSome
  · rw [if_pos taken]
    exact find?_isSome.mp taken
  · rw [if_neg taken]
    refine ⟨entry table.size,?_,named _⟩
    change _ ∈ (table.insert _).toList
    rw [toList_insert]
    exact List.mem_append_right _ (.head _)

namespace Session

/-- The built-in classes are not defined over a class `Object` that is there. -/
theorem defineBuiltins_taken {table : ClassTable}
    (present : ∃ c ∈ table.toList, c.name = Builtin.objectName) :
    defineBuiltins Builtin.all table = .error (.definedTwice Builtin.objectName) table := by
  have taken := ClassTable.find?_isSome.mpr present
  have define (b : Builtin) : ClassTable.defineBuiltin b = ClassTable.addEntry (.ofBuiltin b) := rfl
  simp only [Builtin.all,defineBuiltins,bind_run,discard_run,define,ClassTable.addEntry_run,
    ClassEntry.ofBuiltin,taken,if_true]

/-- The first of some classes is there after defining them, also if one of the others is refused. -/
theorem defineBuiltins_first (b : Builtin) (rest : List Builtin) (table : ClassTable) :
    ∃ c ∈ (stateAfter (defineBuiltins (b :: rest) table)).toList, c.name = b.name := by
  have others : ClassTable.Leads _ (stateAfter (defineBuiltins (b :: rest) table)) :=
    Advances.after (x := (discard (ClassTable.defineBuiltin b) : TableM Unit))
      (fun _ => defineBuiltins_leads rest) table
  exact others.has_class (ClassTable.addEntry_present (.ofBuiltin b) (fun _ => rfl) table)

theorem openingWork_object (p : Program) (table : ClassTable) :
    ∃ c ∈ (stateAfter (openingWork p table)).toList, c.name = Builtin.objectName := by
  have work : ClassTable.Leads _ (stateAfter (openingWork p table)) :=
    Advances.after (x := defineBuiltins Builtin.all) (fun _ => tableWork_leads p) table
  exact work.has_class (defineBuiltins_first _ _ table)

/-- A layout leaves its traces, wherever it stops. -/
theorem spent_of_layout (p : Program) (s : Session) : (stateAfter (layout p s)).Spent := by
  have started : (stateAfter (onClasses (openingWork p)
      { s with supply := opened s.supply })).Spent := by
    rw [stateAfter_onClasses]
    have later := LiteralPool.Grows.string (s.supply.literals.int 0).2 []
    exact ⟨openingWork_object p s.classes,
      (later.kept.map Literal.constant).subset (LiteralPool.int_held ..),LiteralPool.string_held ..⟩
  rw [layout_run]
  exact started.leads (Advances.after (fun _ => naming_leads) _)

theorem spent_of_compile {p : Program} {s : Session} (ran : refused (compile p s) = false) :
    (stateAfter (compile p s)).Spent := by
  have unused : ¬s.classes.size > 0 := by
    intro used
    rw [compile_used p used] at ran
    cases ran
  have laid := spent_of_layout p s
  rw [(compile_unused p unused).2]
  cases run : layout p s with
  | error e t => rw [run] at laid; exact laid
  | ok u t =>
    rw [run] at laid
    exact laid.leads ⟨Std.Refl.refl t.classes,assemble_leads t.options t.classes t.supply⟩

namespace Spent

variable {s : Session} (spent : s.Spent) (p : Program)

include spent

theorem compile_refused : compile p s = .error .sessionUsed s := by
  obtain ⟨c,member,-⟩ := spent.object
  have used : 0 < s.classes.toList.length := List.length_pos_of_mem member
  exact compile_used p used

theorem layout_refused : layout p s = .error (.definedTwice Builtin.objectName) s := by
  have same : opened s.supply = s.supply := by
    have zero : (s.supply.int 0).2 = s.supply := by
      change { s.supply with literals := (s.supply.literals.int 0).2 } = s.supply
      rw [LiteralPool.int_again spent.zero]
    rw [opened,zero]
    change { s.supply with literals := (s.supply.literals.string []).2 } = s.supply
    rw [LiteralPool.string_again spent.empty]
  have stopped : openingWork p s.classes = .error (.definedTwice Builtin.objectName) s.classes := by
    rw [openingWork,bind_run,defineBuiltins_taken spent.object]
  rw [layout_run,same,bind_run,onClasses,stopped]

end Spent

end Session

/-- A call on a session. Questions that change nothing are left to the functions that answer. -/
inductive SessionCall where
  | layout (p : Program)
  | compile (p : Program)
  | configure (options : Options)
  | label (stem : String)
  | constant (value : Constant)
  | table (call : TableCall)

namespace SessionCall

def after : SessionCall → Session → Session
  | layout p, s => stateAfter (Session.layout p s)
  | compile p, s => stateAfter (Session.compile p s)
  | configure options, s => { s with options }
  | label stem, s => stateAfter (Session.onSupply (LowerM.newLabel stem) s)
  | constant value, s => stateAfter (Session.onSupply (LowerM.constant value) s)
  | table call, s => stateAfter (Session.onClasses call.run s)

def laysOut : SessionCall → Session → Bool
  | layout _, _ => true
  | compile p, s => !Session.refused (Session.compile p s)
  | _, _ => false

theorem after_leads (call : SessionCall) (s : Session) : s.Leads (call.after s) := by
  cases call with
  | layout p => exact Session.layout_leads p s
  | compile p => exact Session.compile_leads p s
  | configure options => exact ⟨Std.Refl.refl s.classes,Std.Refl.refl s.supply⟩
  | label stem => exact Session.onSupply_leads (newLabel_leads stem) s
  | constant value => exact Session.onSupply_leads (constant_leads value) s
  | table call =>
    refine Session.onClasses_leads (fun table => ?_) s
    rw [call.state_of_run]
    exact ClassTable.step_extends call.step table

theorem spent_of_laysOut {call : SessionCall} {s : Session} (ran : call.laysOut s) :
    (call.after s).Spent := by
  cases call with
  | layout p => exact Session.spent_of_layout p s
  | compile p => exact Session.spent_of_compile (by simpa [laysOut] using ran)
  | configure | label | constant | table => cases ran

end SessionCall

namespace Session

def afterCalls (s : Session) (calls : List SessionCall) : Session :=
  calls.foldl (fun s call => call.after s) s

theorem afterCalls_leads (s : Session) (calls : List SessionCall) :
    s.Leads (s.afterCalls calls) := by
  induction calls generalizing s with
  | nil => exact Std.Refl.refl s
  | cons call rest ih => exact IsTrans.trans s _ _ (call.after_leads s) (ih (call.after s))

end Session

/-- A new session refuses no program. Once a layout has run on it, wherever it stopped, the session
compiles nothing and lays nothing out any more, whatever else is called on it: both fail, and leave
the class table, the literal pool and the label counter as they are. -/
theorem sessions_used_once (options : Options) (before later : List SessionCall)
    (call : SessionCall) (ran : call.laysOut (Session.afterCalls { options } before))
    (p : Program) :
    Session.refused (Session.compile p { options }) = false ∧
    let s := Session.afterCalls { options } (before ++ call :: later)
    Session.compile p s = .error .sessionUsed s ∧
      CompileError.sessionUsed.message = "session already used" ∧
      Session.layout p s = .error (.definedTwice Builtin.objectName) s ∧
      (InternalError.definedTwice Builtin.objectName).message =
        "internal error: class Object defined twice" := by
  refine ⟨(Session.compile_unused p (Nat.not_lt_zero _)).1,?_⟩
  intro s
  have spent : s.Spent := by
    have split : s = ((call.after (Session.afterCalls { options } before)).afterCalls later) := by
      simp only [s,Session.afterCalls,List.foldl_append,List.foldl_cons]
    rw [split]
    exact (SessionCall.spent_of_laysOut ran).leads (Session.afterCalls_leads _ later)
  exact ⟨spent.compile_refused p,rfl,spent.layout_refused p,by decide +kernel⟩

/-- After a cycle of parents has stopped the first program, neither a new label nor a class that is
defined by hand makes the session take the second one. -/
theorem circling_spends :
    (SessionCall.compile circling).laysOut (Session.afterCalls {} [.constant (.int 5)]) ∧
    let s := Session.afterCalls {} ([.constant (.int 5)] ++
      .compile circling :: [.label "else",.table (.define "A" "Object")])
    Session.compile ascending s = .error .sessionUsed s ∧
      Session.layout ascending s = .error (.definedTwice Builtin.objectName) s := by
  have ran : (SessionCall.compile circling).laysOut
      (Session.afterCalls {} [.constant (.int 5)]) := by decide +kernel
  obtain ⟨-,compiled,-,laid,-⟩ := sessions_used_once {} [.constant (.int 5)]
    [.label "else",.table (.define "A" "Object")] (.compile circling) ran ascending
  exact ⟨ran,compiled,laid⟩

end CoolBackend
