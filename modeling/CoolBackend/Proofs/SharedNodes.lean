import CoolBackend.Proofs.Assembling
import CoolBackend.Proofs.Enrollment
import CoolBackend.Proofs.PlannedLowering
import CoolBackend.Wire

/-!
Programs in which one node can stand at several places. They are written as the trees that they
unfold to. Sharing shows in two ways only: a binding has one depth in a frame, wherever it stands,
and the features of a class are looked at as often as it is listed.
-/
namespace CoolBackend

def ClassDecl.initializers (d : ClassDecl) : List Expr :=
  (d.attributes.filter (!·.2.isAbsent)).map (·.2)

def ClassDecl.frames (d : ClassDecl) : List (FrameOwner × List Expr) :=
  (.initializers d.name,d.initializers) ::
    d.methods.zipIdx.map fun x => (.method d.name x.2,[x.1.body])

def Program.frames (p : Program) : List (FrameOwner × List Expr) := p.classes.flatMap (·.frames)

def Program.binder? (p : Program) (place : FrameOwner × BindingSite) : Option (Binder × Expr) := do
  let e ← exprAt? (← p.frames.lookup place.1) place.2.place
  e.bindings[place.2.index]?

/-- A program and the names of its nodes. A node has one content, wherever it stands. -/
structure SharedProgram where
  program : Program
  nodes : NodeNames
  classes_agree : ∀ i j, nodes.classAt i = nodes.classAt j →
    program.classes[i]? = program.classes[j]?
  binders_agree : ∀ x y : FrameOwner × BindingSite,
    nodes.binderAt x.1 x.2 = nodes.binderAt y.1 y.2 → program.binder? x = program.binder? y

theorem eq_of_merged {α β : Type} [DecidableEq α] {f : α → β} {a b x y : α} (same : f a = f b)
    (merged : (if x = a then b else x) = if y = a then b else y) : f x = f y := by
  by_cases here : x = a <;> by_cases there : y = a <;> simp_all

namespace SharedProgram

def rebind (p : Program) (place origin : FrameOwner × BindingSite)
    (same : p.binder? place = p.binder? origin) : SharedProgram where
  program := p
  nodes :=
    { NodeNames.tree with
      binderAt := fun owner site => if (owner,site) = place then origin else (owner,site) }
  classes_agree := fun _ _ merged => congrArg (p.classes[·]?) merged
  binders_agree := fun _ _ merged => eq_of_merged same merged

def relist (p : Program) (place origin : Nat) (same : p.classes[place]? = p.classes[origin]?) :
    SharedProgram where
  program := p
  nodes := { NodeNames.tree with classAt := fun i => if i = place then origin else i }
  classes_agree := fun _ _ merged => eq_of_merged (f := (p.classes[·]?)) same merged
  binders_agree := fun _ _ merged => congrArg p.binder? merged

variable (p : SharedProgram)

def encode : Bytes := p.program.encode

def output (options : Options) : Except String String :=
  Session.outputIn p.nodes p.program options

def diagnose : List Verify.Diagnostic := Verify.diagnoseIn p.nodes p.program

/-- In every frame, places of one binding are planned at one depth. -/
def Steady : Prop :=
  ∀ frame ∈ p.program.frames, (planAll 0 frame.2).Steady (p.nodes.binderAt frame.1)

def ListsOnce : Prop :=
  ∀ i < p.program.classes.length, ∀ j < p.program.classes.length,
    p.nodes.classAt i = p.nodes.classAt j → i = j

instance : Decidable p.Steady :=
  inferInstanceAs (Decidable (∀ frame ∈ p.program.frames,
    (planAll 0 frame.2).Steady (p.nodes.binderAt frame.1)))

instance : Decidable p.ListsOnce :=
  inferInstanceAs (Decidable (∀ i < p.program.classes.length, ∀ j < p.program.classes.length,
    p.nodes.classAt i = p.nodes.classAt j → i = j))

end SharedProgram

section Frames

theorem ClassEntry.Declares.initPlan_eq {c : ClassEntry} {d : ClassDecl} (made : c.Declares d) :
    initPlan c = planAll 0 d.initializers := by
  simp only [initPlan,ClassEntry.initialized,made.attributes,ClassDecl.initializers,List.filter_map,
    List.map_map,Function.comp_def]

/-- The frames of a table are those of its program. -/
theorem SharedProgram.Steady.table {p : SharedProgram} (steady : p.Steady) {options : Options}
    {s : Session} (run : Session.layout p.program { options } = .ok () s) :
    s.classes.Steady p.nodes := by
  obtain ⟨-,same⟩ := Session.ready_of_layout run
  intro c member
  rcases entry_origin same member with ⟨inits,none⟩ | ⟨d,listed,made⟩
  · have empty : c.initialized = [] :=
      List.filter_eq_nil_iff.mpr fun a own => by simp [inits a own,Expr.isAbsent]
    rw [initPlan,empty,none]
    exact ⟨List.forall_mem_nil _,List.forall_mem_nil _⟩
  · have own (frame) (inside : frame ∈ d.frames) :=
      steady frame (List.mem_flatMap.mpr ⟨d,listed,inside⟩)
    rw [made.name,made.initPlan_eq]
    refine ⟨own _ (.head _),?_⟩
    rintro ⟨⟨_,m⟩,i⟩ inside
    have here : d.methods[i]? = some m := by
      have at_i := List.mk_mem_zipIdx_iff_getElem?.mp inside
      rw [made.methods,List.getElem?_map] at at_i
      obtain ⟨m',found,same⟩ := Option.map_eq_some_iff.mp at_i
      rw [found,(Prod.mk.inj same).2]
    refine own (.method d.name i,[m.body]) (.tail _ (List.mem_map.mpr ⟨(m,i),?_,rfl⟩))
    exact List.mk_mem_zipIdx_iff_getElem?.mpr here

end Frames

section Outputs

theorem Session.rendered_along {sound : Prop} {r other : EStateM.Result InternalError Supply Image}
    (alike : Alike SameFault (EqualIf sound) r other) :
    (∀ message, rendered other = .error message ↔ rendered r = .error message) ∧
      (sound → rendered other = rendered r) := by
  cases r with
  | ok image s =>
    cases other with
    | error => exact alike.elim
    | ok image' t =>
      refine ⟨fun message => ?_,fun holds => ?_⟩
      · rw [rendered_ok,rendered_ok]
        exact ⟨nofun,nofun⟩
      · rw [rendered_ok,rendered_ok,alike.1 holds]
  | error e s =>
    cases other with
    | ok => exact alike.elim
    | error f t =>
      obtain ⟨⟨rfl,-⟩,-⟩ := alike
      exact ⟨fun _ => Iff.rfl,fun _ => rfl⟩

/-- A shared program fails where its tree fails, with the same message, and gives the text of the
tree if it is steady. -/
theorem SharedProgram.output_tree (p : SharedProgram) (options : Options) :
    (∀ message, Session.output p.program options = .error message ↔
      p.output options = .error message) ∧
    (p.Steady → Session.output p.program options = p.output options) := by
  cases run : Session.layout p.program { options } with
  | error e s =>
    rw [output,Session.output_of_failure run,Session.outputIn_of_failure _ run]
    exact ⟨fun _ => Iff.rfl,fun _ => rfl⟩
  | ok u s =>
    rw [output,Session.output_of_layout run,Session.outputIn_of_layout _ run]
    obtain ⟨errors,texts⟩ :=
      Session.rendered_along (assembleIn_along s.options s.classes p.nodes s.supply)
    exact ⟨errors,fun steady => texts (steady.table run)⟩

end Outputs

namespace Verify

variable {classAt : Nat → Nat} {classes : List ClassDecl}

theorem mem_analyzed {c : ClassDecl} : c ∈ analyzed classAt classes ↔
    ∃ i k, classes[i]? = some c ∧ knownAt? classes c.name = some k ∧ classAt k = classAt i := by
  simp only [analyzed,List.mem_map,List.mem_filter,Option.any_eq_true,decide_eq_true_eq]
  constructor
  · rintro ⟨⟨_,i⟩,⟨listed,k,known,same⟩,rfl⟩
    exact ⟨i,k,List.mk_mem_zipIdx_iff_getElem?.mp listed,known,same⟩
  · rintro ⟨i,k,here,known,same⟩
    exact ⟨(c,i),⟨List.mk_mem_zipIdx_iff_getElem?.mpr here,k,known,same⟩,rfl⟩

/-- However often classes are listed, the same ones are looked into. -/
theorem mem_analyzed_iff
    (agree : ∀ i j, classAt i = classAt j → classes[i]? = classes[j]?) {c : ClassDecl} :
    c ∈ analyzed classAt classes ↔ c ∈ analyzed id classes := by
  rw [mem_analyzed,mem_analyzed]
  constructor
  · rintro ⟨i,k,here,known,same⟩
    exact ⟨k,k,(agree k i same).trans here,known,rfl⟩
  · rintro ⟨i,k,here,known,same⟩
    exact ⟨i,k,here,known,congrArg classAt same⟩

theorem analyzed_of_once
    (once : ∀ i < classes.length, ∀ j < classes.length, classAt i = classAt j → i = j) :
    analyzed classAt classes = analyzed id classes := by
  refine congrArg (List.map Prod.fst) (List.filter_congr ?_)
  rintro ⟨c,i⟩ listed
  have bound := (List.getElem?_eq_some_iff.mp (List.mk_mem_zipIdx_iff_getElem?.mp listed)).1
  simp only
  cases known : knownAt? classes c.name with
  | none => rfl
  | some k =>
    have inside : k < classes.length := by
      unfold knownAt? at known
      split at known
      next => cases known
      next => exact (List.findIdx?_eq_some_iff_getElem.mp known).1
    have same : classAt k = classAt i ↔ k = i := ⟨once k inside i bound,congrArg classAt⟩
    simp [same]

end Verify

/-- Of a shared program the verifier says what it says of its tree, and says it as often if no class
is listed twice. -/
theorem SharedProgram.diagnose_tree (p : SharedProgram) :
    (∀ d, d ∈ Verify.diagnose p.program ↔ d ∈ p.diagnose) ∧
      (p.ListsOnce → Verify.diagnose p.program = p.diagnose) := by
  constructor
  · intro d
    simp only [diagnose,Verify.diagnose,Verify.diagnoseIn]
    cases (Verify.checkHierarchy _ _).2 with
    | false => rfl
    | true =>
      simp only [if_true,List.mem_append,List.mem_flatMap,Verify.mem_analyzed_iff p.classes_agree]
      rfl
  · intro once
    rw [diagnose,Verify.diagnose,Verify.diagnoseIn,Verify.diagnoseIn,Verify.analyzed_of_once once]
    rfl

end CoolBackend
