import CoolBackend.Proofs.Decoding
import CoolBackend.Proofs.ImageText
import CoolBackend.Proofs.NodeNames
import CoolBackend.Proofs.Resolution
import CoolBackend.Proofs.VerifiedTables

/-!
A program that the verifier has no complaint about compiles, unless one of the names that it leaves
to the code generator has no class. That is the only way in which it can fail.
-/
namespace CoolBackend

open Verify

theorem prototypeWord_runs {table : ClassTable} {c : ClassEntry} {slot : AttributeSlot}
    (ready : table.Ready) (member : c ∈ table.toList) (inLayout : slot ∈ table.slots c)
    (s : Supply) : ∃ word t, prototypeWord table slot s = .ok word t := by
  rw [ready.slots_eq member] at inLayout
  obtain ⟨k,above,owner⟩ := LayoutKind.attributes_owner inLayout
  have found := ready.find?_name (ready.mem_of_mem_chain member k above)
  rw [← owner] at found
  have lookup : (ofExcept (table.require slot.className) : LowerM ClassEntry) s = .ok k s :=
    ofExcept_eq_ok.mpr ⟨ClassTable.require_eq_ok.mpr found,rfl⟩
  rw [prototypeWord,bind_run,lookup]
  simp only
  cases (k.attributes.find? (·.name = slot.name)).bind (·.raw) with
  | some word => exact ⟨word,s,rfl⟩
  | none =>
    simp only
    split
    next => exact ⟨_,_,rfl⟩
    next =>
      split
      next => exact ⟨_,_,rfl⟩
      next =>
        split
        next => exact ⟨_,_,rfl⟩
        next => exact ⟨_,_,rfl⟩

theorem prototypeOf_resolves {table : ClassTable} {c : ClassEntry} (ready : table.Ready)
    (member : c ∈ table.toList) :
    Resolves table (fun _ => False) (fun _ => True) (prototypeOf table c) := by
  have words : ∀ slot ∈ table.slots c, Resolves table (fun _ => False) (fun _ => True)
      (PrototypeSlot.word <$> prototypeWord table slot) := by
    intro slot inLayout
    apply Resolves.of_runs
    intro s
    obtain ⟨word,t,run⟩ := prototypeWord_runs ready member inLayout s
    exact ⟨.word word,t,map_eq_ok.mpr ⟨word,run,rfl⟩,trivial⟩
  rw [prototypeOf]
  split
  next => exact Resolves.of_runs fun s => ⟨_,_,rfl,trivial⟩
  next =>
    apply ((Resolves.mapM words).bind fun _ _ => .pure trivial).congr
    simp

def ClassEntry.Demands (c : ClassEntry) (T : String) : Prop :=
  (∃ a ∈ c.attributes, a.init.Demands T) ∨ ∃ r ∈ c.methodDecls, r.2.body.Demands T

structure ClassEntry.Settled (table : ClassTable) (c : ClassEntry) : Prop where
  inits : ∀ a ∈ c.attributes, a.init.Intact ∧
    Clean (checkExpr table.known a.init { className := c.name })
  bodies : ∀ r ∈ c.methodDecls, r.2.body.isAbsent = false ∧ r.2.body.Intact ∧
    Clean (checkExpr table.known r.2.body
      { className := c.name, formals := r.2.formals.map (·.name) })

section Routines

variable {table : ClassTable} {c : ClassEntry}

theorem surrounds_contextOf (member : c ∈ table.toList) (options : Options)
    (formals : List Binder) (planned : BindingSite → Option Nat) :
    Surrounds table (contextOf options table c formals planned)
      { className := c.name, formals := formals.map (·.name) } :=
  ⟨rfl,member,rfl,rfl,rfl⟩

/-- A class has slots for the attributes that it declares itself. -/
theorem own_attribute (ready : table.Ready) (member : c ∈ table.toList) {a : AttributeDecl}
    (own : a ∈ c.attributes) :
    ∃ place, Location.ofAttribute c.name (table.slots c) a.name = .ok place := by
  apply Location.ofAttribute_ok
  rw [ready.slots_eq member,LayoutKind.mem_attributes_plain]
  exact ⟨c,ready.mem_chain_self member,List.mem_map_of_mem own⟩

variable (ready : table.Ready) (named : ∀ c ∈ table.toList, c.name ≠ "") (options : Options)

include ready named

theorem initRoutine_resolves (member : c ∈ table.toList) (settled : c.Settled table) :
    Resolves table (fun T => ∃ a ∈ c.attributes, a.init.Demands T) (fun _ => True)
      (initRoutine options table c) := by
  let ctx := initContext id options table c
  have stores : ∀ x ∈ c.initialized.zipIdx, Resolves table x.1.init.Demands (fun _ => True)
      (attributeStore (ctx.part x.2) x.1) := by
    rintro ⟨a,k⟩ listed
    have here : c.initialized[k]? = some a := List.mk_mem_zipIdx_iff_getElem?.mp listed
    obtain ⟨own,present⟩ := List.mem_filter.mp (List.mem_of_getElem? here)
    obtain ⟨intact,clean⟩ := settled.inits a own
    obtain ⟨place,found⟩ := own_attribute ready member own
    have seen : (ctx.part (0 + k)).Sees a.init.plan :=
      (sees_initPlan c).of_getElem? (by rw [List.getElem?_map,here]; rfl)
    rw [Nat.zero_add] at seen
    have value := a.init.resolved ready named ⟨by simpa using present,intact⟩
      ((surrounds_contextOf member options [] _).part k) seen clean
    apply ((Resolves.ofExcept_ok found).bind fun _ _ => value.bind fun _ _ => .pure trivial).congr
    simp
  apply ((Resolves.mapM stores).bind fun _ _ => .pure trivial).congr
  intro T
  simp only [or_false]
  constructor
  · rintro ⟨⟨a,k⟩,listed,asked⟩
    have here : c.initialized[k]? = some a := List.mk_mem_zipIdx_iff_getElem?.mp listed
    exact ⟨a,List.mem_of_mem_filter (List.mem_of_getElem? here),asked⟩
  · rintro ⟨a,own,asked⟩
    have initialized : a ∈ c.initialized := List.mem_filter.mpr ⟨own,by simp [asked.present]⟩
    obtain ⟨k,here⟩ := List.mem_iff_getElem?.mp initialized
    exact ⟨(a,k),List.mk_mem_zipIdx_iff_getElem?.mpr here,asked⟩

theorem methodRoutine_resolves (member : c ∈ table.toList) (settled : c.Settled table)
    {r : ClassEntry × MethodDecl} (own : r ∈ c.methodDecls) :
    Resolves table r.2.body.Demands (fun _ => True)
      (methodRoutine options table r.1 r.2) := by
  obtain ⟨m,-,rfl⟩ := List.mem_map.mp own
  obtain ⟨present,intact,clean⟩ := settled.bodies _ own
  have body := m.body.resolved ready named ⟨present,intact⟩
    ((surrounds_contextOf member options m.formals _).part 0) (sees_methodPlan m) clean
  apply (body.bind fun _ _ => .pure trivial).congr
  simp

theorem assemble_resolves (settled : ∀ c ∈ table.toList, c.Settled table) :
    Resolves table (fun T => ∃ c ∈ table.toList, c.Demands T) (fun _ => True)
      (assemble options table) := by
  have tables : ∀ c ∈ table.toList, Resolves table (fun _ => False) (fun _ => True) (do
      let name ← LowerM.string (Bytes.ofText c.name)
      return (name,← prototypeOf table c,dispatchTableOf table c)) := by
    intro c member
    apply ((Resolves.string _).bind fun _ _ =>
      (prototypeOf_resolves ready member).bind fun _ _ => .pure trivial).congr
    simp
  have inits : ∀ c ∈ table.toList, Resolves table (fun T => ∃ a ∈ c.attributes, a.init.Demands T)
      (fun _ => True) (initRoutine options table c) := fun c member =>
    initRoutine_resolves ready named options member (settled c member)
  have methods : ∀ r ∈ table.toList.flatMap (·.methodDecls), Resolves table r.2.body.Demands
      (fun _ => True) (methodRoutine options table r.1 r.2) := by
    intro r among
    obtain ⟨c,member,own⟩ := List.mem_flatMap.mp among
    exact methodRoutine_resolves ready named options member (settled c member) own
  rw [assemble_eq]
  apply ((Resolves.mapM tables).bind fun _ _ => (Resolves.mapM inits).bind fun _ _ =>
    (Resolves.mapM methods).bind fun _ _ => Resolves.supply.bind fun _ _ => .pure trivial).congr
  intro T
  simp only [ClassEntry.Demands,List.mem_flatMap]
  grind

end Routines

theorem settled_of_verified {p : Program} {table : ClassTable} (verified : Verified p)
    (complete : p.Complete) (same : table.toList.map ClassEntry.bare = p.declared) :
    ∀ c ∈ table.toList, c.Settled table := by
  intro c member
  rcases entry_origin same member with ⟨inits,none⟩ | ⟨d,declared,made⟩
  · constructor
    · intro a own
      rw [inits a own]
      exact ⟨List.forall_mem_nil _,clean_nil⟩
    · rw [none]
      exact List.forall_mem_nil _
  · have features := verified.features d declared
    rw [checkClass,clean_append,← ClassTable.known_eq same] at features
    have inside {e : Expr} (here : e ∈ d.parts) : e.Complete :=
      complete.parts e (List.mem_flatMap.mpr ⟨d,declared,here⟩)
    constructor
    · rw [made.attributes,made.name]
      intro a own
      obtain ⟨given,among,rfl⟩ := List.mem_map.mp own
      exact ⟨fun part here => inside (ClassDecl.mem_parts.mpr (.inl ⟨given,among,here⟩)),
        clean_checkAttributes features.1 given among⟩
    · rw [made.methods,made.name]
      intro r own
      obtain ⟨m,among,rfl⟩ := List.mem_map.mp own
      obtain ⟨present,clean⟩ := clean_checkMethods features.2 m among
      exact ⟨present,fun part here => inside (ClassDecl.mem_parts.mpr (.inr ⟨m,among,here⟩)),clean⟩

theorem ClassEntry.Declares.demands_iff {c : ClassEntry} {d : ClassDecl} (made : c.Declares d)
    (T : String) : c.Demands T ↔ ∃ e ∈ d.parts, T ∈ e.demands := by
  rw [ClassEntry.Demands,made.attributes,made.methods]
  constructor
  · rintro (⟨a,own,part,inside,asked⟩ | ⟨r,own,part,inside,asked⟩)
    · obtain ⟨given,among,rfl⟩ := List.mem_map.mp own
      exact ⟨part,ClassDecl.mem_parts.mpr (.inl ⟨given,among,inside⟩),asked⟩
    · obtain ⟨m,among,rfl⟩ := List.mem_map.mp own
      exact ⟨part,ClassDecl.mem_parts.mpr (.inr ⟨m,among,inside⟩),asked⟩
  · rintro ⟨part,inside,asked⟩
    rcases ClassDecl.mem_parts.mp inside with ⟨given,among,inside⟩ | ⟨m,among,inside⟩
    · exact .inl ⟨_,List.mem_map_of_mem among,part,inside,asked⟩
    · exact .inr ⟨_,List.mem_map_of_mem among,part,inside,asked⟩

/-- The names that the code generator looks up in a program. -/
def Program.Demands (p : Program) (T : String) : Prop := ∃ e ∈ p.parts, T ∈ e.demands

theorem demands_table {p : Program} {table : ClassTable}
    (same : table.toList.map ClassEntry.bare = p.declared) (T : String) :
    (∃ c ∈ table.toList, c.Demands T) ↔ p.Demands T := by
  constructor
  · rintro ⟨c,member,asked⟩
    rcases entry_origin same member with ⟨inits,none⟩ | ⟨d,declared,made⟩
    · rcases asked with ⟨a,own,asked⟩ | ⟨r,own,asked⟩
      · rw [inits a own] at asked
        cases asked.present
      · rw [none] at own
        cases own
    · obtain ⟨e,inside,asked⟩ := (made.demands_iff T).mp asked
      exact ⟨e,List.mem_flatMap.mpr ⟨d,declared,inside⟩,asked⟩
  · rintro ⟨e,inside,asked⟩
    obtain ⟨d,declared,inside⟩ := List.mem_flatMap.mp inside
    obtain ⟨c,member,made⟩ := entry_of_decl same declared
    exact ⟨c,member,(made.demands_iff T).mpr ⟨e,inside,asked⟩⟩

/-- Every name that the verifier leaves to the code generator has a class: the types of `case`
branches, the classes of `new`, and the static types of explicit receivers. -/
structure Program.Closed (p : Program) : Prop where
  branches : ∀ info scrutinee branches, Expr.caseOf info scrutinee branches ∈ p.parts →
    ∀ b ∈ branches, p.HasClass b.1.type
  objects : ∀ info className, Expr.new info className ∈ p.parts →
    className = selfType ∨ p.HasClass className
  receivers : ∀ info receiver staticClass method args,
    Expr.dispatch info receiver staticClass method args ∈ p.parts → receiver.isAbsent = false →
    receiver.staticType = "" ∨ receiver.staticType = selfType ∨ p.HasClass receiver.staticType

theorem Program.closed_iff {p : Program} : p.Closed ↔ ∀ T, p.Demands T → p.HasClass T := by
  constructor
  · rintro closed T ⟨e,inside,asked⟩
    cases e with
    | caseOf info scrutinee branches =>
      obtain ⟨b,among,rfl⟩ := List.mem_map.mp asked
      exact closed.branches info scrutinee branches inside b among
    | new info className =>
      rw [Expr.demands] at asked
      split at asked
      next => cases asked
      next other =>
        cases List.mem_singleton.mp asked
        exact (closed.objects info _ inside).resolve_left other
    | dispatch info receiver staticClass method args =>
      rw [Expr.demands] at asked
      split at asked
      next => cases asked
      next known =>
        simp only [Bool.or_eq_true,decide_eq_true_eq,not_or] at known
        cases List.mem_singleton.mp asked
        rcases closed.receivers info receiver staticClass method args inside
          (by simpa using known.1.1) with empty | self | has
        · exact absurd empty known.1.2
        · exact absurd self known.2
        · exact has
    | _ => cases asked
  · intro all
    constructor
    · intro info scrutinee branches inside b among
      exact all _ ⟨_,inside,List.mem_map_of_mem among⟩
    · intro info className inside
      by_cases self : className = selfType
      · exact .inl self
      · exact .inr (all _ ⟨_,inside,by simp [Expr.demands,self]⟩)
    · intro info receiver staticClass method args inside present
      by_cases empty : receiver.staticType = ""
      · exact .inl empty
      · by_cases self : receiver.staticType = selfType
        · exact .inr (.inl self)
        · exact .inr (.inr (all _ ⟨_,inside,by simp [Expr.demands,present,empty,self]⟩))

/-- The name of every class of the program, and only such a name, is found in its table. -/
theorem ClassTable.find?_isSome_iff {table : ClassTable} {p : Program}
    (same : table.toList.map ClassEntry.bare = p.declared) (T : String) :
    (table.find? T).isSome ↔ p.HasClass T := by
  rw [← defines_known,known_eq same,Program.defines_iff]

/-- A decoded program about which the verifier has at most warnings compiles on a fresh session if
and only if it is closed. If it does not, then for want of a class that it asks for. -/
theorem verified_compiles_iff_closed {bytes : Bytes} {p : Program}
    (decoded : Program.decode bytes = .ok p) (named : ∀ c ∈ p.classes, c.name ≠ "")
    (clean : ∀ d ∈ diagnose p, "warning:".toList <+: d.message.toList) (options : Options) :
    ((∃ text s, Session.compile p { options } = .ok text s) ↔ p.Closed) ∧
    ∀ e s, Session.compile p { options } = .error e s →
      ∃ T, e = .internal (.noLayout T) ∧ e.message = "internal error: no layout for class " ++ T ∧
        p.Demands T ∧ ¬p.HasClass T := by
  have verified := verified_of_clean fun d member => isWarning_of_message member (clean d member)
  obtain ⟨table,work⟩ := verified.table_work named
  obtain ⟨s,layout,rfl,rfl⟩ := Session.layout_of_table options work
  obtain ⟨ready,same⟩ := Session.ready_of_layout layout
  have entries := ClassTable.named_of_known (ClassTable.known_eq same) named
  have settled := settled_of_verified verified (Program.complete_of_decode decoded) same
  have compiled := Session.compile_of_layout layout
  rw [Program.closed_iff]
  -- Layout and rendering always succeed, so the outcome is that of assembling.
  rcases assemble_resolves ready entries s.options settled s.supply with
    ⟨image,supply,run,-,there⟩ | ⟨T,supply,run,asked,missing⟩
  · obtain ⟨text,rendered⟩ := image.render_toFragment
    rw [run] at compiled
    simp only [rendered] at compiled
    refine ⟨⟨fun _ T asked => ?_,fun _ => ⟨text,_,compiled⟩⟩,fun e t failed => ?_⟩
    · rw [← ClassTable.find?_isSome_iff same]
      exact there T ((demands_table same T).mpr asked)
    · rw [compiled] at failed
      cases failed
  · rw [run] at compiled
    have asked : p.Demands T := (demands_table same T).mp asked
    have lacks : ¬p.HasClass T := by
      rw [← ClassTable.find?_isSome_iff same,missing]
      exact Bool.false_ne_true
    refine ⟨⟨?_,fun all => absurd (all T asked) lacks⟩,fun e t failed => ?_⟩
    · rintro ⟨text,t,succeeded⟩
      rw [compiled] at succeeded
      cases succeeded
    · rw [compiled] at failed
      cases failed
      exact ⟨T,rfl,rfl,asked,lacks⟩

/-- A program that asks for the class of an object. Its second branch is for the given type. -/
def asking (type : String) : Program where
  classes :=
    [ { name := "Base"
        methods := [{
          name := "id"
          formals := []
          returnType := "Base"
          body := .new {} "Base" }] },
      { name := "Main"
        methods := [{
          name := "main"
          formals := []
          returnType := "Object"
          body := .caseOf {} (.dispatch {} (.new { type := "Base" } "Base") "" "id" [])
            [({ name := "b", type := "Base" },.ident {} "b" .localVar),
              ({ name := "other", type },.ident {} "other" .localVar)] }] } ]

set_option maxRecDepth 4000 in
/-- With a branch that is never taken it is closed and has a warning. With a branch for the type of
the receiver it has none, and is not. -/
theorem asking_closed :
    (Program.decode (asking "Base").encode = .ok (asking "Base") ∧ diagnose (asking "Base") ≠ [] ∧
      (asking "Base").Closed) ∧
    Program.decode (asking selfType).encode = .ok (asking selfType) ∧
      diagnose (asking selfType) = [] ∧ ¬(asking selfType).Closed := by
  have decodes : Program.decode (asking "Base").encode = .ok (asking "Base") := rfl
  have decodesSelf : Program.decode (asking selfType).encode = .ok (asking selfType) := rfl
  have warned : ∀ d ∈ diagnose (asking "Base"), d.isWarning := by decide +kernel
  have silent : diagnose (asking selfType) = [] := by decide +kernel
  have compiles := verified_compiles_iff_closed decodes (by decide)
    (fun d member => message_of_isWarning (warned d member)) {}
  have fails := verified_compiles_iff_closed decodesSelf (by decide)
    (by rw [silent]; exact List.forall_mem_nil _) {}
  refine ⟨⟨decodes,by decide +kernel,?_⟩,decodesSelf,silent,?_⟩
  · exact compiles.1.mp (exists_of_succeeded (by decide +kernel))
  · intro closed
    obtain ⟨text,s,run⟩ := fails.1.mpr closed
    have failed : succeeded (Session.compile (asking selfType) {}) = false := by decide +kernel
    rw [run] at failed
    cases failed

end CoolBackend
