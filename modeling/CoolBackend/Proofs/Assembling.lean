import CoolBackend.Proofs.ImageLabels
import CoolBackend.Proofs.ImageListing
import CoolBackend.Proofs.NodeNames
import CoolBackend.Proofs.ProgramTables
import CoolBackend.Proofs.References

/-!
What assembling a program puts into its image. Laying the program out and making its tables request
constants only. Then the initializers and the bodies of the methods are lowered one after another,
so that a relation that lowering keeps holds along all of them.
-/
namespace CoolBackend

/-- A relation between the states around a list of steps, and the results of these steps, holds if
each step extends it at the front. -/
theorem mapM_induction {ε σ α β : Type} {f : α → EStateM ε σ β}
    {R : σ → List α → List β → σ → Prop} (nil : ∀ s, R s [] [] s)
    (cons : ∀ x y xs ys s u t, f x s = .ok y u → R u xs ys t → R s (x :: xs) (y :: ys) t)
    {xs : List α} {ys : List β} {s t : σ} (run : xs.mapM f s = .ok ys t) : R s xs ys t := by
  induction xs generalizing s ys with
  | nil =>
    rw [List.mapM_nil] at run
    cases run
    exact nil _
  | cons x xs ih =>
    rw [List.mapM_cons] at run
    obtain ⟨y,u,first,others⟩ := bind_eq_ok.mp run
    obtain ⟨_,_,rest,final⟩ := bind_eq_ok.mp others
    cases final
    exact cons x y xs _ s u _ first (ih rest)

/-- Each result was made from its element. -/
theorem forall₂_of_mapM {ε σ α β : Type} {f : α → EStateM ε σ β} {xs : List α} {ys : List β}
    {s t : σ} (run : xs.mapM f s = .ok ys t) :
    List.Forall₂ (fun x y => ∃ u v, f x u = .ok y v) xs ys :=
  mapM_induction (R := fun _ xs ys _ => List.Forall₂ (fun x y => ∃ u v, f x u = .ok y v) xs ys)
    (fun _ => .nil) (fun _ _ _ _ s u _ first rest => .cons ⟨s,u,first⟩ rest) run

/-- What a word of a prototype refers to. -/
def PrototypeSlot.Holds (classes : ClassTable) (pool : LiteralPool) : PrototypeSlot → Prop
  | word value => Known classes pool value ∨ value = "0"
  | emptyString length => Known classes pool length

theorem PrototypeSlot.Holds.later {classes : ClassTable} {pool later : LiteralPool}
    {slot : PrototypeSlot} (holds : slot.Holds classes pool) (grows : pool.Grows later) :
    slot.Holds classes later := by
  cases slot with
  | word value => exact holds.imp_left fun known => known.later grows
  | emptyString length => exact Known.later holds grows

def ClassTable.RawZero (classes : ClassTable) : Prop :=
  ∀ c ∈ classes.toList, ∀ a ∈ c.attributes, ∀ word ∈ a.raw, word = "0"

section Tables

variable {classes : ClassTable} {s t : Supply}

theorem prototypeWord_holds (raw : classes.RawZero) {slot : AttributeSlot} {value : String}
    (run : prototypeWord classes slot s = .ok value t) :
    s.Requests t ∧ (PrototypeSlot.word value).Holds classes t.literals := by
  rw [prototypeWord] at run
  obtain ⟨owner,_,required,chosen⟩ := bind_eq_ok.mp run
  obtain ⟨found,rfl⟩ := ofExcept_eq_ok.mp required
  obtain ⟨member,-⟩ := ClassTable.mem_of_find? (ClassTable.require_eq_ok.mp found)
  cases given : (owner.attributes.find? (·.name = slot.name)).bind (·.raw) with
  | some word =>
    obtain ⟨a,among,has⟩ := Option.bind_eq_some_iff.mp given
    simp only [given] at chosen
    cases chosen
    exact ⟨.refl _,.inr (raw owner member a (List.mem_of_find?_eq_some among) _ has)⟩
  | none =>
    simp only [given] at chosen
    split at chosen
    · exact (int_drawn chosen).imp_right fun known => .inl (.constant known)
    · split at chosen
      · cases chosen
        exact ⟨.refl _,.inl (.bool (by decide))⟩
      · split at chosen
        · exact (string_drawn chosen).imp_right fun known => .inl (.constant known)
        · cases chosen
          exact ⟨.refl _,.inr rfl⟩

theorem prototypeOf_holds (raw : classes.RawZero) {c : ClassEntry} {p : Prototype}
    (run : prototypeOf classes c s = .ok p t) :
    s.Requests t ∧ p.className = c.name ∧ ∀ slot ∈ p.slots, slot.Holds classes t.literals := by
  rw [prototypeOf] at run
  split at run
  · obtain ⟨slots,_,made,final⟩ := bind_eq_ok.mp run
    obtain ⟨length,drawn,rfl⟩ := map_eq_ok.mp made
    obtain ⟨requests,member⟩ := int_drawn drawn
    cases final
    exact ⟨requests,rfl,List.forall_mem_singleton.mpr (.constant member)⟩
  · obtain ⟨slots,_,made,final⟩ := bind_eq_ok.mp run
    cases final
    have holds : s.Requests t ∧ ∀ slot ∈ slots, slot.Holds classes t.literals := by
      refine mapM_induction (R := fun s _ slots t =>
        s.Requests t ∧ ∀ slot ∈ slots, slot.Holds classes t.literals) ?_ ?_ made
      · exact fun s => ⟨.refl s,List.forall_mem_nil _⟩
      · intro _ _ _ rest s u t first ih
        obtain ⟨value,drawn,rfl⟩ := map_eq_ok.mp first
        obtain ⟨requests,holds⟩ := prototypeWord_holds raw drawn
        exact ⟨requests.trans ih.1,List.forall_mem_cons.mpr ⟨holds.later ih.1.grows,ih.2⟩⟩
    exact ⟨holds.1,rfl,holds.2⟩

end Tables

structure Assembled (options : Options) (classes : ClassTable) (s : Supply) (image : Image)
    (t : Supply) : Prop where
  options : image.options = options
  literals : image.literals = t.literals.entries
  names : ∀ label ∈ image.classNames, label ∈ t.literals.labels
  prototypes : image.prototypes.map (·.className) = classes.toList.map (·.name)
  slots : ∀ p ∈ image.prototypes, ∀ slot ∈ p.slots, slot.Holds classes t.literals
  tables : image.dispatchTables = classes.toList.map (dispatchTableOf classes)
  inits : image.inits.map (·.className) = classes.toList.map (·.name)
  parents : ∀ r ∈ image.inits, ∀ parent ∈ r.parent, ∃ c ∈ classes.toList, c.name = parent
  methods : image.methods.map (fun r => (r.className,r.method)) =
    (classes.toList.flatMap (·.methodDecls)).map fun (c,m) => (c.name,m.name)
  codes : ∃ u, s.Requests u ∧ ∀ P, LoweringInvariant classes P → Chain P u image.codes t

/-- The first phase of assembling: constants for the class names, prototypes and dispatch tables. -/
structure Tabulated (classes : ClassTable) (s : Supply) (cs : List ClassEntry)
    (rows : List (String × Prototype × DispatchTable)) (t : Supply) : Prop where
  requests : s.Requests t
  names : ∀ row ∈ rows, row.1 ∈ t.literals.labels
  prototypes : rows.map (·.2.1.className) = cs.map (·.name)
  slots : ∀ row ∈ rows, ∀ slot ∈ row.2.1.slots, slot.Holds classes t.literals
  tables : rows.map (·.2.2) = cs.map (dispatchTableOf classes)

theorem Tabulated.cons {classes : ClassTable} (raw : classes.RawZero) {c : ClassEntry}
    {cs : List ClassEntry} {row : String × Prototype × DispatchTable}
    {rows : List (String × Prototype × DispatchTable)} {s u t : Supply}
    (run : (do
      let name ← LowerM.string (Bytes.ofText c.name)
      return (name,← prototypeOf classes c,dispatchTableOf classes c) : LowerM _) s = .ok row u)
    (rest : Tabulated classes u cs rows t) : Tabulated classes s (c :: cs) (row :: rows) t := by
  obtain ⟨name,v,drawn,others⟩ := bind_eq_ok.mp run
  obtain ⟨p,_,made,final⟩ := bind_eq_ok.mp others
  cases final
  obtain ⟨named,member⟩ := string_drawn drawn
  obtain ⟨requests,owner,holds⟩ := prototypeOf_holds raw made
  have grows := rest.requests.grows
  exact {
    requests := (named.trans requests).trans rest.requests
    names := List.forall_mem_cons.mpr ⟨(requests.grows.trans grows).labels member,rest.names⟩
    prototypes := by simp [owner,rest.prototypes]
    slots := List.forall_mem_cons.mpr
      ⟨fun slot inside => (holds slot inside).later grows,rest.slots⟩
    tables := by simp [rest.tables] }

/-- The name of a parent belongs to a class. -/
theorem ClassTable.of_parentNameOf? {classes : ClassTable} {c : ClassEntry} {parent : String}
    (named : classes.parentNameOf? c = some parent) :
    ∃ d ∈ classes.toList, d.name = parent := by
  obtain ⟨d,linked,rfl⟩ := Option.map_eq_some_iff.mp named
  obtain ⟨tag,-,at_tag⟩ := Option.bind_eq_some_iff.mp linked
  exact ⟨d,mem_toList.mpr ⟨tag,at_tag⟩,rfl⟩

/-- The codes of the attributes of a class are lowered one after another. -/
theorem initRoutine_run {options : Options} {classes : ClassTable} {c : ClassEntry}
    {r : InitRoutine} {s t : Supply} (run : initRoutine options classes c s = .ok r t) :
    r.className = c.name ∧ r.parent = classes.parentNameOf? c ∧
      ∀ P, LoweringInvariant classes P → Chain P s r.codes t := by
  rw [initRoutine,initRoutineIn] at run
  obtain ⟨stores,_,made,final⟩ := bind_eq_ok.mp run
  cases final
  refine ⟨rfl,rfl,fun P rules => ?_⟩
  refine mapM_induction (R := fun s _ stores t => Chain P s (stores.map AttributeStore.value) t)
    .nil ?_ made
  intro a store _ rest s u t first others
  rw [attributeStore] at first
  obtain ⟨_,_,placed,lowered⟩ := bind_eq_ok.mp first
  obtain ⟨-,rfl⟩ := ofExcept_eq_ok.mp placed
  obtain ⟨value,_,made,final⟩ := bind_eq_ok.mp lowered
  cases final
  exact .cons (rules.lowered _ made rfl) others

theorem methodRoutine_run {options : Options} {classes : ClassTable} {c : ClassEntry}
    {m : MethodDecl} {r : MethodRoutine} {s t : Supply}
    (run : methodRoutine options classes c m s = .ok r t) :
    r.className = c.name ∧ r.method = m.name ∧ ∀ P, LoweringInvariant classes P → P s r.body t := by
  rw [methodRoutine,methodRoutineIn] at run
  obtain ⟨body,_,made,final⟩ := bind_eq_ok.mp run
  cases final
  exact ⟨rfl,rfl,fun P rules => rules.lowered _ made rfl⟩

theorem initRoutines_run {options : Options} {classes : ClassTable} {cs : List ClassEntry}
    {rs : List InitRoutine} {s t : Supply}
    (run : cs.mapM (initRoutine options classes) s = .ok rs t) :
    rs.map (·.className) = cs.map (·.name) ∧
      (∀ r ∈ rs, ∀ parent ∈ r.parent, ∃ c ∈ classes.toList, c.name = parent) ∧
      ∀ P, LoweringInvariant classes P → Chain P s (rs.flatMap InitRoutine.codes) t := by
  refine mapM_induction (R := fun s cs rs t => rs.map (·.className) = cs.map (·.name) ∧
    (∀ r ∈ rs, ∀ parent ∈ r.parent, ∃ c ∈ classes.toList, c.name = parent) ∧
    ∀ P, LoweringInvariant classes P → Chain P s (rs.flatMap InitRoutine.codes) t) ?_ ?_ run
  · exact fun s => ⟨rfl,List.forall_mem_nil _,fun _ _ => .nil s⟩
  · intro c r cs rs s u t first ⟨names,parents,chains⟩
    obtain ⟨name,parent,chain⟩ := initRoutine_run first
    refine ⟨by simp [name,names],List.forall_mem_cons.mpr ⟨?_,parents⟩,fun P rules => ?_⟩
    · intro above given
      rw [parent] at given
      exact ClassTable.of_parentNameOf? given
    · rw [List.flatMap_cons]
      exact (chain P rules).append (chains P rules)

theorem methodRoutines_run {options : Options} {classes : ClassTable}
    {ms : List (ClassEntry × MethodDecl)} {rs : List MethodRoutine} {s t : Supply}
    (run : (ms.mapM fun (c,m) => methodRoutine options classes c m) s = .ok rs t) :
    rs.map (fun r => (r.className,r.method)) = ms.map (fun (c,m) => (c.name,m.name)) ∧
      ∀ P, LoweringInvariant classes P → Chain P s (rs.map (·.body)) t := by
  refine mapM_induction (R := fun s ms rs t =>
    rs.map (fun r => (r.className,r.method)) = ms.map (fun (c,m) => (c.name,m.name)) ∧
    ∀ P, LoweringInvariant classes P → Chain P s (rs.map (·.body)) t) ?_ ?_ run
  · exact fun s => ⟨rfl,fun _ _ => .nil s⟩
  · intro m r ms rs s u t first ⟨names,chains⟩
    obtain ⟨name,method,body⟩ := methodRoutine_run first
    exact ⟨by simp [name,method,names],fun P rules => .cons (body P rules) (chains P rules)⟩

theorem assembled_of_run {options : Options} {classes : ClassTable} (raw : classes.RawZero)
    {s t : Supply} {image : Image} (run : assemble options classes s = .ok image t) :
    Assembled options classes s image t := by
  rw [assemble_eq,assembleWith] at run
  obtain ⟨rows,u,tabulated,others⟩ := bind_eq_ok.mp run
  obtain ⟨inits,v,initialized,others⟩ := bind_eq_ok.mp others
  obtain ⟨methods,_,implemented,others⟩ := bind_eq_ok.mp others
  obtain ⟨_,_,same,final⟩ := bind_eq_ok.mp others
  cases same
  cases final
  have tables : Tabulated classes s classes.toList rows u :=
    mapM_induction (fun s => ⟨.refl s,by simp,rfl,by simp,rfl⟩)
      (fun _ _ _ _ _ _ _ first rest => Tabulated.cons raw first rest) tabulated
  obtain ⟨names,parents,stores⟩ := initRoutines_run initialized
  obtain ⟨labels,bodies⟩ := methodRoutines_run implemented
  have chains (P : Supply → Code → Supply → Prop) (rules : LoweringInvariant classes P) :=
    (stores P rules).append (bodies P rules)
  -- What the tables refer to was requested before any code, and the pool has only grown since.
  have grows := (Links.chain (chains _ (links classes))).1
  exact {
    options := rfl
    literals := rfl
    names := List.forall_mem_map.mpr fun row member => grows.labels (tables.names row member)
    prototypes := by rw [← tables.prototypes,List.map_map]; rfl
    slots := List.forall_mem_map.mpr fun row member slot inside =>
      (tables.slots row member slot inside).later grows
    tables := tables.tables
    inits := names
    parents := parents
    methods := labels
    codes := ⟨u,tables.requests,chains⟩ }

/-- The label of a method. -/
def methodLabel (m : ClassEntry × MethodDecl) : String := m.1.name ++ "." ++ m.2.name

def labelFamilies (classes : ClassTable) (pool : LiteralPool) : List (List String) :=
  let names := classes.toList.map (·.name)
  [fixedLabels,pool.labels,Literal.bools.map Literal.label,names.map (· ++ "_protObj"),
    names.map (· ++ "_dispTab"),names.map (· ++ "_init"),
    (classes.toList.flatMap (·.methodDecls)).map methodLabel]

namespace Assembled

variable {options : Options} {classes : ClassTable} {s t : Supply} {image : Image}
  (assembled : Assembled options classes s image t)

include assembled

theorem labels_perm : (Assembly.labelsIn image.lines).Perm
    ((labelFamilies classes t.literals).flatten ++ image.drawnLabels) := by
  have methods : (image.methods.map fun r => r.className ++ "." ++ r.method) =
      (classes.toList.flatMap (·.methodDecls)).map methodLabel := by
    have names := congrArg (List.map fun n : String × String => n.1 ++ "." ++ n.2)
      assembled.methods
    rwa [List.map_map,List.map_map] at names
  have tables : image.dispatchTables.map (·.className) = classes.toList.map (·.name) := by
    rw [assembled.tables,List.map_map]
    rfl
  have part {α : Type} {xs : List α} {owner : α → String} (suffix : String)
      (names : xs.map owner = classes.toList.map (·.name)) :
      xs.map (owner · ++ suffix) = (classes.toList.map (·.name)).map (· ++ suffix) := by
    rw [← names,List.map_map]
    rfl
  have families : image.namedLabels = labelFamilies classes t.literals := by
    rw [Image.namedLabels,part _ assembled.prototypes,part _ tables,part _ assembled.inits,methods,
      assembled.literals]
    rfl
  rw [← families]
  exact image.labelsIn_perm

theorem grows : s.literals.Grows t.literals := by
  obtain ⟨u,requests,chains⟩ := assembled.codes
  exact requests.grows.trans (Links.chain (chains _ (links classes))).1

theorem sound (sound : s.literals.Sound) : t.literals.Sound := assembled.grows.sound sound

/-- The labels of the code are drawn between the layout and the end. -/
theorem drawn : Numbers s.labels t.labels image.drawnLabels := by
  obtain ⟨u,requests,chains⟩ := assembled.codes
  have numbers := OwnLabels.linesOf (chains _ (ownLabels classes))
  rwa [requests.counter] at numbers

end Assembled

/-- Only built-in attributes have a machine word of their own. -/
theorem builtin_of_raw {p : Program} {table : ClassTable}
    (same : table.toList.map ClassEntry.bare = p.declared) {c : ClassEntry}
    (member : c ∈ table.toList) {a : AttributeDecl} (own : a ∈ c.attributes) {word : String}
    (given : word ∈ a.raw) : ∃ b ∈ Builtin.all, a ∈ b.attributes := by
  rcases entry_source same member with ⟨b,among,tag,made⟩ | ⟨d,-,tag,made⟩
  · have attributes : c.attributes = b.attributes := congrArg (·.attributes) made
    exact ⟨b,among,attributes ▸ own⟩
  · have attributes : c.attributes = (ClassEntry.ofDecl d tag).attributes :=
      congrArg (·.attributes) made
    rw [attributes] at own
    obtain ⟨_,-,rfl⟩ := List.mem_map.mp own
    cases given

theorem rawZero_of_declared {p : Program} {table : ClassTable}
    (same : table.toList.map ClassEntry.bare = p.declared) : table.RawZero := by
  intro c member a own word given
  have all : ∀ b ∈ Builtin.all, ∀ a ∈ b.attributes, ∀ word ∈ a.raw, word = "0" := by decide
  obtain ⟨b,among,builtin⟩ := builtin_of_raw same member own given
  exact all b among a builtin word given

namespace Session

theorem onSupply_eq_ok {α : Type} {work : LowerM α} {s t : Session} {a : α}
    (run : onSupply work s = .ok a t) :
    ∃ supply, work s.supply = .ok a supply ∧ t = { s with supply } := by
  rw [onSupply] at run
  split at run
  next made =>
    cases run
    exact ⟨_,made,rfl⟩
  next => cases run

theorem onClasses_supply {α : Type} {work : TableM α} {s t : Session} {a : α}
    (run : onClasses work s = .ok a t) : t.supply = s.supply := by
  rw [onClasses] at run
  split at run
  next =>
    cases run
    rfl
  next => cases run

theorem nameClasses_requests {cs : List ClassEntry} {s t : Supply}
    (run : nameClasses cs s = .ok () t) : s.Requests t := by
  induction cs generalizing s with
  | nil =>
    cases run
    exact .refl _
  | cons c rest ih =>
    obtain ⟨_,u,first,others⟩ := bind_eq_ok.mp run
    cases first
    exact (Supply.Requests.string s _).trans (ih others)

/-- A layout requests two constants, and then only those of the names of the classes. -/
theorem layout_requests_names {p : Program} {options : Options} {s : Session}
    (run : layout p { options } = .ok () s) :
    ((({} : Supply).int 0).2.string []).2.Requests s.supply := by
  rw [layout] at run
  obtain ⟨_,_,zero,others⟩ := bind_eq_ok.mp run
  obtain ⟨_,u,empty,others⟩ := bind_eq_ok.mp others
  obtain ⟨_,v,table,others⟩ := bind_eq_ok.mp others
  obtain ⟨_,_,same,named⟩ := bind_eq_ok.mp others
  cases zero
  cases empty
  cases same
  obtain ⟨supply,names,rfl⟩ := onSupply_eq_ok named
  have later := nameClasses_requests names
  rw [onClasses_supply table] at later
  exact later

/-- Laying a program out draws no label from the counter. -/
theorem layout_requests {p : Program} {options : Options} {s : Session}
    (run : layout p { options } = .ok () s) : ({} : Supply).Requests s.supply :=
  ((Supply.Requests.int {} 0).trans (.string _ [])).trans (layout_requests_names run)

theorem sound_of_layout {p : Program} {options : Options} {s : Session}
    (run : layout p { options } = .ok () s) : s.supply.literals.Sound :=
  (layout_requests run).grows.sound LiteralPool.sound_empty

theorem rendered_ok (image : Image) (t : Supply) :
    rendered (.ok image t) = .ok (Assembly.joined image.lines) := by
  rw [rendered,image.render_lines]
  rfl

/-- A program that compiles was laid out and assembled, and its text is that of the image. -/
theorem assemble_of_compile {p : Program} {options : Options} {text : String} {s : Session}
    (run : compile p { options } = .ok text s) :
    ∃ laid image, layout p { options } = .ok () laid ∧
      assemble options laid.classes laid.supply = .ok image s.supply ∧
      text = Assembly.joined image.lines := by
  cases layout : layout p { options } with
  | error e t =>
    rw [compile_of_failed_layout layout] at run
    cases run
  | ok _ laid =>
    obtain ⟨-,options⟩ := table_of_layout layout
    rw [compile_of_layout layout,options] at run
    cases assembled : assemble _ laid.classes laid.supply with
    | error e supply =>
      rw [assembled] at run
      cases run
    | ok image supply =>
      simp only [assembled,image.render_lines] at run
      cases run
      exact ⟨laid,image,rfl,assembled,rfl⟩

theorem compile_eq_ok {p : Program} {options : Options} {text : String} {s : Session}
    (run : compile p { options } = .ok text s) :
    ∃ laid image, layout p { options } = .ok () laid ∧
      Assembled options laid.classes laid.supply image s.supply ∧
      text = Assembly.joined image.lines := by
  obtain ⟨laid,image,layout,assembled,rfl⟩ := assemble_of_compile run
  obtain ⟨-,same⟩ := ready_of_layout layout
  exact ⟨laid,image,layout,assembled_of_run (rawZero_of_declared same) assembled,rfl⟩

end Session

end CoolBackend
