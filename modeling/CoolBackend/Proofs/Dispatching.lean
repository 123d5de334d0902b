import CoolBackend.Proofs.Lowerings
import CoolBackend.Proofs.ProgramTables
import CoolBackend.Proofs.Rendering

/-!
A call takes its slot from the table of the class that it is looked up in, and its target from the
table of the class of the receiver. Slots keep their method down the hierarchy, and the entry of a
slot is the implementation of the nearest class that declares the method.
-/
namespace CoolBackend

def ClassTable.nearest? (table : ClassTable) (c : ClassEntry) (method : String) :
    Option ClassEntry :=
  (table.chain c).find? (·.methods.contains method)

namespace ClassEntry

theorem getElem?_extendDispatch_inherited {c : ClassEntry} {inherited : List DispatchEntry}
    {i : Nat} {e : DispatchEntry} (at_i : inherited[i]? = some e) :
    (c.extendDispatch inherited)[i]? =
      some (if c.methods.contains e.method then { e with className := c.name } else e) := by
  have bound : i < inherited.length := (List.getElem?_eq_some_iff.mp at_i).1
  simp only [extendDispatch]
  rw [List.getElem?_append_left (by simpa using bound),List.getElem?_map,at_i]
  rfl

theorem getElem?_extendDispatch_new {c : ClassEntry} {inherited : List DispatchEntry}
    {i : Nat} {e : DispatchEntry} (beyond : inherited.length ≤ i)
    (at_i : (c.extendDispatch inherited)[i]? = some e) :
    e.slot = i ∧ e.className = c.name ∧ e.method ∈ c.methods := by
  simp only [extendDispatch] at at_i
  rw [List.getElem?_append_right (by simpa using beyond),List.getElem?_mapIdx,
    Option.map_eq_some_iff] at at_i
  obtain ⟨m,at_m,rfl⟩ := at_i
  rw [List.length_map] at at_m ⊢
  refine ⟨?_,rfl,(List.mem_filter.mp (List.mem_of_getElem? at_m)).1⟩
  change inherited.length + (i - inherited.length) = i
  omega

end ClassEntry

namespace LayoutKind

/-- An entry stands at its slot, and belongs to the first class that declares its method. -/
theorem dispatch_entry {chain : List ClassEntry} {i : Nat} {e : DispatchEntry}
    (at_i : (dispatch.plain chain)[i]? = some e) :
    e.slot = i ∧
      ∃ k, chain.find? (·.methods.contains e.method) = some k ∧ e.className = k.name := by
  induction chain generalizing e with
  | nil => simp [plain] at at_i
  | cons c rest ih =>
    change (c.extendDispatch (dispatch.plain rest))[i]? = some e at at_i
    rcases Nat.lt_or_ge i (dispatch.plain rest).length with bound | beyond
    · obtain ⟨old,at_old⟩ : ∃ old, (dispatch.plain rest)[i]? = some old :=
        ⟨_,List.getElem?_eq_getElem bound⟩
      obtain ⟨slot,k,found,name⟩ := ih at_old
      rw [ClassEntry.getElem?_extendDispatch_inherited at_old] at at_i
      split at at_i
      next declares =>
        cases at_i
        exact ⟨slot,c,List.find?_cons_of_pos declares,rfl⟩
      next inherits =>
        cases at_i
        refine ⟨slot,k,?_,name⟩
        rw [List.find?_cons,eq_false_of_ne_true inherits]
        exact found
    · obtain ⟨slot,name,declared⟩ := ClassEntry.getElem?_extendDispatch_new beyond at_i
      exact ⟨slot,c,List.find?_cons_of_pos (by simpa using declared),name⟩

/-- A slot keeps its method in every class further down. -/
theorem dispatch_slot_kept {upper lower : List ClassEntry} (suffix : upper <:+ lower) {i : Nat}
    {e : DispatchEntry} (at_i : (dispatch.plain upper)[i]? = some e) :
    ∃ e', (dispatch.plain lower)[i]? = some e' ∧ e'.method = e.method := by
  obtain ⟨front,rfl⟩ := suffix
  induction front with
  | nil => exact ⟨e,at_i,rfl⟩
  | cons c front ih =>
    obtain ⟨e',at_i',method⟩ := ih
    refine ⟨_,ClassEntry.getElem?_extendDispatch_inherited at_i',?_⟩
    split <;> exact method

theorem getElem?_of_slotIn? {chain : List ClassEntry} {method : String} {k : Nat}
    (slot : ClassTable.slotIn? (dispatch.plain chain) method = some k) :
    ∃ e, (dispatch.plain chain)[k]? = some e ∧ e.method = method := by
  obtain ⟨e,found,rfl⟩ := Option.map_eq_some_iff.mp slot
  obtain ⟨i,at_i⟩ := List.mem_iff_getElem?.mp (List.mem_of_find?_eq_some found)
  refine ⟨e,?_,by simpa using List.find?_some found⟩
  rw [(dispatch_entry at_i).1]
  exact at_i

end LayoutKind

namespace ClassTable.Ready

variable {table : ClassTable} {c d : ClassEntry} {method : String} {k : Nat}

/-- The slot that a class gives a method leads, in each of its descendants, to the nearest
declaration of that method. -/
theorem entry_nearest (ready : table.Ready) (memberC : c ∈ table.toList)
    (memberD : d ∈ table.toList) (sub : table.isSubclassOf d c)
    (slot : (table.methodSlot? c.tag method).1 = some k) :
    ∃ e nearest, (table.entries d)[k]? = some e ∧ e.slot = k ∧ e.method = method ∧
      table.nearest? d method = some nearest ∧ e.className = nearest.name := by
  have slotC : slotIn? (table.entries c) method = some k := slot
  rw [ready.entries_eq memberC] at slotC
  obtain ⟨e,at_k,method_e⟩ := LayoutKind.getElem?_of_slotIn? slotC
  obtain ⟨e',at_k',method_e'⟩ :=
    LayoutKind.dispatch_slot_kept ((ready.isSubclassOf_iff memberC memberD).mp sub) at_k
  obtain ⟨slot',nearest,found,name⟩ := LayoutKind.dispatch_entry at_k'
  have method' : e'.method = method := method_e'.trans method_e
  rw [method'] at found
  rw [ready.entries_eq memberD]
  exact ⟨e',nearest,at_k',slot',method',found,name⟩

end ClassTable.Ready

theorem Context.target_mem {ctx : Context} {receiver : Expr} {staticClass : String}
    {target : ClassEntry} (current : ctx.current ∈ ctx.classes.toList)
    (found : ctx.target receiver staticClass = .ok target) : target ∈ ctx.classes.toList := by
  have required {name : String} {c : ClassEntry} (ok : ctx.classes.require name = .ok c) :
      c ∈ ctx.classes.toList :=
    (ClassTable.mem_of_find? (ClassTable.require_eq_ok.mp ok)).1
  have typed {type : String} {c : ClassEntry} (ok : ctx.staticClass type = .ok c) :
      c ∈ ctx.classes.toList := by
    unfold Context.staticClass at ok
    split at ok
    · cases ok; exact current
    · exact required ok
  unfold Context.target at found
  cases dynamic : (if receiver.isAbsent then .ok ctx.current
      else ctx.staticClass receiver.staticType : Except InternalError ClassEntry) with
  | error e => rw [dynamic] at found; cases found
  | ok c =>
    rw [dynamic] at found
    change (if staticClass = "" then .ok c else ctx.classes.require staticClass) = _ at found
    split at found
    · cases found
      split at dynamic
      · cases dynamic; exact current
      · exact typed dynamic
    · exact required found

theorem slotOf_eq_ok {ctx : Context} {target : ClassEntry} {method : String} {k : Nat} :
    ctx.slotOf target method = .ok k ↔ (ctx.classes.methodSlot? target.tag method).1 = some k := by
  unfold Context.slotOf
  split <;> simp_all

/-- In a laid out program, a slot leads in every descendant to the nearest declaration of a method.
So the word that a call reads is the label of that declaration, whatever the class of the receiver;
the emitted dispatch tables hold these words. -/
theorem dispatch_reaches_nearest_override {p : Program} {options : Options} {s : Session}
    (run : Session.layout p { options } = .ok () s) :
    (∀ c ∈ s.classes.toList, ∀ d ∈ s.classes.toList, s.classes.isSubclassOf d c →
      ∀ method k, (s.classes.methodSlot? c.tag method).1 = some k →
        ∃ e nearest, (s.classes.entries d)[k]? = some e ∧ e.slot = k ∧ e.method = method ∧
          s.classes.nearest? d method = some nearest ∧ e.className = nearest.name) ∧
    (∀ (ctx : Context) (info : Info) (receiver : Expr) (staticClass method : String)
      (args : List Expr) (supply supply' : Supply) (code : Code),
      ctx.classes = s.classes → ctx.current ∈ s.classes.toList →
      (Expr.dispatch info receiver staticClass method args).lower ctx supply = .ok code supply' →
      ∃ argCodes receiverCode target k site,
        ctx.target receiver staticClass = .ok target ∧ target ∈ s.classes.toList ∧
        code = .dispatch argCodes receiverCode
          (if staticClass = "" then none else some target.name) (k * wordSize) site ∧
        s.classes.isSubclassOf target target ∧
        ∀ d ∈ s.classes.toList, s.classes.isSubclassOf d target →
          ∃ nearest, s.classes.nearest? d method = some nearest ∧
            (dispatchTableOf s.classes d).words[k]? =
              some ("\t.word\t" ++ (nearest.name ++ "." ++ method))) ∧
    (∀ d ∈ s.classes.toList, (dispatchTableOf s.classes d).toValue.render Assembly.Spim.group =
      .ok (d.name ++ "_dispTab:" ++ "\n" ++
        "\n".intercalate (dispatchTableOf s.classes d).words)) := by
  obtain ⟨ready,-⟩ := Session.ready_of_layout run
  refine ⟨?_,?_,?_⟩
  · intro c memberC d memberD sub method k slot
    exact ready.entry_nearest memberC memberD sub slot
  · intro ctx info receiver staticClass method args supply supply' code classes current lowered
    obtain ⟨argCodes,receiverCode,target,k,site,_,_,-,-,targetOk,slotOk,-,rfl⟩ :=
      lower_dispatch lowered
    have member := Context.target_mem (classes ▸ current) targetOk
    rw [classes] at member
    rw [slotOf_eq_ok,classes] at slotOk
    refine ⟨argCodes,receiverCode,target,k,site,targetOk,member,rfl,?_,?_⟩
    · exact (ready.isSubclassOf_iff member member).mpr List.suffix_rfl
    · intro d memberD sub
      obtain ⟨e,nearest,at_k,-,rfl,found,name⟩ := ready.entry_nearest member memberD sub slotOk
      refine ⟨nearest,found,?_⟩
      simp only [DispatchTable.words,dispatchTableOf,List.getElem?_map,at_k,Option.map_some,wordOf,
        DispatchEntry.label,name]
  · intro d _
    exact DispatchTable.render_toValue _

/-- A class that declares a method twice, and a grandchild that overrides it. -/
def overriding : Program where
  classes :=
    [ { name := "C", parent := "B"
        methods := [{ name := "f", formals := [], returnType := "Object", body := .new {} "C" }] },
      { name := "B", parent := "A" },
      { name := "A"
        methods := [{ name := "f", formals := [], returnType := "Object", body := .new {} "A" },
          { name := "f", formals := [], returnType := "Object", body := .new {} "B" }] } ]

theorem overriding_dispatch :
    ∃ s c d, Session.layout overriding {} = .ok () s ∧ s.classes.find? "A" = some c ∧
      s.classes.find? "C" = some d ∧ s.classes.isSubclassOf d c ∧
      (s.classes.methodSlot? c.tag "f").1 = some 3 ∧
      ∃ e nearest, (s.classes.entries d)[3]? = some e ∧ e.slot = 3 ∧ e.method = "f" ∧
        s.classes.nearest? d "f" = some nearest ∧ e.className = nearest.name := by
  have run := eq_ok_of_succeeded
    (by decide +kernel : succeeded (Session.layout overriding {}))
  let s := stateAfter (Session.layout overriding {})
  obtain ⟨c,foundC⟩ := Option.isSome_iff_exists.mp
    (by decide +kernel : (s.classes.find? "A").isSome)
  obtain ⟨d,foundD⟩ := Option.isSome_iff_exists.mp
    (by decide +kernel : (s.classes.find? "C").isSome)
  have sub : s.classes.isSubclassOf d c := by
    have all : (s.classes.find? "A").all fun c => (s.classes.find? "C").all fun d =>
        s.classes.isSubclassOf d c := by decide +kernel
    simpa [foundC,foundD] using all
  have slot : (s.classes.methodSlot? c.tag "f").1 = some 3 := by
    have all : (s.classes.find? "A").all fun c =>
        (s.classes.methodSlot? c.tag "f").1 = some 3 := by decide +kernel
    simpa [foundC] using all
  exact ⟨s,c,d,run,foundC,foundD,sub,slot,
    (dispatch_reaches_nearest_override run).1 c (ClassTable.mem_of_find? foundC).1 d
      (ClassTable.mem_of_find? foundD).1 sub "f" 3 slot⟩

end CoolBackend
