import CoolBackend.Proofs.FileTrees
import CoolBackend.Proofs.SymbolRows

/-!
Writing a symbol database removes the file that was at its path, so that no row of it is left, and
then finds no key taken. Whoever opens the path afterwards gets the layouts back, however often and
in whatever order they ask.
-/
namespace CoolBackend

namespace Workspace

variable {w : Workspace} {path : String} {place : List String}

/-- Writing the symbols of a laid out program succeeds at every path that is that of a file. -/
theorem Hosts.writeSymbols (hosts : w.Hosts path place)
    (own : DatabaseHome.ofName path = .file path) {classes : ClassTable} (ready : classes.Ready)
    (id : String) :
    ∃ w', Workspace.writeSymbols path id classes false w = .ok () w' ∧ w'.Hosts path place ∧
      w'.root.find? place = some (.file (.symbols (classes.rowsOf id classes.toList))) := by
  obtain ⟨cleared,clear,hosts,gone⟩ := hosts.clear
  have held : cleared.heldTable path = .ok {} := by
    simp only [heldTable,own,hosts.lookup,gone]
  have stores {w : Workspace} (hosts : w.Hosts path place) (table : SymbolTable) :
      ∃ w', w.storeTable path table = .ok w' ∧ w'.Hosts path place ∧
        w'.root.find? place = some (.file (.symbols table)) := by
    obtain ⟨w',write,after⟩ := hosts.write (.symbols table)
    exact ⟨w',by simp only [storeTable,own,write]; rfl,after⟩
  obtain ⟨created,create,hosts,-⟩ := stores hosts {}
  obtain ⟨filled,fill,hosts,found⟩ := stores hosts (classes.rowsOf id classes.toList)
  refine ⟨filled,?_,hosts,found⟩
  simp only [Workspace.writeSymbols,bind_run,get_run,set_run,clear,ofExcept_run,
    Bool.false_eq_true,if_false,held,create,ready.symbols_ok,fill]

end Workspace

namespace SymbolStore

/-- The selected database has these rows, whether it was read already or not. -/
inductive Serves (table : SymbolTable) (store : SymbolStore) : Prop where
  | idle {path file : String} {place : List String}
      (connection : store.connection = some (.idle path))
      (home : DatabaseHome.ofName path = .file file)
      (located : store.files.locate file = .ok place)
      (found : store.files.root.find? place = some (.file (.symbols table)))
  | attached {place : List String} {linked : Bool}
      (connection : store.connection = some (.attached place (.symbols table) linked))

inductive Asked (store : SymbolStore) : SymbolStore → Prop where
  | start : Asked store store
  | query {later : SymbolStore} (asked : Asked store later) (stage : SymbolStage)
      (canceled : Bool) : Asked store (stateAfter (SymbolStore.query stage canceled later))

section Queries

variable {t : SymbolTable} {store : SymbolStore}

/-- A query, also one that was cancelled, leaves the rows as they are. -/
theorem Serves.query_eq (serves : Serves t store) (stage : SymbolStage) (canceled : Bool) :
    ∃ next, Serves t next ∧ SymbolStore.query stage canceled store =
      if canceled then .error (.failed ⟨stage,.canceled⟩) next else .ok t next := by
  cases serves with
  | idle connection home located found =>
    cases canceled with
    | true =>
      refine ⟨store,.idle connection home located found,?_⟩
      simp only [SymbolStore.query,connection,table,bind_run,if_true,throw_run]
    | false =>
      simp only [SymbolStore.query,connection,table,attach,bind_run,get_run,set_run,home,located,
        found,Bool.false_eq_true,if_false,pure_run]
      exact ⟨_,.attached rfl,rfl⟩
  | attached connection =>
    refine ⟨store,.attached connection,?_⟩
    cases canceled with
    | true => simp only [SymbolStore.query,connection,table,bind_run,if_true,throw_run]
    | false =>
      simp only [SymbolStore.query,connection,table,bind_run,Bool.false_eq_true,if_false,pure_run]

theorem Serves.asked (serves : Serves t store) {later : SymbolStore} (asked : Asked store later) :
    Serves t later := by
  induction asked with
  | start => exact serves
  | query _ stage canceled ih =>
    obtain ⟨next,after,run⟩ := ih.query_eq stage canceled
    rw [run]
    cases canceled <;> exact after

/-- Whatever is asked, the rows give the answer. -/
theorem Serves.answer {α : Type} (serves : Serves t store) (stage : SymbolStage)
    (f : SymbolTable → α) :
    ∃ next, (do return f (← SymbolStore.query stage false) : QueryM α) store = .ok (f t) next := by
  obtain ⟨next,-,run⟩ := serves.query_eq stage false
  exact ⟨next,bind_eq_ok.mpr ⟨t,next,run,rfl⟩⟩

theorem Serves.classes (serves : Serves t store) :
    ∃ next, SymbolStore.classes false store = .ok t.classRows next :=
  serves.answer .queryingClasses SymbolTable.classRows

theorem Serves.attributes (serves : Serves t store) (name : String) :
    ∃ next, SymbolStore.attributes name false store = .ok (t.attributesOf name) next :=
  serves.answer (.queryingAttributes name) (·.attributesOf name)

theorem Serves.methods (serves : Serves t store) (name : String) :
    ∃ next, SymbolStore.methods name false store = .ok (t.methodsOf name) next :=
  serves.answer (.queryingMethods name) (·.methodsOf name)

theorem Serves.classByTag (serves : Serves t store) {tag : Int} {row : ClassRow}
    (found : t.classByTag? tag = some row) :
    ∃ next, SymbolStore.classByTag tag false store = .ok row next := by
  obtain ⟨next,-,run⟩ := serves.query_eq (.queryingClass tag) false
  exact ⟨next,bind_eq_ok.mpr ⟨t,next,run,by simp only [found]; rfl⟩⟩

theorem Serves.classNotFound (serves : Serves t store) {tag : Int}
    (missing : t.classByTag? tag = none) :
    ∃ next, SymbolStore.classByTag tag false store = .error .classNotFound next := by
  obtain ⟨next,-,run⟩ := serves.query_eq (.queryingClass tag) false
  refine ⟨next,?_⟩
  simp only [SymbolStore.classByTag,bind_run,run,Bool.false_eq_true,if_false,missing]
  rfl

end Queries

theorem files_withFiles (store : SymbolStore) (files : Workspace) :
    (store.withFiles files).files = files := by
  unfold withFiles
  split <;> rfl

/-- Whatever was at a path and whatever is selected, a database that is written there and opened
serves the rows of the class table. -/
theorem serves_of_write {store : SymbolStore} {path : String} {place : List String}
    (hosts : store.files.Hosts path place) (own : DatabaseHome.ofName path = .file path)
    {table : ClassTable} (ready : table.Ready) (id : String) :
    ∃ written opened, write path id table false store = .ok () written ∧
      select path written = .ok () opened ∧ Serves (table.rowsOf id table.toList) opened := by
  obtain ⟨files,run,after,found⟩ := hosts.writeSymbols own ready id
  have wrote : ∃ written, write path id table false store = .ok () written ∧
      written.files = files := by
    simp only [write,run]
    exact ⟨_,rfl,files_withFiles _ _⟩
  obtain ⟨written,wrote,same⟩ := wrote
  have located : written.files.locate path = .ok place := by
    rw [same]
    exact after.located
  rw [← same] at found
  refine ⟨written,{ written with connection := some (.idle path) },wrote,?_,
    .idle rfl own located found⟩
  simp only [select,bind_run,get_run,same,after.lookup,same ▸ found,set_run]

end SymbolStore

/-- A class as its row shows it; the root shows no parent. -/
def ClassRow.columns (r : ClassRow) : Nat × String × String × Nat :=
  (r.tag,r.name,r.parent.getD "",r.size)

def ClassTable.columns (table : ClassTable) (c : ClassEntry) : Nat × String × String × Nat :=
  (c.tag,c.name,(table.parentNameOf? c).getD "",(table.objectSize c.tag).1)

/-- The symbols of a program that was laid out have distinct keys, so that they can be written
wherever a file can be, if the path is that of the file which the database is kept in.
Whatever was there before, a reader who opens the path gets every class, in tag order and by its
tag, and its layouts in their order; and finds nothing else. -/
theorem symbols_reproduce_layouts {p : Program} {options : Options} {s : Session}
    (laid : Session.layout p { options } = .ok () s) (store : SymbolStore) {path : String}
    {place : List String} (writable : store.files.writePlace path = .ok place)
    (own : DatabaseHome.ofName path = .file path) (id : String) :
    (∃ rows, s.classes.symbols id {} = .ok rows) ∧
    ∃ written opened, SymbolStore.write path id s.classes false store = .ok () written ∧
      SymbolStore.select path written = .ok () opened ∧
      ∀ later, opened.Asked later →
        (∃ rows next, SymbolStore.classes false later = .ok rows next ∧
          rows.map ClassRow.columns = s.classes.toList.map s.classes.columns ∧
          rows.Pairwise (·.tag < ·.tag)) ∧
        (∀ c ∈ s.classes.toList,
          (∃ rows next, SymbolStore.attributes c.name false later = .ok rows next ∧
            rows.map (fun r => (r.index,r.name,r.type,r.declaredBy,r.offset)) =
              (s.classes.slots c).mapIdx fun i a => (i,a.name,a.type,a.className,a.offset)) ∧
          (∃ rows next, SymbolStore.methods c.name false later = .ok rows next ∧
            rows.map (fun r => (r.slot,r.name,r.definedBy)) =
              (s.classes.entries c).map (fun e => (e.slot,e.method,e.className)) ∧
            rows.Pairwise (·.slot < ·.slot)) ∧
          ∃ row next, SymbolStore.classByTag c.tag false later = .ok row next ∧
            row.columns = s.classes.columns c) ∧
        (∀ name, s.classes.find? name = none →
          (∃ next, SymbolStore.attributes name false later = .ok [] next) ∧
          ∃ next, SymbolStore.methods name false later = .ok [] next) ∧
        ∀ tag, (∃ next, SymbolStore.classByTag tag false later = .error .classNotFound next) ↔
          ∀ c ∈ s.classes.toList, (c.tag : Int) ≠ tag := by
  obtain ⟨ready,-⟩ := Session.ready_of_layout laid
  refine ⟨⟨_,ready.symbols_ok id⟩,?_⟩
  obtain ⟨written,opened,wrote,selected,serves⟩ :=
    SymbolStore.serves_of_write (Workspace.hosts_of_writePlace writable) own ready id
  refine ⟨written,opened,wrote,selected,fun later asked => ?_⟩
  have serves := serves.asked asked
  refine ⟨?_,fun c member => ⟨?_,?_,?_⟩,fun name unknown => ?_,fun tag => ?_⟩
  · obtain ⟨next,run⟩ := serves.classes
    rw [ready.classRows_rowsOf] at run
    exact ⟨_,next,run,List.map_map,List.pairwise_map.mpr ready.tags_ascend⟩
  · obtain ⟨next,run⟩ := serves.attributes c.name
    rw [ready.attributesOf_rowsOf id member] at run
    refine ⟨_,next,run,?_⟩
    rw [ClassTable.attributeRows,List.mapIdx_eq_zipIdx_map,List.mapIdx_eq_zipIdx_map,List.map_map]
    rfl
  · obtain ⟨next,run⟩ := serves.methods c.name
    rw [ready.methodsOf_rowsOf id member] at run
    exact ⟨_,next,run,List.map_map,ready.methodRows_ascend member⟩
  · obtain ⟨next,run⟩ := serves.classByTag (ready.classByTag?_rowsOf id member)
    exact ⟨_,next,run,rfl⟩
  · obtain ⟨attributes,methods⟩ := ClassTable.unknown_rowsOf id unknown
    exact ⟨attributes ▸ serves.attributes name,methods ▸ serves.methods name⟩
  · constructor
    · rintro ⟨next,failed⟩ c member rfl
      obtain ⟨_,run⟩ := serves.classByTag (ready.classByTag?_rowsOf id member)
      rw [run] at failed
      cases failed
    · exact fun unknown => serves.classNotFound (ClassTable.classByTag?_unknown id unknown)

/-- A database of another program, whose rows have the keys of new ones, and which is being read. -/
def outdated : SymbolStore :=
  let content := .symbols
    { sessions := ["before"]
      classes := [{ tag := 0, name := "Object", parent := none, size := 3 },
        { tag := 1, name := "Old", parent := some "Object", size := 4 }]
      attributes := [{ className := "Old", index := 0, name := "x", type := "Int"
                       declaredBy := "Old", offset := 12 }] }
  { files := { root := .directory [("out",.directory [("symbols.db",.file content)])]
               current := ["out"] }
    connection := some (.attached ["out","symbols.db"] content true) }

theorem overriding_replaces_outdated :
    ∃ s written opened, Session.layout overriding {} = .ok () s ∧
      outdated.files.writePlace "symbols.db" = .ok ["out","symbols.db"] ∧
      SymbolStore.write "symbols.db" "after" s.classes false outdated = .ok () written ∧
      SymbolStore.select "symbols.db" written = .ok () opened ∧
      (∃ rows next, SymbolStore.methods "C" false opened = .ok rows next ∧
        rows.map (fun r => (r.slot,r.name,r.definedBy)) =
          [(0,"abort","Object"),(1,"type_name","Object"),(2,"copy","Object"),(3,"f","C"),
            (4,"f","C")]) ∧
      ∃ next, SymbolStore.attributes "Old" false opened = .ok [] next := by
  have run := eq_ok_of_succeeded
    (by decide +kernel : succeeded (Session.layout overriding {}))
  let s := stateAfter (Session.layout overriding {})
  have writable : outdated.files.writePlace "symbols.db" = .ok ["out","symbols.db"] := rfl
  obtain ⟨d,found⟩ := Option.isSome_iff_exists.mp
    (by decide +kernel : (s.classes.find? "C").isSome)
  obtain ⟨member,name⟩ := ClassTable.mem_of_find? found
  have dispatch : (s.classes.find? "C").map (fun d =>
        (s.classes.entries d).map fun e => (e.slot,e.method,e.className)) =
      some [(0,"abort","Object"),(1,"type_name","Object"),(2,"copy","Object"),(3,"f","C"),
        (4,"f","C")] := by decide +kernel
  rw [found,Option.map_some] at dispatch
  obtain ⟨-,written,opened,wrote,selected,answers⟩ :=
    symbols_reproduce_layouts run outdated writable (by decide) "after"
  obtain ⟨-,own,others,-⟩ := answers opened .start
  obtain ⟨-,⟨rows,next,methods,same,-⟩,-⟩ := own d member
  rw [name] at methods
  exact ⟨s,written,opened,run,writable,wrote,selected,
    ⟨rows,next,methods,same.trans (Option.some.inj dispatch)⟩,(others "Old" (by decide +kernel)).1⟩

/-- Behind a question mark, the path that is cleared is not that of the database, whose rows stay
and take the keys; and a database in memory is filled, but cannot be opened. -/
theorem settings_keep_outdated :
    ∃ s written, Session.layout overriding {} = .ok () s ∧
      outdated.files.writePlace "symbols.db?" = .ok ["out","symbols.db?"] ∧
      DatabaseHome.ofName "symbols.db?" = .file "symbols.db" ∧
      (∃ next, SymbolStore.write "symbols.db?" "after" s.classes false outdated =
        .error ⟨.writingClass "Object",.keyConflict⟩ next) ∧
      SymbolStore.write ":memory:" "after" s.classes false outdated = .ok () written ∧
      ∃ next, SymbolStore.select ":memory:" written =
        .error ⟨.opening,.file ⟨"stat",":memory:",.missing⟩⟩ next := by
  have run := eq_ok_of_succeeded
    (by decide +kernel : succeeded (Session.layout overriding {}))
  let s := stateAfter (Session.layout overriding {})
  have taken : failure? (SymbolStore.write "symbols.db?" "after" s.classes false outdated) =
      some ⟨.writingClass "Object",.keyConflict⟩ := by decide +kernel
  have wrote := eq_ok_of_succeeded
    (by decide +kernel :
      succeeded (SymbolStore.write ":memory:" "after" s.classes false outdated))
  have missing : failure? (SymbolStore.select ":memory:"
        (stateAfter (SymbolStore.write ":memory:" "after" s.classes false outdated))) =
      some ⟨.opening,.file ⟨"stat",":memory:",.missing⟩⟩ := by decide +kernel
  exact ⟨s,_,run,rfl,by decide,⟨_,eq_error_of_failure? taken⟩,wrote,_,eq_error_of_failure? missing⟩

end CoolBackend
