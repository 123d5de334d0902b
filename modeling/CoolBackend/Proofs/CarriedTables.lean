import CoolBackend.Proofs.Carried
import CoolBackend.Proofs.ProgramTables

/-!
A class table looks at names, types and declared features only. The table of a carried program is
the carried table of the program, and every question to it has the same answer.
-/
namespace CoolBackend

def AttributeDecl.carried (a : AttributeDecl) : AttributeDecl := { a with init := a.init.carried }

def ClassEntry.carried (c : ClassEntry) : ClassEntry :=
  { c with
    decl := c.decl.map ClassDecl.carried
    attributes := c.attributes.map AttributeDecl.carried }

namespace ClassEntry

@[simp] theorem name_carried (c : ClassEntry) : c.carried.name = c.name := rfl

@[simp] theorem tag_carried (c : ClassEntry) : c.carried.tag = c.tag := rfl

@[simp] theorem parentName_carried (c : ClassEntry) : c.carried.parentName = c.parentName := rfl

@[simp] theorem parent_carried (c : ClassEntry) : c.carried.parent = c.parent := rfl

theorem ofDecl_carried (decl : ClassDecl) (tag : Nat) :
    ofDecl decl.carried tag = (ofDecl decl tag).carried := by
  simp [ofDecl,carried,ClassDecl.carried,carriedBindings_eq,Binder.carried,AttributeDecl.carried,
    MethodDecl.carried,ClassDecl.parentName,Function.comp_def]

end ClassEntry

namespace LayoutKind

variable {α : Type}

structure Blind (kind : LayoutKind α) : Prop where
  extend : ∀ c inherited, kind.extend c.carried inherited = kind.extend c inherited
  kept : ∀ c, kind.kept c.carried = kind.kept c
  keep : ∀ layout c, kind.keep layout c.carried = (kind.keep layout c).carried

theorem blind_attributes : attributes.Blind where
  extend c inherited := by
    simp only [attributes,ClassEntry.extendAttributes,ClassEntry.carried,List.foldl_map]
    rfl
  kept _ := rfl
  keep _ _ := rfl

theorem blind_dispatch : dispatch.Blind := ⟨fun _ _ => rfl,fun _ => rfl,fun _ _ => rfl⟩

end LayoutKind

namespace ClassTable

variable {α : Type}

def carried (table : ClassTable) : ClassTable := .ofList (table.toList.map ClassEntry.carried)

@[simp] theorem size_carried (table : ClassTable) : table.carried.size = table.size := by
  simp [carried,size,ofList,toList]

@[simp] theorem get_carried (table : ClassTable) (i : Nat) :
    table.carried.classes[i]? = table.classes[i]?.map ClassEntry.carried := by
  simp [carried,ofList,toList]

@[simp] theorem toList_carried (table : ClassTable) :
    table.carried.toList = table.toList.map ClassEntry.carried := by
  rw [carried,toList_ofList]

@[simp] theorem find?_carried (table : ClassTable) (name : String) :
    table.carried.find? name = (table.find? name).map ClassEntry.carried := by
  rw [find?_eq,find?_eq,toList_carried,List.find?_map]
  rfl

theorem insert_carried (table : ClassTable) (c : ClassEntry) :
    table.carried.insert c.carried = (table.insert c).carried := by
  apply eq_of_toList
  simp [toList_insert]

theorem update_carried (table : ClassTable) (tag : Nat) {f g : ClassEntry → ClassEntry}
    {names : ∀ c, (f c).name = c.name} {names' : ∀ c, (g c).name = c.name}
    (commutes : ∀ c, g c.carried = (f c).carried) :
    table.carried.update tag g names' = (table.update tag f names).carried := by
  apply eq_of_toList
  apply List.ext_getElem?
  intro i
  rw [toList_carried,List.getElem?_map]
  simp only [toList,Array.getElem?_toList,update_get,get_carried]
  split
  next => simp [Function.comp_def,commutes]
  next => rfl

theorem chainFrom_carried (table : ClassTable) (fuel tag : Nat) :
    table.carried.chainFrom fuel tag = (table.chainFrom fuel tag).map ClassEntry.carried := by
  induction fuel generalizing tag with
  | zero => rfl
  | succ fuel ih =>
    simp only [chainFrom,get_carried]
    cases table.classes[tag]? with
    | none => rfl
    | some c =>
      simp only [Option.map_some,ClassEntry.parent_carried]
      cases c.parent with
      | none => rfl
      | some p => exact congrArg (c.carried :: ·) (ih p)

theorem chain_carried (table : ClassTable) (c : ClassEntry) :
    table.carried.chain c.carried = (table.chain c).map ClassEntry.carried := by
  rw [chain,chain,chainFrom_carried,size_carried]
  rfl

theorem circles_carried (table : ClassTable) (tag left : Nat) (link : Option Nat) :
    table.carried.circles tag left link = table.circles tag left link := by
  induction left generalizing link with
  | zero => cases link <;> rfl
  | succ left ih =>
    cases link with
    | none => rfl
    | some p =>
      rw [circles,circles,get_carried,ih]
      cases table.classes[p]? <;> rfl

theorem isSubclassOf_carried (table : ClassTable) (c other : ClassEntry) :
    table.carried.isSubclassOf c.carried other.carried = table.isSubclassOf c other := by
  rw [isSubclassOf,isSubclassOf,chain_carried,List.any_map]
  rfl

theorem conformingTags_carried (table : ClassTable) (c : ClassEntry) :
    table.carried.conformingTags c.carried = table.conformingTags c := by
  simp only [conformingTags,toList_carried,List.filter_map,List.map_map,Function.comp_def,
    isSubclassOf_carried]
  rfl

theorem parentNameOf?_carried (table : ClassTable) (c : ClassEntry) :
    table.carried.parentNameOf? c.carried = table.parentNameOf? c := by
  simp only [parentNameOf?,get_carried,ClassEntry.parent_carried]
  cases c.parent with
  | none => rfl
  | some p => simp [Function.comp_def]

theorem require_carried (table : ClassTable) (name : String) :
    table.carried.require name = (table.require name).map ClassEntry.carried := by
  rw [require,require,find?_carried]
  cases table.find? name <;> rfl

theorem keepLayout_carried {kind : LayoutKind α} (blind : kind.Blind) (table : ClassTable)
    (tag : Nat) (layout : List α) :
    table.carried.keepLayout kind tag layout = (table.keepLayout kind tag layout).carried :=
  update_carried table tag (blind.keep layout)

/-- Layouts are the same, and what is kept of them is kept in the same places. -/
theorem layoutFrom_carried {kind : LayoutKind α} (blind : kind.Blind) (fuel tag : Nat)
    (table : ClassTable) : layoutFrom kind fuel tag table.carried =
      ((layoutFrom kind fuel tag table).1,(layoutFrom kind fuel tag table).2.carried) := by
  induction fuel generalizing tag with
  | zero => rfl
  | succ fuel ih =>
    simp only [layoutFrom,get_carried]
    cases table.classes[tag]? with
    | none => rfl
    | some c =>
      simp only [Option.map_some,blind.kept]
      cases kind.kept c with
      | some slots => rfl
      | none =>
        simp only [ClassEntry.parent_carried]
        cases c.parent with
        | none => simp only [blind.extend,keepLayout_carried blind]
        | some p => simp only [ih,blind.extend,keepLayout_carried blind]

theorem attributes_carried (table : ClassTable) (tag : Nat) :
    table.carried.attributes tag =
      ((table.attributes tag).1,(table.attributes tag).2.carried) := by
  rw [attributes,attributes,size_carried,layoutFrom_carried LayoutKind.blind_attributes]

theorem dispatch_carried (table : ClassTable) (tag : Nat) :
    table.carried.dispatch tag = ((table.dispatch tag).1,(table.dispatch tag).2.carried) := by
  rw [dispatch,dispatch,size_carried,layoutFrom_carried LayoutKind.blind_dispatch]

theorem slots_carried (table : ClassTable) (c : ClassEntry) :
    table.carried.slots c.carried = table.slots c := by
  rw [slots,attributes_carried]
  rfl

theorem entries_carried (table : ClassTable) (c : ClassEntry) :
    table.carried.entries c.carried = table.entries c := by
  rw [entries,dispatch_carried]
  rfl

theorem objectSize_carried (table : ClassTable) (tag : Nat) :
    (table.carried.objectSize tag).1 = (table.objectSize tag).1 := by
  simp only [objectSize,attributes_carried]

theorem methodSlot?_carried (table : ClassTable) (tag : Nat) (method : String) :
    (table.carried.methodSlot? tag method).1 = (table.methodSlot? tag method).1 := by
  simp only [methodSlot?,dispatch_carried]

theorem build_carried (table : ClassTable) : table.carried.build = table.build.carried := by
  have each (tags : List Nat) (table : ClassTable) :
      buildTags tags table.carried = (buildTags tags table).carried := by
    induction tags generalizing table with
    | nil => rfl
    | cons tag tags ih =>
      simp only [buildTags,attributes_carried,dispatch_carried]
      exact ih _
  rw [build,build,size_carried,each]

end ClassTable

/-- The outcome of work on a table, as it is on the carried table. -/
def carriedOutcome {α : Type} :
    EStateM.Result InternalError ClassTable α → EStateM.Result InternalError ClassTable α
  | .ok a table => .ok a table.carried
  | .error e table => .error e table.carried

namespace ClassTable

theorem linkParents_carried (cs : List ClassEntry) (table : ClassTable) :
    linkParents (cs.map ClassEntry.carried) table.carried =
      carriedOutcome (linkParents cs table) := by
  induction cs generalizing table with
  | nil => rfl
  | cons c rest ih =>
    simp only [List.map_cons,linkParents_cons,find?_carried,ClassEntry.parentName_carried,
      ClassEntry.name_carried,ClassEntry.tag_carried]
    split
    next => exact ih table
    next =>
      cases table.find? c.parentName with
      | none => rfl
      | some p =>
        let linked : ClassEntry → ClassEntry := fun c => { c with parent := some p.tag }
        have commutes : ∀ c : ClassEntry, linked c.carried = (linked c).carried := fun _ => rfl
        exact (congrArg _ (update_carried table c.tag commutes)).trans (ih _)

theorem link_carried (table : ClassTable) : link table.carried = carriedOutcome (link table) := by
  simp only [link,bind_run,get_run,toList_carried,linkParents_carried]
  cases linkParents table.toList table with
  | error e linked => rfl
  | ok u linked =>
    have roots : (linked.toList.map ClassEntry.carried).countP (·.parentName = "") =
        linked.toList.countP (·.parentName = "") := by
      rw [List.countP_map]
      rfl
    let astray (c : ClassEntry) : Bool := linked.circles c.tag (linked.size + 1) c.parent
    have same : ((linked.toList.map ClassEntry.carried).find? fun c =>
          linked.carried.circles c.tag (linked.carried.size + 1) c.parent) =
        (linked.toList.find? astray).map ClassEntry.carried := by
      simp only [size_carried,circles_carried,List.find?_map]
      rfl
    simp only [carriedOutcome,toList_carried,roots]
    split
    next => rfl
    next =>
      simp only [same]
      cases linked.toList.find? astray <;> rfl

end ClassTable

namespace Session

open ClassTable

theorem builtins_carried : builtins.carried = builtins := by
  apply eq_of_toList
  rw [toList_carried]
  rfl

theorem defineAll_carried (cs : List ClassDecl) (table : ClassTable) :
    defineAll (cs.map ClassDecl.carried) table.carried = carriedOutcome (defineAll cs table) := by
  induction cs generalizing table with
  | nil => rfl
  | cons c rest ih =>
    have name : c.carried.name = c.name := rfl
    rw [List.map_cons,defineAll_cons,defineAll_cons,name,find?_carried,Option.isSome_map,
      size_carried,ClassEntry.ofDecl_carried,insert_carried,ih]
    split
    next => rfl
    next => split <;> rfl

/-- Laying out a carried program does the same to the table. -/
theorem tableWork_carried (p : Program) :
    tableWork p.carried builtins = carriedOutcome (tableWork p builtins) := by
  have define := defineAll_carried p.classes builtins
  rw [builtins_carried] at define
  simp only [tableWork,bind_run]
  rw [Program.carried,define]
  cases defineAll p.classes builtins with
  | error e table => rfl
  | ok u table =>
    simp only [carriedOutcome,link_carried]
    cases link table with
    | error e linked => rfl
    | ok u linked => simp only [modify_run,build_carried]

theorem nameClasses_carried (cs : List ClassEntry) :
    nameClasses (cs.map ClassEntry.carried) = nameClasses cs := by
  induction cs with
  | nil => rfl
  | cons c rest ih =>
    rw [List.map_cons,nameClasses,nameClasses,ih]
    rfl

end Session

end CoolBackend
