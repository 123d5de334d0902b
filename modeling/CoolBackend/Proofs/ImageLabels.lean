import CoolBackend.Proofs.FreshLabels

/-!
The labels that the lines of an image define, by families: the fixed ones, the constants, the parts
of each class, its methods, and those that its codes drew.
-/
namespace CoolBackend

namespace Assembly

@[simp] theorem labelsIn_blank (rest : List Line) : labelsIn (.blank :: rest) = labelsIn rest := rfl

@[simp] theorem labelsIn_directive (name : String) (operands : List String) (rest : List Line) :
    labelsIn (.directive name operands :: rest) = labelsIn rest := rfl

@[simp] theorem labelsIn_word (operand : String) (rest : List Line) :
    labelsIn (.word operand :: rest) = labelsIn rest := rfl

theorem labelsIn_flatMap {α : Type} (xs : List α) (lines : α → List Line) :
    labelsIn (xs.flatMap lines) = xs.flatMap fun x => labelsIn (lines x) := by
  induction xs with
  | nil => rfl
  | cons x rest ih => simp [ih]

theorem labelsIn_spaced {α : Type} (xs : List α) (lines : α → List Line) :
    labelsIn (spaced (xs.map lines)) = xs.flatMap fun x => labelsIn (lines x) := by
  induction xs with
  | nil => rfl
  | cons x rest ih =>
    cases rest with
    | nil => simp
    | cons y rest =>
      rw [List.map_cons,spaced_cons (by simp),labelsIn_append,labelsIn_blank,ih]
      rfl

theorem labelsIn_words (labels : List String) : labelsIn (labels.map .word) = [] := by
  induction labels with
  | nil => rfl
  | cons label rest ih => exact ih

theorem labelsIn_globals (names : List String) : labelsIn (Image.globals names) = [] := by
  induction names with
  | nil => rfl
  | cons name rest ih => exact ih

end Assembly

open Assembly

def InitRoutine.codes (r : InitRoutine) : List Code := r.stores.map (·.value)

def Image.codes (image : Image) : List Code :=
  image.inits.flatMap InitRoutine.codes ++ image.methods.map (·.body)

theorem labelsIn_linesOf (codes : List Code) :
    labelsIn (Code.linesOf codes) = codes.flatMap fun c => labelsIn c.lines := by
  induction codes with
  | nil => rfl
  | cons c rest ih => simp [Code.linesOf,ih]

theorem labelsIn_literal (l : Literal) : labelsIn l.lines = [l.label] := by
  cases l <;> rfl

theorem labelsIn_prototype (p : Prototype) : labelsIn p.lines = [p.className ++ "_protObj"] := by
  have slots : labelsIn (p.slots.flatMap PrototypeSlot.lines) = [] := by
    rw [labelsIn_flatMap]
    refine List.flatMap_eq_nil_iff.mpr fun slot _ => ?_
    cases slot <;> rfl
  simp [Prototype.lines,objectLines,slots]

theorem labelsIn_table (t : DispatchTable) : labelsIn t.lines = [t.className ++ "_dispTab"] := by
  simp [DispatchTable.lines,labelsIn_words]

theorem labelsIn_init (r : InitRoutine) :
    labelsIn r.lines = (r.className ++ "_init") :: labelsIn (Code.linesOf r.codes) := by
  have stores : labelsIn (r.stores.flatMap AttributeStore.lines) =
      labelsIn (Code.linesOf r.codes) := by
    simp [labelsIn_flatMap,AttributeStore.lines,labelsIn_linesOf,InitRoutine.codes,
      List.flatMap_map]
  simp [InitRoutine.lines,stores]

theorem labelsIn_method (r : MethodRoutine) :
    labelsIn r.lines = (r.className ++ "." ++ r.method) :: labelsIn r.body.lines := by
  simp [MethodRoutine.lines]

def fixedLabels : List String :=
  ["_int_tag","_bool_tag","_string_tag","_MemMgr_INITIALIZER","_MemMgr_COLLECTOR","_MemMgr_TEST",
    "class_nameTab","class_objTab","heap_start"]

namespace Image

def namedLabels (image : Image) : List (List String) :=
  [fixedLabels,image.literals.map Literal.label,Literal.bools.map Literal.label,
    image.prototypes.map (·.className ++ "_protObj"),
    image.dispatchTables.map (·.className ++ "_dispTab"),image.inits.map (·.className ++ "_init"),
    image.methods.map fun r => r.className ++ "." ++ r.method]

def drawnLabels (image : Image) : List String := labelsIn (Code.linesOf image.codes)

theorem count_flatMap_cons {α : Type} (xs : List α) (head : α → String) (tail : α → List String)
    (label : String) : (xs.flatMap fun x => head x :: tail x).count label =
      (xs.map head).count label + (xs.flatMap tail).count label := by
  induction xs with
  | nil => rfl
  | cons x rest ih =>
    simp only [List.flatMap_cons,List.cons_append,List.count_cons,List.count_append,ih,
      List.map_cons]
    omega

theorem labelsIn_perm (image : Image) :
    (labelsIn image.lines).Perm (image.namedLabels.flatten ++ image.drawnLabels) := by
  have objects : labelsIn (image.prototypes.flatMap classObjects) = [] := by
    rw [labelsIn_flatMap]
    exact List.flatMap_eq_nil_iff.mpr fun p _ => rfl
  have codes : image.drawnLabels =
      (image.inits.flatMap fun r => labelsIn (Code.linesOf r.codes)) ++
        image.methods.flatMap fun r => labelsIn r.body.lines := by
    simp [drawnLabels,labelsIn_linesOf,Image.codes,List.flatMap_assoc,List.flatMap_map]
  have none {α : Type} (xs : List α) : xs.flatMap (fun _ => ([] : List String)) = [] := by simp
  refine List.perm_iff_count.mpr fun label => ?_
  rw [codes]
  simp only [lines,header,dataLines,textSection,variableLines,labelsIn_append,labelsIn_block,
    labelsIn_label,labelsIn_word,labelsIn_directive,labelsIn_blank,labelsIn_nil,labelsIn_globals,
    labelsIn_words,labelsIn_flatMap,labelsIn_spaced,labelsIn_literal,labelsIn_prototype,
    labelsIn_table,labelsIn_init,labelsIn_method,objects,namedLabels,fixedLabels,
    List.flatten_cons,List.flatten_nil,List.count_append,List.count_cons,List.count_nil,
    count_flatMap_cons,none]
  omega

end Image

end CoolBackend
