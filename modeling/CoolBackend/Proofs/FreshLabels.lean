import CoolBackend.Proofs.ListingText
import CoolBackend.Proofs.LoweringInduction

/-!
The labels that a piece of code defines are those that were drawn for it: one for every value of the
counter between the supply that it started with and the one that it left, each made from one of a
few stems. A stem has no digits, so that a label determines its stem and its number.
-/
namespace CoolBackend

def labelStems : List String :=
  ["not","isvoid","compare","eq","else","endif","while","pool","case","esac","branch","dispatch"]

def Digitless (stem : String) : Prop := ∀ c ∈ stem.toList, c.isDigit = false

instance (stem : String) : Decidable (Digitless stem) :=
  List.decidableBAll (fun c : Char => c.isDigit = false) stem.toList

theorem digitless_of_labelStems : ∀ stem ∈ labelStems, Digitless stem := by decide

theorem isDigit_of_mem_toString {k : Nat} {c : Char} (member : c ∈ (toString k).toList) :
    c.isDigit := by
  rw [Nat.toString_eq_repr,Nat.toList_repr] at member
  exact Nat.isDigit_of_mem_toDigits (by decide) (by decide) member

theorem filter_numbered {stem : String} (plain : Digitless stem) (k : Nat) :
    (stem ++ toString k).toList.filter (!·.isDigit) = stem.toList ∧
      (stem ++ toString k).toList.filter (·.isDigit) = (toString k).toList := by
  have digits : ∀ c ∈ (toString k).toList, c.isDigit := fun _ => isDigit_of_mem_toString
  rw [String.toList_append,List.filter_append,List.filter_append]
  constructor
  · rw [List.filter_eq_self.mpr (by simpa [Digitless] using plain),
      List.filter_eq_nil_iff.mpr (by simpa using digits),List.append_nil]
  · rw [List.filter_eq_nil_iff.mpr (by simpa [Digitless] using plain),
      List.filter_eq_self.mpr digits,List.nil_append]

/-- A numbered label determines its stem and its number. -/
theorem numbered_inj {stem stem' : String} {k k' : Nat} (plain : Digitless stem)
    (plain' : Digitless stem') (same : stem ++ toString k = stem' ++ toString k') :
    stem = stem' ∧ k = k' := by
  obtain ⟨stems,numbers⟩ := filter_numbered plain k
  obtain ⟨stems',numbers'⟩ := filter_numbered plain' k'
  rw [same] at stems numbers
  refine ⟨String.toList_inj.mp (stems.symm.trans stems'),?_⟩
  have digits : Nat.toDigits 10 k = Nat.toDigits 10 k' := by
    simpa only [Nat.toString_eq_repr,Nat.toList_repr] using numbers.symm.trans numbers'
  simpa using congrArg (Nat.ofDigitChars 10 · 0) digits

namespace Assembly

@[simp] theorem labelsIn_nil : labelsIn [] = [] := rfl

@[simp] theorem labelsIn_append (lines rest : List Line) :
    labelsIn (lines ++ rest) = labelsIn lines ++ labelsIn rest := List.filterMap_append

@[simp] theorem labelsIn_label (name : String) (rest : List Line) :
    labelsIn (.label name :: rest) = name :: labelsIn rest := rfl

@[simp] theorem labelsIn_instruction (i : Instruction) (rest : List Line) :
    labelsIn (.instruction i :: rest) = labelsIn rest := rfl

@[simp] theorem labelsIn_code (instructions : List Instruction) :
    labelsIn (code instructions) = [] := by
  induction instructions with
  | nil => rfl
  | cons i rest ih => exact ih

@[simp] theorem labelsIn_block (lines : List Line) : labelsIn (block lines) = labelsIn lines := by
  by_cases empty : lines = []
  · subst empty; rfl
  · rw [block_eq empty]

/-- Labels with the numbers from `lo` on, one for each stem. -/
def numbered (lo : Nat) : List String → List String
  | [] => []
  | stem :: rest => (stem ++ toString lo) :: numbered (lo + 1) rest

theorem numbered_append (lo : Nat) (stems rest : List String) :
    numbered lo (stems ++ rest) = numbered lo stems ++ numbered (lo + stems.length) rest := by
  induction stems generalizing lo with
  | nil => rfl
  | cons stem stems ih =>
    simp only [List.cons_append,numbered,ih,List.length_cons]
    rw [Nat.add_right_comm,Nat.add_assoc]

theorem of_mem_numbered {lo : Nat} {stems : List String} {label : String}
    (member : label ∈ numbered lo stems) :
    ∃ stem ∈ stems, ∃ k, lo ≤ k ∧ k < lo + stems.length ∧ label = stem ++ toString k := by
  induction stems generalizing lo with
  | nil => cases member
  | cons stem rest ih =>
    rcases List.mem_cons.mp member with rfl | later
    · exact ⟨stem,List.mem_cons_self,lo,Nat.le_refl lo,by simp,rfl⟩
    · obtain ⟨other,among,k,low,high,rfl⟩ := ih later
      refine ⟨other,List.mem_cons_of_mem _ among,k,by omega,?_,rfl⟩
      rw [List.length_cons]
      omega

theorem nodup_numbered {stems : List String} (plain : ∀ stem ∈ stems, Digitless stem) (lo : Nat) :
    (numbered lo stems).Nodup := by
  induction stems generalizing lo with
  | nil => exact .nil
  | cons stem rest ih =>
    obtain ⟨first,plain⟩ := List.forall_mem_cons.mp plain
    refine List.nodup_cons.mpr ⟨fun member => ?_,ih plain (lo + 1)⟩
    obtain ⟨other,among,k,low,-,same⟩ := of_mem_numbered member
    have number := (numbered_inj first (plain other among) same).2
    omega

end Assembly

open Assembly

theorem labelsIn_branchLines (endLabel : String) (branches : List (BranchHead × Code)) :
    labelsIn (Code.branchLines endLabel branches) =
      branches.flatMap fun b => b.1.label :: labelsIn b.2.lines := by
  induction branches with
  | nil => rfl
  | cons b rest ih => simp [Code.branchLines,ih]

theorem labelsIn_tests (none : Prop) [Decidable none] (tests : List (Nat × String)) :
    labelsIn (if none then [] else block (Code.testLines tests)) = [] := by
  split <;> simp [Code.testLines]

/-- Labels that are, in some order, those drawn while the counter went from `lo` to `hi`. -/
def Numbers (lo hi : Nat) (labels : List String) : Prop :=
  ∃ stems, (∀ stem ∈ stems, stem ∈ labelStems) ∧ hi = lo + stems.length ∧
    labels.Perm (numbered lo stems)

namespace Numbers

variable {lo mid hi : Nat} {labels others : List String}

theorem nil (lo : Nat) : Numbers lo lo [] := ⟨[],by simp,rfl,.nil⟩

theorem append (first : Numbers lo mid labels) (second : Numbers mid hi others) :
    Numbers lo hi (labels ++ others) := by
  obtain ⟨stems,known,rfl,same⟩ := first
  obtain ⟨rest,known',rfl,same'⟩ := second
  refine ⟨stems ++ rest,?_,by simp [Nat.add_assoc],?_⟩
  · exact List.forall_mem_append.mpr ⟨known,known'⟩
  · rw [numbered_append]
    exact same.append same'

theorem perm (drawn : Numbers lo hi labels) (same : others.Perm labels) : Numbers lo hi others := by
  obtain ⟨stems,known,count,order⟩ := drawn
  exact ⟨stems,known,count,same.trans order⟩

theorem single (lo : Nat) {stem : String} (known : stem ∈ labelStems) :
    Numbers lo (lo + 1) [stem ++ toString lo] := ⟨[stem],by simpa using known,rfl,.refl _⟩

theorem nodup (drawn : Numbers lo hi labels) : labels.Nodup := by
  obtain ⟨stems,known,-,same⟩ := drawn
  exact same.nodup_iff.mpr
    (nodup_numbered (fun stem among => digitless_of_labelStems stem (known stem among)) lo)

theorem of_mem (drawn : Numbers lo hi labels) {label : String} (member : label ∈ labels) :
    ∃ stem ∈ labelStems, ∃ k, lo ≤ k ∧ k < hi ∧ label = stem ++ toString k := by
  obtain ⟨stems,known,rfl,same⟩ := drawn
  obtain ⟨stem,among,number⟩ := of_mem_numbered (same.mem_iff.mp member)
  exact ⟨stem,known stem among,number⟩

end Numbers

theorem string_labels {value : Bytes} {s t : Supply} {label : String}
    (drawn : LowerM.string value s = .ok label t) : t.labels = s.labels := by
  cases drawn
  rfl

theorem constant_labels {value : Constant} {s t : Supply} {label : String}
    (drawn : LowerM.constant value s = .ok label t) : t.labels = s.labels := by
  cases value with
  | int value => cases drawn; rfl
  | string value => exact string_labels drawn
  | bool value => cases drawn; rfl

/-- Draws a label. -/
theorem Numbers.draw {lo : Nat} {s : Supply} {labels : List String}
    (drawn : Numbers lo s.labels labels) {stem : String} (known : stem ∈ labelStems) :
    Numbers lo (s.newLabel stem).2.labels (labels ++ [(s.newLabel stem).1]) :=
  drawn.append (.single s.labels known)

/-- The labels that code defines are drawn for it. -/
def OwnLabels (s : Supply) (code : Code) (t : Supply) : Prop :=
  Numbers s.labels t.labels (labelsIn code.lines)

namespace OwnLabels

variable {s t : Supply} {codes : List Code}

theorem linesOf (chain : Chain OwnLabels s codes t) :
    Numbers s.labels t.labels (labelsIn (Code.linesOf codes)) := by
  induction chain with
  | nil => exact .nil _
  | cons first _ ih => simpa [Code.linesOf] using Numbers.append first ih

theorem pushLines (chain : Chain OwnLabels s codes t) :
    Numbers s.labels t.labels (labelsIn (Code.pushLines codes)) := by
  induction chain with
  | nil => exact .nil _
  | cons first _ ih => simpa [Code.pushLines] using Numbers.append first ih

theorem branches {tests : List (Nat × String)} {branches : List (BranchHead × Code)}
    (chain : BranchChain OwnLabels s tests branches t) :
    Numbers s.labels t.labels (branches.flatMap fun b => b.1.label :: labelsIn b.2.lines) := by
  induction chain with
  | nil => exact .nil _
  | cons tags slot first _ ih =>
    have drawn := ((Numbers.nil _).draw (by decide : "branch" ∈ labelStems)).append first
    simpa using drawn.append ih

end OwnLabels

theorem ownLabels (classes : ClassTable) : LoweringInvariant classes OwnLabels where
  literal value drawn := by
    rw [OwnLabels,constant_labels drawn]
    exact .nil _
  void s := .nil _
  self s := .nil _
  var s source := .nil _
  store target barrier inner := by simpa [OwnLabels,Code.lines] using inner
  arithmetic _ first second := by simpa [OwnLabels,Code.lines] using Numbers.append first second
  negate inner := by simpa [OwnLabels,Code.lines] using inner
  compare op first second := by
    simpa [OwnLabels,Code.lines] using
      (Numbers.append first second).draw (by decide : "compare" ∈ labelStems)
  equality first second := by
    simpa [OwnLabels,Code.lines] using
      (Numbers.append first second).draw (by decide : "eq" ∈ labelStems)
  predicate kind inner := by
    have known : kind.template ∈ labelStems := by cases kind <;> decide
    simpa [OwnLabels,Code.lines] using Numbers.draw inner known
  cond first second third := by
    have drawn := (((Numbers.append first second).append third).draw
      (by decide : "else" ∈ labelStems)).draw (by decide : "endif" ∈ labelStems)
    refine drawn.perm (List.perm_iff_count.mpr fun label => ?_)
    simp only [Code.lines,labelsIn_append,labelsIn_block,labelsIn_code,labelsIn_label,labelsIn_nil,
      List.count_append,List.count_cons,List.count_nil]
    omega
  loop first second := by
    have drawn := ((Numbers.append first second).draw (by decide : "while" ∈ labelStems)).draw
      (by decide : "pool" ∈ labelStems)
    refine drawn.perm (List.perm_iff_count.mpr fun label => ?_)
    simp only [Code.lines,labelsIn_append,labelsIn_block,labelsIn_code,labelsIn_label,labelsIn_nil,
      List.count_append,List.count_cons,List.count_nil]
    omega
  sequence inner := OwnLabels.linesOf inner
  letIn first second := by
    simpa [OwnLabels,Code.lines] using (OwnLabels.linesOf first).append second
  newObject s _ _ := .nil _
  newSelf s := .nil _
  dispatch offset source line first second drawn known := by
    rw [OwnLabels,string_labels drawn]
    simpa [Code.lines,Code.checkVoid] using
      ((OwnLabels.pushLines first).append second).draw (by decide : "dispatch" ∈ labelStems)
  caseOf source line first drawn second := by
    have site := Numbers.draw first (by decide : "case" ∈ labelStems)
    rw [← string_labels drawn] at site
    have whole := (site.draw (by decide : "esac" ∈ labelStems)).append
      (OwnLabels.branches second)
    refine whole.perm (List.perm_iff_count.mpr fun label => ?_)
    simp only [Code.lines,Code.checkVoid,labelsIn_append,labelsIn_block,labelsIn_code,
      labelsIn_label,labelsIn_nil,labelsIn_tests,labelsIn_branchLines,List.count_append,
      List.count_cons,List.count_nil]
    omega

end CoolBackend
