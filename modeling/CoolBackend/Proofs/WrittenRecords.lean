import CoolBackend.Proofs.ReadRecords
import CoolBackend.Proofs.RoundTrip

/-!
The item of a record is within bounds when its texts and lists are. It nests one level deeper than
the deepest of its fields, and as every record has a position, a record without anything else inside
it still takes two levels. Expressions all have the same form in their records: a receiver, operands
and bindings.
-/
namespace CoolBackend

namespace Cbor

theorem itemsDepth_le {items : List Item} {levels : Nat}
    (each : ∀ item ∈ items, item.depth ≤ levels) : itemsDepth items ≤ levels := by
  induction items with
  | nil => exact Nat.zero_le _
  | cons item rest ih =>
    obtain ⟨first,later⟩ := List.forall_mem_cons.mp each
    have := ih later
    rw [itemsDepth]
    omega

theorem Item.Within.mono {levels more : Nat} {item : Item} (within : item.Within levels)
    (fewer : levels ≤ more) : item.Within more :=
  ⟨within.sized,Nat.le_trans within.depth fewer⟩

theorem within_array {levels : Nat} {items : List Item} (few : items.length ≤ maxElements)
    (each : ∀ item ∈ items, item.Within levels) : (Item.array items).Within (levels + 1) := by
  refine ⟨.array few fun item member => (each item member).sized,?_⟩
  rw [Item.depth]
  exact Nat.succ_le_succ (itemsDepth_le fun item member => (each item member).depth)

end Cbor

namespace Wire

open Cbor

section Slots

variable {levels : Nat}

theorem within_ofBytes {content : Bytes} (short : content.length < 2 ^ 64) :
    (Item.ofBytes content).Within levels :=
  ⟨.text (by simpa using short),by simp [Item.ofBytes,Item.depth]⟩

theorem within_ofText {s : String} (storable : (Bytes.ofText s).Storable) :
    (Item.ofText s).Within levels := within_ofBytes storable.short

theorem within_ofInt (n : Int) : (Item.ofInt n).Within levels := by
  cases n with
  | ofNat n => exact ⟨.uint n,by simp [Item.ofInt,Item.depth]⟩
  | negSucc n => exact ⟨.negative n,by simp [Item.ofInt,Item.depth]⟩

theorem within_simple (n : Nat) : (Item.simple n).Within levels := ⟨.simple n,by simp [Item.depth]⟩

def WithinSlot (levels : Nat) (value : Option Item) : Prop :=
  ∀ item, value = some item → item.Within levels

theorem withinSlot_some {item : Item} (within : item.Within levels) :
    WithinSlot levels (some item) := by
  rintro _ ⟨⟩
  exact within

theorem withinSlot_filled {empty : Bool} {item : Item}
    (within : empty = false → item.Within levels) : WithinSlot levels (filled empty item) := by
  cases empty with
  | true => rintro _ ⟨⟩
  | false => exact withinSlot_some (within rfl)

def fieldNames : List String :=
  exprFields ++ ["line","col","expr","init","formals","ret","body","file","parent","attrs",
    "methods","classes"]

theorem fieldNames_short : ∀ name ∈ fieldNames, (Bytes.ofText name).length < 2 ^ 64 := by decide

theorem within_written {slots : Slots} (known : ∀ slot ∈ slots, slot.1 ∈ fieldNames)
    (each : ∀ slot ∈ slots, WithinSlot levels slot.2) :
    (Item.map (written slots)).Within (levels + 1) := by
  have inside {e : Entry} (member : e ∈ written slots) :
      e.1.Within 0 ∧ e.2.Within levels := by
    obtain ⟨⟨name,item⟩,there,rfl⟩ := List.mem_map.mp member
    have slot := mem_present.mp there
    exact ⟨within_ofBytes (fieldNames_short _ (known _ slot)),each _ slot item rfl⟩
  refine ⟨.map (fun e member => (inside member).1.sized) fun e member => (inside member).2.sized,?_⟩
  rw [Item.depth,entriesDepth_eq]
  refine Nat.succ_le_succ (itemsDepth_le fun item member => ?_)
  obtain ⟨e,there,part⟩ := List.mem_flatMap.mp member
  rcases List.mem_cons.mp part with rfl | part
  · exact Nat.le_trans (inside there).1.depth (Nat.zero_le _)
  · rw [List.mem_singleton.mp part]
    exact (inside there).2.depth

theorem within_list {α : Type} {toItem : α → Item} {xs : List α} (few : xs.length ≤ maxElements)
    (each : ∀ x ∈ xs, (toItem x).Within levels) :
    (Item.array (xs.map toItem)).Within (levels + 1) :=
  within_array (by simpa using few) (List.forall_mem_map.mpr each)

theorem within_orNull {α : Type} {toItem : α → Item} {entry : Option α}
    (each : ∀ a, entry = some a → (toItem a).Within levels) :
    (orNull toItem entry).Within levels := by
  cases entry with
  | none => exact within_simple 22
  | some a => exact each a rfl

end Slots

section Records

variable {levels : Nat}

theorem Pos.within (pos : Pos) (positive : 0 < levels) : pos.toItem.Within levels := by
  obtain ⟨levels,rfl⟩ := Nat.exists_eq_succ_of_ne_zero (Nat.ne_of_gt positive)
  rw [toItem_eq]
  refine within_written (by simp [slots,fieldNames]) ?_
  simp only [slots,List.forall_mem_cons]
  exact ⟨withinSlot_filled fun _ => within_ofInt _,withinSlot_filled fun _ => within_ofInt _,
    List.forall_mem_nil _⟩

theorem within_bindingItem {key : String} (known : key ∈ fieldNames) {b : Binder}
    (storable : b.Storable) {e : Expr} (positive : 0 < levels)
    (expr : e.isNull = false → e.toItem.Within levels) :
    (bindingItem key (b,e)).Within (levels + 1) := by
  refine within_written ?_ ?_
  · simp only [bindingSlots,List.forall_mem_cons]
    exact ⟨by decide,known,by decide,by decide,List.forall_mem_nil _⟩
  · simp only [bindingSlots,List.forall_mem_cons]
    exact ⟨withinSlot_some (b.pos.within positive),withinSlot_filled expr,
      withinSlot_some (within_ofText storable.name),withinSlot_some (within_ofText storable.type),
      List.forall_mem_nil _⟩

theorem Expr.within_toItem {f : Fields} {receiver : Expr} {kids : List Expr}
    {bindings : List (Option (Binder × Expr))} (positive : 0 < levels) (storable : f.Storable)
    (fewKids : kids.length ≤ maxElements) (fewBindings : bindings.length ≤ maxElements)
    (onReceiver : receiver.isNull = false → receiver.toItem.Within levels)
    (eachKid : ∀ kid ∈ kids, kid.toItem.Within (levels - 1))
    (room : bindings ≠ [] → 2 < levels) (eachBinding : ∀ b e, some (b,e) ∈ bindings →
      b.Storable ∧ (e.isNull = false → e.toItem.Within (levels - 2))) :
    (Expr.node f receiver kids bindings).toItem.Within (levels + 1) := by
  have text (s : String) (member : s ∈ f.texts) :
      WithinSlot levels (filled (s = "") (Item.ofText s)) :=
    withinSlot_filled fun _ => within_ofText (storable.texts s member)
  have operands : (Item.array (kids.map Expr.toItem)).Within levels := by
    obtain ⟨levels,rfl⟩ := Nat.exists_eq_succ_of_ne_zero (Nat.ne_of_gt positive)
    exact within_list fewKids eachKid
  have locals (some : bindings.isEmpty = false) :
      (Item.array (bindings.map (orNull (bindingItem "expr")))).Within levels := by
    have deep := room (List.isEmpty_eq_false_iff.mp some)
    obtain ⟨levels,rfl⟩ : ∃ n, levels = n + 2 := ⟨levels - 2,by omega⟩
    refine within_list fewBindings fun binding member => within_orNull fun (b,e) same => ?_
    obtain ⟨binder,expr⟩ := eachBinding b e (same ▸ member)
    exact within_bindingItem (by decide) binder (by omega) expr
  rw [Expr.toItem_node]
  refine within_written (by simp [slots,fieldNames,exprFields]) ?_
  simp only [slots,List.forall_mem_cons]
  exact ⟨text _ (by simp [Fields.texts]),withinSlot_filled fun _ => within_ofInt _,
    withinSlot_some (f.pos.within positive),
    withinSlot_filled fun _ => within_ofBytes storable.str.short,
    withinSlot_filled fun _ => within_simple _,withinSlot_filled fun _ => operands,
    withinSlot_some (within_ofText (storable.texts _ (by simp [Fields.texts]))),
    text _ (by simp [Fields.texts]),withinSlot_filled onReceiver,text _ (by simp [Fields.texts]),
    text _ (by simp [Fields.texts]),text _ (by simp [Fields.texts]),withinSlot_filled locals,
    List.forall_mem_nil _⟩

theorem Binder.Storable.within {b : Binder} (storable : b.Storable) : b.toItem.Within 2 := by
  rw [toItem_eq]
  refine within_written (by simp [slots,fieldNames,exprFields]) ?_
  simp only [slots,List.forall_mem_cons]
  exact ⟨withinSlot_some (b.pos.within Nat.one_pos),withinSlot_some (within_ofText storable.name),
    withinSlot_some (within_ofText storable.type),List.forall_mem_nil _⟩

/-- The formals of a method take three levels by themselves. -/
theorem Method.within_toItem {m : Method} (room : 3 ≤ levels)
    (name : (Bytes.ofText m.name).Storable) (returnType : (Bytes.ofText m.returnType).Storable)
    (fewFormals : m.formals.length ≤ maxElements) (formals : ∀ b, some b ∈ m.formals → b.Storable)
    (body : m.body.toItem.Within levels) : m.toItem.Within (levels + 1) := by
  have parameters : (Item.array (m.formals.map (orNull Binder.toItem))).Within 3 := by
    refine within_list fewFormals fun formal member => within_orNull fun b same => ?_
    exact (formals b (same ▸ member)).within
  rw [toItem_eq]
  refine within_written (by simp [slots,fieldNames,exprFields]) ?_
  simp only [slots,List.forall_mem_cons]
  exact ⟨withinSlot_some (m.pos.within (by omega)),withinSlot_some (within_ofText returnType),
    withinSlot_some body,withinSlot_some (within_ofText name),
    withinSlot_filled fun _ => parameters.mono room,List.forall_mem_nil _⟩

theorem Class.within_toItem {c : Class} (room : 0 < levels) (file : c.file.Storable)
    (name : (Bytes.ofText c.name).Storable) (parent : (Bytes.ofText c.parent).Storable)
    (fewAttributes : c.attributes.length ≤ maxElements)
    (attributes : ∀ b e, some (b,e) ∈ c.attributes →
      b.Storable ∧ (e.isNull = false → e.toItem.Within levels))
    (fewMethods : c.methods.length ≤ maxElements)
    (methods : ∀ m, some m ∈ c.methods → m.toItem.Within (levels + 1)) :
    c.toItem.Within (levels + 3) := by
  have declared : (Item.array (c.attributes.map (orNull (bindingItem "init")))).Within
      (levels + 2) := by
    refine within_list fewAttributes fun _ member => within_orNull fun (b,e) same => ?_
    obtain ⟨binder,init⟩ := attributes b e (same ▸ member)
    exact within_bindingItem (by decide) binder room init
  have defined : (Item.array (c.methods.map (orNull Method.toItem))).Within (levels + 2) :=
    within_list fewMethods fun _ member => within_orNull fun m same => methods m (same ▸ member)
  rw [toItem_eq]
  refine within_written (by simp [slots,fieldNames,exprFields]) ?_
  simp only [slots,List.forall_mem_cons]
  exact ⟨withinSlot_some (c.pos.within (by omega)),
    withinSlot_filled fun _ => within_ofBytes file.short,withinSlot_some (within_ofText name),
    withinSlot_filled fun _ => declared,withinSlot_filled fun _ => within_ofText parent,
    withinSlot_filled fun _ => defined,List.forall_mem_nil _⟩

theorem Program.within_toItem {p : Program} (few : p.classes.length ≤ maxElements)
    (classes : ∀ c, some c ∈ p.classes → c.toItem.Within levels) :
    p.toItem.Within (levels + 2) := by
  have item : p.classItem.Within (levels + 1) := by
    rw [classItem]
    split
    · exact within_simple 22
    · exact within_list few fun _ member => within_orNull fun c same => classes c (same ▸ member)
  rw [p.toItem_eq]
  refine within_written (by simp [fieldNames]) ?_
  exact List.forall_mem_singleton.mpr (withinSlot_some item)

end Records

/-- The names of scopes and the symbols of operators. -/
theorem storable_fixed {s : String} (member : s ∈ ["","attribute","formal","local","unknown","+",
    "-","*","/","?","<","<="]) : (Bytes.ofText s).Storable := by
  refine ⟨by rw [Bytes.toText?_ofText]; rfl,?_⟩
  revert s
  decide

theorem storable_kind (kind : Kind) : (Bytes.ofText kind.name).Storable := by
  cases kind <;> exact ⟨by decide,by decide⟩

theorem storable_scope (scope : Scope) : (Bytes.ofText scope.name).Storable :=
  storable_fixed (by cases scope <;> simp [Scope.name])

theorem storable_arith (op : ArithOp) : (Bytes.ofText op.symbol).Storable :=
  storable_fixed (by cases op <;> simp [ArithOp.symbol])

theorem storable_compare (op : RelOp) : (Bytes.ofText op.symbol).Storable :=
  storable_fixed (by cases op <;> simp [RelOp.symbol])

theorem storable_fields {f : Fields} (k : Kind) (kind : f.kind = k.name)
    (type : (Bytes.ofText f.type).Storable) (name : (Bytes.ofText f.name).Storable)
    (scope : (Bytes.ofText f.scope).Storable) (op : (Bytes.ofText f.op).Storable)
    (className : (Bytes.ofText f.className).Storable) (str : f.str.Storable) : f.Storable := by
  refine ⟨?_,str⟩
  simp only [Fields.texts,List.forall_mem_cons]
  exact ⟨kind ▸ storable_kind k,type,name,scope,op,className,List.forall_mem_nil _⟩

theorem storable_blank : (Bytes.ofText "").Storable := Bytes.storable_nil

/-- Most kinds have neither names nor a code. -/
theorem storable_of {kind : Kind} {info : Info} (type : (Bytes.ofText info.type).Storable) :
    (Fields.of kind info).Storable :=
  storable_fields kind rfl type storable_blank storable_blank storable_blank storable_blank
    Bytes.storable_nil

/-- The record of an expression. Its fields can be held if what the expression holds can be. -/
theorem ofExpr_eq {e : CoolBackend.Expr} (present : e.isAbsent = false) :
    ∃ f : Fields, ofExpr e = .node f (ofExpr e.receiver) (e.operands.map ofExpr)
        (ofBindings e.bindings) ∧
      ((Bytes.ofText e.staticType).Storable → (∀ s ∈ e.names, (Bytes.ofText s).Storable) →
        e.content.Storable → f.Storable) := by
  have blank := storable_blank
  cases e with
  | absent => cases present
  | constant info value =>
    cases value with
    | int value => exact ⟨_,rfl,fun type _ content =>
        storable_fields .int rfl type blank blank blank blank content⟩
    | string value => exact ⟨_,rfl,fun type _ content =>
        storable_fields .string rfl type blank blank blank blank content⟩
    | bool value => exact ⟨_,rfl,fun type _ content =>
        storable_fields .bool rfl type blank blank blank blank content⟩
  | ident info name scope =>
    exact ⟨_,rfl,fun type names content => storable_fields .ident rfl type (names name (.head _))
      (storable_scope scope) blank blank content⟩
  | assign info name scope value =>
    exact ⟨_,rfl,fun type names content => storable_fields .assign rfl type (names name (.head _))
      (storable_scope scope) blank blank content⟩
  | binary info op left right =>
    cases op with
    | arith op => exact ⟨_,rfl,fun type _ content =>
        storable_fields .arith rfl type blank blank (storable_arith op) blank content⟩
    | compare op => exact ⟨_,rfl,fun type _ content =>
        storable_fields .compare rfl type blank blank (storable_compare op) blank content⟩
    | equal => exact ⟨_,rfl,fun type _ _ => storable_of type⟩
  | block info exprs =>
    exact ⟨_,by rw [ofExpr,ofExprs_eq]; rfl,fun type _ _ => storable_of type⟩
  | new info className =>
    exact ⟨_,rfl,fun type names content => storable_fields .new rfl type blank blank blank
      (names className (.head _)) content⟩
  | dispatch info receiver staticClass method args =>
    exact ⟨_,by rw [ofExpr,ofExprs_eq]; rfl,fun type names content =>
      storable_fields .dispatch rfl type (names method (.head _)) blank blank
        (names staticClass (.tail _ (.head _))) content⟩
  | _ => exact ⟨_,rfl,fun type _ _ => storable_of type⟩

end Wire

end CoolBackend
