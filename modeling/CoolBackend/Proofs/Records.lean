import CoolBackend.Proofs.Expressions
import CoolBackend.Proofs.Slots

/-!
Every record that is written is read back as it was, if its texts are valid, its lists within bounds
and it does not nest too deep. If one of these fails, reading stops: it never gives another record.
-/
namespace CoolBackend.Wire

open Cbor

def Pos.slots (pos : Pos) : Slots :=
  [("col",filled (pos.column = 0) (Item.ofInt pos.column.toInt)),
    ("line",filled (pos.line = 0) (Item.ofInt pos.line.toInt))]

theorem Pos.toItem_eq (pos : Pos) : pos.toItem = .map (written pos.slots) := by
  simp [slots,toItem]

variable {sound : Prop}

theorem readPos_toItem (pos : Pos) : Gives sound (readPos pos.toItem) pos := by
  have distinct : (pos.slots.map Prod.fst).Nodup := by simp [Pos.slots]
  have line : Gives sound (field (present pos.slots) "line" readInt64 0) pos.line :=
    field_filled distinct (List.mem_of_getElem? (i := 1) rfl) (by simp +contextual)
      fun _ => readInt64_ofInt _
  have column : Gives sound (field (present pos.slots) "col" readInt64 0) pos.column :=
    field_filled distinct (List.mem_of_getElem? (i := 0) rfl) (by simp +contextual)
      fun _ => readInt64_ofInt _
  rw [readPos,pos.toItem_eq,readFields_written distinct (by simp [Pos.slots])]
  exact line.bind (column.bind (.inl rfl))

def bindingSlots (key : String) (b : Binder) (e : Expr) : Slots :=
  [("pos",some b.pos.toItem),(key,filled e.isNull e.toItem),("name",some (Item.ofText b.name)),
    ("type",some (Item.ofText b.type))]

def bindingItem (key : String) (binding : Binder × Expr) : Item :=
  .map (written (bindingSlots key binding.1 binding.2))

theorem bindingItem_eq (key : String) (b : Binder) (e : Expr) :
    bindingItem key (b,e) = .map (b.entries (entryUnless e.isNull key e.toItem)) := by
  simp [bindingItem,bindingSlots,Binder.entries]

theorem Expr.eq_null {e : Expr} (null : e.isNull = true) : Expr.null = e := by
  cases e with
  | null => rfl
  | node => cases null

theorem binderOf_present {slots : Slots} (distinct : (slots.map Prod.fst).Nodup) {b : Binder}
    (pos : ("pos",some b.pos.toItem) ∈ slots) (name : ("name",some (Item.ofText b.name)) ∈ slots)
    (type : ("type",some (Item.ofText b.type)) ∈ slots) :
    Gives sound (binderOf (present slots)) b := by
  have pos : Gives sound (field (present slots) "pos" readPos {}) b.pos :=
    field_some distinct pos (readPos_toItem _)
  have name : Gives sound (field (present slots) "name" readText "") b.name :=
    field_some distinct name (readText_ofText _)
  have type : Gives sound (field (present slots) "type" readText "") b.type :=
    field_some distinct type (readText_ofText _)
  exact pos.bind (name.bind (type.bind (.inl rfl)))

theorem readBinding_bindingItem {key : String} (other : key ∉ ["pos","name","type"])
    {readExpr : Item → Except Fault Expr} {b : Binder} {e : Expr}
    (reads : e.isNull = false → Gives sound (readExpr e.toItem) e) :
    Gives sound (readBinding key readExpr (bindingItem key (b,e))) (b,e) := by
  have distinct : ((bindingSlots key b e).map Prod.fst).Nodup := by
    simp only [List.mem_cons,List.not_mem_nil,or_false,not_or] at other
    simp only [bindingSlots,List.map_cons,List.map_nil]
    grind
  have expr : Gives sound (field (present (bindingSlots key b e)) key readExpr .null) e :=
    field_filled distinct (List.mem_of_getElem? (i := 1) rfl) Expr.eq_null reads
  have binder : Gives sound (binderOf (present (bindingSlots key b e))) b :=
    binderOf_present distinct (by simp [bindingSlots]) (by simp [bindingSlots])
      (by simp [bindingSlots])
  rw [readBinding,bindingItem,readFields_written distinct (by simp [bindingSlots])]
  exact binder.bind (expr.bind (.inl rfl))

theorem itemsOf_eq (kids : List Expr) : itemsOf kids = kids.map Expr.toItem := by
  induction kids with
  | nil => rfl
  | cons kid kids ih => rw [itemsOf,ih,List.map_cons]

theorem bindingsOf_eq (bindings : List (Option (Binder × Expr))) :
    bindingsOf bindings = bindings.map (orNull (bindingItem "expr")) := by
  induction bindings with
  | nil => rfl
  | cons binding bindings ih =>
    cases binding with
    | none => rw [bindingsOf,ih,List.map_cons,orNull]
    | some binding =>
      obtain ⟨b,e⟩ := binding
      rw [bindingsOf,ih,List.map_cons,orNull,bindingItem_eq]

def Expr.slots (f : Fields) (receiver : Expr) (kids : List Expr)
    (bindings : List (Option (Binder × Expr))) : Slots :=
  [("op",filled (f.op = "") (Item.ofText f.op)),
    ("int",filled (f.int = 0) (Item.ofInt f.int.toInt)),
    ("pos",some f.pos.toItem),
    ("str",filled f.str.isEmpty (Item.ofBytes f.str)),
    ("bool",filled (!f.bool) (Item.ofBool f.bool)),
    ("kids",filled kids.isEmpty (.array (kids.map Expr.toItem))),
    ("kind",some (Item.ofText f.kind)),
    ("name",filled (f.name = "") (Item.ofText f.name)),
    ("recv",filled receiver.isNull receiver.toItem),
    ("type",filled (f.type = "") (Item.ofText f.type)),
    ("class",filled (f.className = "") (Item.ofText f.className)),
    ("scope",filled (f.scope = "") (Item.ofText f.scope)),
    ("bindings",filled bindings.isEmpty (.array (bindings.map (orNull (bindingItem "expr")))))]

theorem Expr.toItem_node (f : Fields) (receiver : Expr) (kids : List Expr)
    (bindings : List (Option (Binder × Expr))) :
    (Expr.node f receiver kids bindings).toItem =
      .map (written (slots f receiver kids bindings)) := by
  simp [toItem,slots,textEntry,bytesEntry,listEntry,itemsOf_eq,bindingsOf_eq]

/-- Expressions that the format can hold: texts are valid, and lists within bounds. -/
inductive Expr.Fits : Expr → Prop
  | null : Fits .null
  | node {f : Fields} {receiver : Expr} {kids : List Expr}
      {bindings : List (Option (Binder × Expr))} (text : f.str.toText?.isSome)
      (fewKids : kids.length ≤ maxElements) (fewBindings : bindings.length ≤ maxElements)
      (onReceiver : receiver.Fits) (eachKid : ∀ kid ∈ kids, kid.Fits)
      (eachBinding : ∀ b e, some (b,e) ∈ bindings → e.Fits) :
      Fits (.node f receiver kids bindings)

section Expressions

variable {f : Fields} {receiver : Expr} {kids : List Expr}
  {bindings : List (Option (Binder × Expr))}

section Inversion

variable (fits : (Expr.node f receiver kids bindings).Fits)
include fits

theorem Expr.Fits.text : f.str.toText?.isSome := by
  cases fits; assumption

theorem Expr.Fits.fewKids : kids.length ≤ maxElements := by
  cases fits; assumption

theorem Expr.Fits.fewBindings : bindings.length ≤ maxElements := by
  cases fits; assumption

theorem Expr.Fits.onReceiver : receiver.Fits := by
  cases fits; assumption

theorem Expr.Fits.eachKid : ∀ kid ∈ kids, kid.Fits := by
  cases fits; assumption

theorem Expr.Fits.eachBinding : ∀ b e, some (b,e) ∈ bindings → e.Fits := by
  cases fits; assumption

end Inversion

abbrev Expr.given (f : Fields) (receiver : Expr) (kids : List Expr)
    (bindings : List (Option (Binder × Expr))) : List (String × Item) :=
  present (slots f receiver kids bindings)

theorem Expr.slots_distinct : ((slots f receiver kids bindings).map Prod.fst).Nodup := by
  simp [slots]

/-- A text of an expression that is left out when empty, by the place of its slot. -/
theorem Expr.readText_given (i : Nat) {name s : String}
    (there : (slots f receiver kids bindings)[i]? =
      some (name,filled (s = "") (Item.ofText s))) :
    Gives sound (field (given f receiver kids bindings) name readText "") s :=
  field_filled slots_distinct (List.mem_of_getElem? there) (by simp +contextual)
    fun _ => readText_ofText s

/-- One level of an expression is read back when what stands below it is. -/
theorem readExpr_node {fuel : Nat} (valid : sound → f.str.toText?.isSome)
    (onReceiver : receiver.isNull = false →
      Gives sound (readExpr fuel receiver.toItem) receiver)
    (eachKid : ∀ kid ∈ kids, Gives sound (readExpr fuel kid.toItem) kid)
    (eachBinding : ∀ b e, some (b,e) ∈ bindings → e.isNull = false →
      Gives sound (readExpr fuel e.toItem) e) :
    Gives sound (readExpr (fuel + 1) (Expr.node f receiver kids bindings).toItem)
      (.node f receiver kids bindings) := by
  have kind : Gives sound (field (Expr.given f receiver kids bindings) "kind" readText "") f.kind :=
    field_some Expr.slots_distinct (by simp [Expr.slots]) (readText_ofText _)
  have pos : Gives sound (field (Expr.given f receiver kids bindings) "pos" readPos {}) f.pos :=
    field_some Expr.slots_distinct (by simp [Expr.slots]) (readPos_toItem _)
  have int : Gives sound (field (Expr.given f receiver kids bindings) "int" readInt32 0) f.int :=
    field_filled Expr.slots_distinct (List.mem_of_getElem? (i := 1) rfl) (by simp +contextual)
      fun _ => readInt32_ofInt _
  have str : Gives sound (field (Expr.given f receiver kids bindings) "str" readBytes []) f.str :=
    field_filled Expr.slots_distinct (List.mem_of_getElem? (i := 3) rfl) (by simp +contextual)
      fun _ => readBytes_ofBytes valid
  have bool : Gives sound (field (Expr.given f receiver kids bindings) "bool" readBool false)
      f.bool :=
    field_filled Expr.slots_distinct (List.mem_of_getElem? (i := 4) rfl) (by simp +contextual)
      fun _ => readBool_ofBool _
  have recv : Gives sound (field (Expr.given f receiver kids bindings) "recv" (readExpr fuel) .null)
      receiver :=
    field_filled Expr.slots_distinct (List.mem_of_getElem? (i := 8) rfl) Expr.eq_null onReceiver
  have operands : Gives sound (field (Expr.given f receiver kids bindings) "kids"
      (readList (readExpr fuel)) []) kids :=
    field_filled Expr.slots_distinct (List.mem_of_getElem? (i := 5) rfl) (by simp +contextual)
      fun _ => readList_map eachKid
  have locals : Gives sound (field (Expr.given f receiver kids bindings) "bindings"
      (readList (readEntry (readBinding "expr" (readExpr fuel)))) []) bindings := by
    refine field_filled Expr.slots_distinct (List.mem_of_getElem? (i := 12) rfl)
      (by simp +contextual) fun _ => readList_map fun entry member => ?_
    refine readEntry_orNull (fun _ => rfl) fun binding some => ?_
    exact readBinding_bindingItem (by decide) (eachBinding _ _ (some ▸ member))
  have known : ∀ slot ∈ Expr.slots f receiver kids bindings, slot.1 ∈ exprFields := by
    simp [Expr.slots,exprFields]
  rw [Expr.toItem_node,readExpr,if_neg (by simp [Item.isNull]),
    readFields_written Expr.slots_distinct known]
  -- The texts that may be left out: type, name, scope, operator and class.
  refine kind.bind <| (Expr.readText_given 9 rfl).bind <| pos.bind <| int.bind <| str.bind <|
    bool.bind <| (Expr.readText_given 7 rfl).bind <| (Expr.readText_given 11 rfl).bind <|
    (Expr.readText_given 0 rfl).bind <| (Expr.readText_given 10 rfl).bind <| recv.bind <|
    operands.bind <| locals.bind <| .inl rfl

end Expressions

/-- An expression is read back from its record. -/
theorem Expr.reads (e : Expr) (fits : sound → e.Fits) :
    ∀ fuel, (sound → e.toItem.depth < fuel) → Gives sound (readExpr fuel e.toItem) e := by
  induction e using Expr.induct with
  | null =>
    intro fuel deep
    cases fuel with
    | zero => exact .inr ⟨fun holds => Nat.not_lt_zero _ (deep holds),.tooDeep,rfl⟩
    | succ fuel => exact .inl rfl
  | node f receiver kids bindings onReceiver eachKid eachBinding =>
    intro fuel deep
    cases fuel with
    | zero => exact .inr ⟨fun holds => Nat.not_lt_zero _ (deep holds),.tooDeep,rfl⟩
    | succ fuel =>
      rw [Expr.toItem_node] at deep
      refine readExpr_node (fun holds => (fits holds).text) ?_ ?_ ?_
      · intro given
        have := depth_lt_filled (slots f receiver kids bindings) 8 rfl given
        exact onReceiver (fun holds => (fits holds).onReceiver) fuel fun holds => by
          have := deep holds
          omega
      · intro kid member
        have := depth_lt_filled (slots f receiver kids bindings) 5 rfl
          (List.isEmpty_eq_false_iff.mpr (List.ne_nil_of_mem member))
        have := depth_lt_array (List.mem_map_of_mem (f := Expr.toItem) member)
        exact eachKid kid member (fun holds => (fits holds).eachKid kid member) fuel fun holds => by
          have := deep holds
          omega
      · intro b e member given
        have := depth_lt_filled (slots f receiver kids bindings) 12 rfl
          (List.isEmpty_eq_false_iff.mpr (List.ne_nil_of_mem member))
        have := depth_lt_array (List.mem_map_of_mem (f := orNull (bindingItem "expr")) member)
        have : e.toItem.depth < (orNull (bindingItem "expr") (some (b,e))).depth :=
          depth_lt_filled _ 1 rfl given
        refine eachBinding b e member (fun holds => (fits holds).eachBinding b e member) fuel ?_
        intro holds
        have := deep holds
        omega

theorem Pos.plain (pos : Pos) : pos.toItem.Plain sound := by
  rw [toItem_eq]
  refine plain_written (by simp [slots,maxElements]) ?_
  simp only [slots,List.forall_mem_cons]
  exact ⟨plainSlot_filled (plain_ofInt pos.column.le_toInt pos.column.toInt_lt) _,
    plainSlot_filled (plain_ofInt pos.line.le_toInt pos.line.toInt_lt) _,List.forall_mem_nil _⟩

theorem plain_bindingItem (key : String) (b : Binder) {e : Expr} (plain : e.toItem.Plain sound) :
    (bindingItem key (b,e)).Plain sound := by
  refine plain_written (by simp [bindingSlots,maxElements]) ?_
  simp only [bindingSlots,List.forall_mem_cons]
  exact ⟨plainSlot_some b.pos.plain,plainSlot_filled plain _,plainSlot_some (plain_ofText _),
    plainSlot_some (plain_ofText _),List.forall_mem_nil _⟩

theorem Expr.plain (e : Expr) (fits : sound → e.Fits) : e.toItem.Plain sound := by
  induction e using Expr.induct with
  | null => exact plain_null
  | node f receiver kids bindings onReceiver eachKid eachBinding =>
    have operands : (Item.array (kids.map toItem)).Plain sound :=
      plain_list (fun holds => (fits holds).fewKids) fun kid member =>
        eachKid kid member fun holds => (fits holds).eachKid kid member
    have locals : (Item.array (bindings.map (orNull (bindingItem "expr")))).Plain sound := by
      refine plain_list (fun holds => (fits holds).fewBindings) fun binding member =>
        plain_orNull fun (b,e) some => ?_
      subst some
      exact plain_bindingItem "expr" b
        (eachBinding b e member fun holds => (fits holds).eachBinding b e member)
    have int : (Item.ofInt f.int.toInt).Plain sound := by
      have := f.int.le_toInt
      have := f.int.toInt_lt
      exact plain_ofInt (by omega) (by omega)
    have bool : (Item.ofBool f.bool).Plain sound := .simple (by cases f.bool <;> decide)
    have text (s : String) : PlainSlot sound (filled (s = "") (Item.ofText s)) :=
      plainSlot_filled (plain_ofText s) _
    rw [Expr.toItem_node]
    refine plain_written (by simp [Expr.slots,maxElements]) ?_
    simp only [Expr.slots,List.forall_mem_cons]
    exact ⟨text _,plainSlot_filled int _,plainSlot_some f.pos.plain,plainSlot_filled (.text _) _,
      plainSlot_filled bool _,plainSlot_filled operands _,plainSlot_some (plain_ofText _),text _,
      plainSlot_filled (onReceiver fun holds => (fits holds).onReceiver) _,text _,text _,text _,
      plainSlot_filled locals _,List.forall_mem_nil _⟩

def Binder.slots (b : Binder) : Slots :=
  [("pos",some b.pos.toItem),("name",some (Item.ofText b.name)),("type",some (Item.ofText b.type))]

theorem Binder.toItem_eq (b : Binder) : b.toItem = .map (written b.slots) := by
  simp [slots,toItem,entries]

theorem readBinder_toItem (b : Binder) : Gives sound (readBinder b.toItem) b := by
  have distinct : (b.slots.map Prod.fst).Nodup := by simp [Binder.slots]
  rw [readBinder,b.toItem_eq,readFields_written distinct (by simp [Binder.slots])]
  exact binderOf_present distinct (by simp [Binder.slots]) (by simp [Binder.slots])
    (by simp [Binder.slots])

theorem Binder.plain (b : Binder) : b.toItem.Plain sound := by
  rw [toItem_eq]
  refine plain_written (by simp [slots,maxElements]) ?_
  simp only [slots,List.forall_mem_cons]
  exact ⟨plainSlot_some b.pos.plain,plainSlot_some (plain_ofText _),
    plainSlot_some (plain_ofText _),List.forall_mem_nil _⟩

structure Method.Fits (m : Method) : Prop where
  formals : m.formals.length ≤ maxElements
  body : m.body.Fits

def Method.slots (m : Method) : Slots :=
  [("pos",some m.pos.toItem),("ret",some (Item.ofText m.returnType)),("body",some m.body.toItem),
    ("name",some (Item.ofText m.name)),
    ("formals",filled m.formals.isEmpty (.array (m.formals.map (orNull Binder.toItem))))]

theorem Method.toItem_eq (m : Method) : m.toItem = .map (written m.slots) := by
  simp [slots,toItem,listEntry]

theorem Method.reads (m : Method) (fits : sound → m.Fits)
    (nesting : sound → m.toItem.depth ≤ maxNesting) : Gives sound (readMethod m.toItem) m := by
  rw [m.toItem_eq] at nesting ⊢
  have distinct : (m.slots.map Prod.fst).Nodup := by simp [slots]
  have pos : Gives sound (field (present m.slots) "pos" readPos {}) m.pos :=
    field_some distinct (by simp [slots]) (readPos_toItem _)
  have name : Gives sound (field (present m.slots) "name" readText "") m.name :=
    field_some distinct (by simp [slots]) (readText_ofText _)
  have returnType : Gives sound (field (present m.slots) "ret" readText "") m.returnType :=
    field_some distinct (by simp [slots]) (readText_ofText _)
  have formals : Gives sound
      (field (present m.slots) "formals" (readList (readEntry readBinder)) []) m.formals := by
    refine field_filled distinct (List.mem_of_getElem? (i := 4) rfl) (by simp +contextual)
      fun _ => readList_map fun entry _ => ?_
    exact readEntry_orNull (fun _ => rfl) fun b _ => readBinder_toItem b
  have body : Gives sound (field (present m.slots) "body" readWholeExpr .null) m.body := by
    have member : ("body",some m.body.toItem) ∈ m.slots := by simp [slots]
    have := depth_lt_written member
    refine field_some distinct member (m.body.reads (fun holds => (fits holds).body) _ ?_)
    intro holds
    have := nesting holds
    omega
  rw [readMethod,readFields_written distinct (by simp [slots])]
  exact pos.bind (name.bind (formals.bind (returnType.bind (body.bind (.inl rfl)))))

theorem Method.plain (m : Method) (fits : sound → m.Fits) : m.toItem.Plain sound := by
  have formals : (Item.array (m.formals.map (orNull Binder.toItem))).Plain sound :=
    plain_list (fun holds => (fits holds).formals) fun _ _ => plain_orNull fun b _ => b.plain
  have body : m.body.toItem.Plain sound := m.body.plain fun holds => (fits holds).body
  rw [m.toItem_eq]
  refine plain_written (by simp [slots,maxElements]) ?_
  simp only [slots,List.forall_mem_cons]
  exact ⟨plainSlot_some m.pos.plain,plainSlot_some (plain_ofText _),plainSlot_some body,
    plainSlot_some (plain_ofText _),plainSlot_filled formals _,List.forall_mem_nil _⟩

structure Class.Fits (c : Class) : Prop where
  file : c.file.toText?.isSome
  fewAttributes : c.attributes.length ≤ maxElements
  fewMethods : c.methods.length ≤ maxElements
  attributes : ∀ b e, some (b,e) ∈ c.attributes → e.Fits
  methods : ∀ m, some m ∈ c.methods → m.Fits

def Class.slots (c : Class) : Slots :=
  [("pos",some c.pos.toItem),("file",filled c.file.isEmpty (Item.ofBytes c.file)),
    ("name",some (Item.ofText c.name)),
    ("attrs",filled c.attributes.isEmpty (.array (c.attributes.map (orNull (bindingItem "init"))))),
    ("parent",filled (c.parent = "") (Item.ofText c.parent)),
    ("methods",filled c.methods.isEmpty (.array (c.methods.map (orNull Method.toItem))))]

theorem Class.toItem_eq (c : Class) : c.toItem = .map (written c.slots) := by
  have attributes : attributeItem = bindingItem "init" :=
    funext fun (b,e) => (bindingItem_eq "init" b e).symm
  simp [slots,toItem,listEntry,textEntry,bytesEntry,attributes]

theorem Class.reads (c : Class) (fits : sound → c.Fits)
    (nesting : sound → c.toItem.depth ≤ maxNesting) : Gives sound (readClass c.toItem) c := by
  rw [c.toItem_eq] at nesting ⊢
  have distinct : (c.slots.map Prod.fst).Nodup := by simp [slots]
  have pos : Gives sound (field (present c.slots) "pos" readPos {}) c.pos :=
    field_some distinct (by simp [slots]) (readPos_toItem _)
  have file : Gives sound (field (present c.slots) "file" readBytes []) c.file :=
    field_filled distinct (List.mem_of_getElem? (i := 1) rfl) (by simp +contextual)
      fun _ => readBytes_ofBytes fun holds => (fits holds).file
  have name : Gives sound (field (present c.slots) "name" readText "") c.name :=
    field_some distinct (by simp [slots]) (readText_ofText _)
  have parent : Gives sound (field (present c.slots) "parent" readText "") c.parent :=
    field_filled distinct (List.mem_of_getElem? (i := 4) rfl) (by simp +contextual)
      fun _ => readText_ofText _
  have attributes : Gives sound (field (present c.slots) "attrs"
      (readList (readEntry (readBinding "init" readWholeExpr))) []) c.attributes := by
    refine field_filled distinct (List.mem_of_getElem? (i := 3) rfl) (by simp +contextual)
      fun some => readList_map fun entry member => ?_
    refine readEntry_orNull (fun _ => rfl) fun (b,e) same => ?_
    subst same
    refine readBinding_bindingItem (by decide) fun given =>
      e.reads (fun holds => (fits holds).attributes b e member) _ fun holds => ?_
    have := nesting holds
    have := depth_lt_filled c.slots 3 rfl some
    have := depth_lt_array (List.mem_map_of_mem (f := orNull (bindingItem "init")) member)
    have : e.toItem.depth < (orNull (bindingItem "init") (.some (b,e))).depth :=
      depth_lt_filled _ 1 rfl given
    omega
  have methods : Gives sound
      (field (present c.slots) "methods" (readList (readEntry readMethod)) []) c.methods := by
    refine field_filled distinct (List.mem_of_getElem? (i := 5) rfl) (by simp +contextual)
      fun some => readList_map fun entry member => ?_
    refine readEntry_orNull (fun _ => rfl) fun m same => ?_
    subst same
    refine m.reads (fun holds => (fits holds).methods m member) fun holds => ?_
    have := nesting holds
    have := depth_lt_filled c.slots 5 rfl some
    have := depth_lt_array (List.mem_map_of_mem (f := orNull Method.toItem) member)
    rw [orNull] at this
    omega
  rw [readClass,readFields_written distinct (by simp [slots])]
  exact pos.bind (file.bind (name.bind (parent.bind (attributes.bind (methods.bind (.inl rfl))))))

theorem Class.plain (c : Class) (fits : sound → c.Fits) : c.toItem.Plain sound := by
  have attributes : (Item.array (c.attributes.map (orNull (bindingItem "init")))).Plain sound := by
    refine plain_list (fun holds => (fits holds).fewAttributes) fun _ member =>
      plain_orNull fun (b,e) same => ?_
    subst same
    exact plain_bindingItem "init" b (e.plain fun holds => (fits holds).attributes b e member)
  have methods : (Item.array (c.methods.map (orNull Method.toItem))).Plain sound := by
    refine plain_list (fun holds => (fits holds).fewMethods) fun _ member =>
      plain_orNull fun m same => ?_
    subst same
    exact m.plain fun holds => (fits holds).methods m member
  rw [c.toItem_eq]
  refine plain_written (by simp [slots,maxElements]) ?_
  simp only [slots,List.forall_mem_cons]
  exact ⟨plainSlot_some c.pos.plain,plainSlot_filled (.text _) _,plainSlot_some (plain_ofText _),
    plainSlot_filled attributes _,plainSlot_filled (plain_ofText _) _,plainSlot_filled methods _,
    List.forall_mem_nil _⟩

structure Program.Fits (p : Program) : Prop where
  fewClasses : p.classes.length ≤ maxElements
  classes : ∀ c, some c ∈ p.classes → c.Fits

/-- The item for the list of classes, which is null when there are none. -/
def Program.classItem (p : Program) : Item :=
  if p.classes.isEmpty then Item.null else .array (p.classes.map (orNull Class.toItem))

theorem Program.toItem_eq (p : Program) :
    p.toItem = .map (written [("classes",some p.classItem)]) := rfl

theorem Program.reads_classes (p : Program) (fits : sound → p.Fits)
    (nesting : sound → p.classItem.depth ≤ maxNesting) :
    Gives sound (readList (readEntry readClass) p.classItem) p.classes := by
  rw [classItem] at nesting ⊢
  split at nesting
  next none =>
    rw [if_pos none,List.isEmpty_iff.mp none]
    exact .inl rfl
  next some =>
    rw [if_neg some]
    refine readList_map fun entry member => readEntry_orNull (fun _ => rfl) fun c same => ?_
    subst same
    refine c.reads (fun holds => (fits holds).classes c member) fun holds => ?_
    have := nesting holds
    have := depth_lt_array (List.mem_map_of_mem (f := orNull Class.toItem) member)
    rw [orNull] at this
    omega

/-- The records of a program are read back as they were. -/
theorem Program.reads (p : Program) (fits : sound → p.Fits)
    (nesting : sound → p.toItem.depth ≤ maxNesting) : Gives sound (readProgram p.toItem) p := by
  rw [p.toItem_eq] at nesting ⊢
  have member : ("classes",some p.classItem) ∈ [("classes",some p.classItem)] := by simp
  have distinct : ([("classes",some p.classItem)].map Prod.fst).Nodup := by simp
  have shallow : sound → p.classItem.depth ≤ maxNesting := by
    intro holds
    have := nesting holds
    have := depth_lt_written member
    omega
  have classes : Gives sound (field (present [("classes",some p.classItem)]) "classes"
      (readList (readEntry readClass)) []) p.classes :=
    field_some distinct member (p.reads_classes fits shallow)
  rw [readProgram,readFields_written distinct (by simp)]
  exact classes.bind (.inl rfl)

theorem Program.plain (p : Program) (fits : sound → p.Fits) : p.toItem.Plain sound := by
  have classes : p.classItem.Plain sound := by
    rw [classItem]
    split
    · exact plain_null
    · refine plain_list (fun holds => (fits holds).fewClasses) fun _ member =>
        plain_orNull fun c same => ?_
      subst same
      exact c.plain fun holds => (fits holds).classes c member
  rw [p.toItem_eq]
  refine plain_written (by simp [maxElements]) ?_
  rw [List.forall_mem_singleton]
  exact plainSlot_some classes

theorem Program.Fits.reads {p : Program} (fits : p.Fits) (nesting : p.toItem.depth ≤ maxNesting) :
    readProgram p.toItem = .ok p :=
  (p.reads (fun _ => fits) fun _ => nesting).eq_ok trivial

theorem Program.Fits.plain {p : Program} (fits : p.Fits) : p.toItem.Plain True :=
  p.plain fun _ => fits

end CoolBackend.Wire
