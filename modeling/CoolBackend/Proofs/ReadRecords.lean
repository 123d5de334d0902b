import CoolBackend.Proofs.ParsedItems
import CoolBackend.Proofs.Slots

/-!
Reading passes over much of an item: tags, unknown entries, chunks of texts. What it keeps is within
the bounds of the item. Texts are valid, lists are not longer, and a record nests less deep by the
levels of the item above it.
-/
namespace CoolBackend

namespace Bytes

theorem eq_ofText {content : Bytes} {s : String} (valid : content.toText? = some s) :
    content = ofText s := by
  unfold toText? String.fromUTF8? at valid
  split at valid
  next =>
    cases valid
    rfl
  next => cases valid

theorem ofText_append (s t : String) : ofText (s ++ t) = ofText s ++ ofText t := by
  rw [ofText,String.toByteArray_append,ByteArray.data_append,Array.toList_append]
  rfl

/-- Texts in chunks that are valid are valid. -/
theorem toText?_flatten {chunks : List Bytes} (each : ∀ chunk ∈ chunks, chunk.toText?.isSome) :
    (toText? chunks.flatten).isSome := by
  induction chunks with
  | nil => decide
  | cons chunk rest ih =>
    obtain ⟨first,later⟩ := List.forall_mem_cons.mp each
    obtain ⟨s,valid⟩ := Option.isSome_iff_exists.mp first
    obtain ⟨t,validRest⟩ := Option.isSome_iff_exists.mp (ih later)
    rw [List.flatten_cons,eq_ofText valid,eq_ofText validRest,← ofText_append,toText?_ofText]
    rfl

/-- Bytes that the format can hold as a text. -/
structure Storable (content : Bytes) : Prop where
  valid : content.toText?.isSome
  short : content.length < 2 ^ 64

theorem storable_nil : Storable [] := ⟨by decide,by decide⟩

end Bytes

/-- Within bounds, and no deeper than `levels`. -/
structure Cbor.Item.Within (levels : Nat) (item : Cbor.Item) : Prop where
  sized : item.Sized
  depth : item.depth ≤ levels

namespace Wire

open Cbor

section Reading

variable {levels : Nat} {item : Item} {fields : List (String × Item)} {α : Type}
  {read : Item → Except Fault α}

theorem untag_within {content : Item} (run : untag item = .ok content)
    (within : item.Within levels) : content.Within levels := by
  have inner {number : Nat} {content : Item} (tagged : (Item.tag number content).Within levels) :
      content.Within levels := by
    obtain ⟨sized,depth⟩ := tagged
    cases sized with
    | tag _ inner => exact ⟨inner,by rwa [Item.depth] at depth⟩
  fun_induction untag item with
  | case1 content ih => exact ih run (inner within)
  | case2 => cases run
  | case3 =>
    cases run
    exact within
  | case4 _ content _ _ _ ih => exact ih run (inner within)
  | case5 =>
    cases run
    exact within

theorem matchFields_origin {names : List String} {entries : List (Item × Item)}
    (run : matchFields names entries = .ok fields) :
    ∀ f ∈ fields, ∃ entry ∈ entries, entry.2 = f.2 := by
  induction entries generalizing names fields with
  | nil =>
    cases run
    exact List.forall_mem_nil _
  | cons entry rest ih =>
    have later {names : List String} {fields : List (String × Item)}
        (run : matchFields names rest = .ok fields) :
        ∀ f ∈ fields, ∃ e ∈ entry :: rest, e.2 = f.2 := fun f member => by
      obtain ⟨e,inside,same⟩ := ih run f member
      exact ⟨e,List.mem_cons_of_mem _ inside,same⟩
    obtain ⟨key,value⟩ := entry
    rw [matchFields.eq_def] at run
    cases key with
    | text chunks =>
      dsimp only at run
      split at run
      next => cases run
      next =>
        split at run
        next name _ =>
          obtain ⟨others,run',same⟩ := except_bind_eq_ok.mp run
          cases same
          exact List.forall_mem_cons.mpr ⟨⟨_,List.mem_cons_self,rfl⟩,later run'⟩
        next => exact later run
    | uint n => exact later run
    | negative n =>
      dsimp only at run
      split at run
      next => exact later run
      next => cases run
    | _ => cases run

/-- The fields of a record lie one level further in. -/
theorem readFields_within {names : List String} (run : readFields names item = .ok fields)
    (within : item.Within levels) : ∀ f ∈ fields, 0 < levels ∧ f.2.Within (levels - 1) := by
  obtain ⟨content,bare,run⟩ := except_bind_eq_ok.mp run
  obtain ⟨sized,depth⟩ := untag_within bare within
  split at run
  next entries =>
    intro f member
    obtain ⟨entry,inside,same⟩ := matchFields_origin run f member
    have inner := depth_le_entriesDepth inside
    rw [Item.depth] at depth
    rw [← same]
    cases sized with
    | map _ values => exact ⟨by omega,values entry inside,by omega⟩
  next =>
    split at run
    next =>
      cases run
      exact List.forall_mem_nil _
    next => cases run

theorem field_cases {name : String} {default value : α}
    (run : field fields name read default = .ok value) :
    default = value ∨ ∃ f ∈ fields, read f.2 = .ok value := by
  rw [field] at run
  split at run
  next item found =>
    obtain ⟨before,behind,same,-⟩ := List.lookup_eq_some_iff.mp found
    exact .inr ⟨(name,item),by simp [same],run⟩
  next => exact .inl (Except.ok.inj run)

theorem readBytes_storable {content : Bytes} (run : readBytes item = .ok content)
    (within : item.Within levels) : content.Storable := by
  obtain ⟨bare,untagged,run⟩ := except_bind_eq_ok.mp run
  obtain ⟨sized,-⟩ := untag_within untagged within
  split at run
  next chunks =>
    split at run
    next valid =>
      cases run
      cases sized with
      | text short => exact ⟨Bytes.toText?_flatten (List.all_eq_true.mp valid),short⟩
    next => cases run
  next =>
    split at run
    next =>
      cases run
      exact Bytes.storable_nil
    next => cases run

theorem readText_storable {s : String} (run : readText item = .ok s)
    (within : item.Within levels) : (Bytes.ofText s).Storable := by
  obtain ⟨content,found,run⟩ := except_bind_eq_ok.mp run
  split at run
  next t valid =>
    cases run
    rw [← Bytes.eq_ofText valid]
    exact readBytes_storable found within
  next => cases run

theorem mapM_origin {items : List Item} {xs : List α} (run : items.mapM read = .ok xs) :
    xs.length = items.length ∧ ∀ x ∈ xs, ∃ element ∈ items, read element = .ok x := by
  refine origins_of_steps (G := fun items xs => items.mapM read = .ok xs) ?_ ?_ run
  · intro xs run
    rw [List.mapM_nil] at run
    exact (Except.ok.inj run).symm
  · intro item items xs run
    rw [List.mapM_cons] at run
    obtain ⟨x,here,run⟩ := except_bind_eq_ok.mp run
    obtain ⟨rest,there,run⟩ := except_bind_eq_ok.mp run
    exact ⟨x,rest,here,there,Except.ok.inj run⟩

/-- The elements of a list lie one level further in, and are within bounds. -/
theorem readList_within {xs : List α} (run : readList read item = .ok xs)
    (within : item.Within levels) : xs.length ≤ maxElements ∧
      ∀ x ∈ xs, ∃ element : Item, element.Within (levels - 1) ∧ read element = .ok x := by
  obtain ⟨content,bare,run⟩ := except_bind_eq_ok.mp run
  obtain ⟨sized,depth⟩ := untag_within bare within
  split at run
  next items =>
    cases sized with
    | array few each =>
      obtain ⟨length,origin⟩ := mapM_origin run
      refine ⟨length ▸ few,fun x member => ?_⟩
      obtain ⟨element,inside,found⟩ := origin x member
      have := depth_le_itemsDepth inside
      rw [Item.depth] at depth
      exact ⟨element,⟨each element inside,by omega⟩,found⟩
  next =>
    split at run
    next =>
      cases run
      exact ⟨Nat.zero_le _,List.forall_mem_nil _⟩
    next => cases run

theorem readEntry_eq_some {x : α} (run : readEntry read item = .ok (some x)) :
    read item = .ok x := by
  rw [readEntry] at run
  split at run
  next => cases run
  next =>
    cases found : read item with
    | error e =>
      rw [found] at run
      cases run
    | ok y =>
      rw [found] at run
      cases run
      rfl

theorem listField_within {name : String} {xs : List α}
    (run : field fields name (readList read) [] = .ok xs)
    (inside : ∀ f ∈ fields, f.2.Within levels) : xs.length ≤ maxElements ∧
      ∀ x ∈ xs, ∃ element : Item, element.Within (levels - 1) ∧ read element = .ok x := by
  rcases field_cases run with rfl | ⟨f,member,found⟩
  · exact ⟨Nat.zero_le _,List.forall_mem_nil _⟩
  · exact readList_within found (inside f member)

/-- The same for a list of records, of those that are not null. -/
theorem entriesField_within {name : String} {xs : List (Option α)}
    (run : field fields name (readList (readEntry read)) [] = .ok xs)
    (inside : ∀ f ∈ fields, f.2.Within levels) : xs.length ≤ maxElements ∧
      ∀ x, some x ∈ xs → ∃ element : Item, element.Within (levels - 1) ∧ read element = .ok x := by
  obtain ⟨few,origin⟩ := listField_within run inside
  refine ⟨few,fun x member => ?_⟩
  obtain ⟨element,inner,found⟩ := origin _ member
  exact ⟨element,inner,readEntry_eq_some found⟩

end Reading

structure Binder.Storable (b : Binder) : Prop where
  name : (Bytes.ofText b.name).Storable
  type : (Bytes.ofText b.type).Storable

def Fields.texts (f : Fields) : List String :=
  [f.kind,f.type,f.name,f.scope,f.op,f.className]

structure Fields.Storable (f : Fields) : Prop where
  texts : ∀ s ∈ f.texts, (Bytes.ofText s).Storable
  str : f.str.Storable

/-- Expressions as they are read from an item of so many levels. One that names its kind comes from
a map, with its receiver one level further in, its operands two and its bindings three. -/
inductive Expr.Within : Nat → Expr → Prop
  | null {levels : Nat} : Within levels .null
  | node {levels : Nat} {f : Fields} {receiver : Expr} {kids : List Expr}
      {bindings : List (Option (Binder × Expr))} (named : f.kind ≠ "" → 0 < levels)
      (storable : f.Storable) (fewKids : kids.length ≤ maxElements)
      (fewBindings : bindings.length ≤ maxElements) (onReceiver : Within (levels - 1) receiver)
      (eachKid : ∀ kid ∈ kids, Within (levels - 2) kid)
      (binders : ∀ b e, some (b,e) ∈ bindings → b.Storable)
      (eachBinding : ∀ b e, some (b,e) ∈ bindings → Within (levels - 3) e) :
      Within levels (.node f receiver kids bindings)

section Records

variable {levels : Nat} {item : Item} {fields : List (String × Item)}

theorem textField_storable {name s : String} (run : field fields name readText "" = .ok s)
    (inside : ∀ f ∈ fields, f.2.Within levels) : (Bytes.ofText s).Storable := by
  rcases field_cases run with rfl | ⟨f,member,found⟩
  · exact Bytes.storable_nil
  · exact readText_storable found (inside f member)

theorem bytesField_storable {name : String} {content : Bytes}
    (run : field fields name readBytes [] = .ok content)
    (inside : ∀ f ∈ fields, f.2.Within levels) : content.Storable := by
  rcases field_cases run with rfl | ⟨f,member,found⟩
  · exact Bytes.storable_nil
  · exact readBytes_storable found (inside f member)

theorem exprField_within {name : String} {readExpr : Item → Except Fault Expr} {record : Expr}
    (run : field fields name readExpr .null = .ok record)
    (inside : ∀ f ∈ fields, f.2.Within levels)
    (reads : ∀ inner : Item, inner.Within levels → readExpr inner = .ok record →
      record.Within levels) : record.Within levels := by
  rcases field_cases run with rfl | ⟨f,member,found⟩
  · exact .null
  · exact reads f.2 (inside f member) found

theorem binderOf_storable {b : Binder} (run : binderOf fields = .ok b)
    (inside : ∀ f ∈ fields, f.2.Within levels) : b.Storable := by
  obtain ⟨pos,-,run⟩ := except_bind_eq_ok.mp run
  obtain ⟨name,readName,run⟩ := except_bind_eq_ok.mp run
  obtain ⟨type,readType,run⟩ := except_bind_eq_ok.mp run
  cases run
  exact ⟨textField_storable readName inside,textField_storable readType inside⟩

theorem readBinder_storable {b : Binder} (run : readBinder item = .ok b)
    (within : item.Within levels) : b.Storable := by
  obtain ⟨fields,found,run⟩ := except_bind_eq_ok.mp run
  exact binderOf_storable run fun f member => (readFields_within found within f member).2

/-- Bindings, if what reads their expressions keeps to the levels. -/
theorem bindingsField_within {name key : String} {readExpr : Item → Except Fault Expr}
    {bindings : List (Option (Binder × Expr))}
    (run : field fields name (readList (readEntry (readBinding key readExpr))) [] = .ok bindings)
    (inside : ∀ f ∈ fields, f.2.Within levels)
    (reads : ∀ (inner : Item) record, inner.Within (levels - 2) → readExpr inner = .ok record →
      record.Within (levels - 2)) : bindings.length ≤ maxElements ∧
      ∀ b e, some (b,e) ∈ bindings → b.Storable ∧ e.Within (levels - 2) := by
  obtain ⟨few,origin⟩ := entriesField_within run inside
  refine ⟨few,fun b e member => ?_⟩
  obtain ⟨element,inner,run⟩ := origin _ member
  obtain ⟨fields,found,run⟩ := except_bind_eq_ok.mp run
  obtain ⟨binder,readBinder,run⟩ := except_bind_eq_ok.mp run
  obtain ⟨record,readRecord,run⟩ := except_bind_eq_ok.mp run
  cases run
  have further (f) (member : f ∈ fields) : f.2.Within (levels - 2) :=
    (readFields_within found inner f member).2
  exact ⟨binderOf_storable readBinder further,
    exprField_within readRecord further fun inner => reads inner e⟩

theorem readExpr_within {fuel : Nat} {record : Expr} (run : readExpr fuel item = .ok record)
    (within : item.Within levels) : record.Within levels := by
  induction fuel generalizing levels item record with
  | zero => cases run
  | succ fuel ih =>
    rw [readExpr] at run
    split at run
    next =>
      cases run
      exact .null
    next =>
      obtain ⟨fields,found,run⟩ := except_bind_eq_ok.mp run
      have inside (f) (member : f ∈ fields) : f.2.Within (levels - 1) :=
        (readFields_within found within f member).2
      obtain ⟨kind,readKind,run⟩ := except_bind_eq_ok.mp run
      obtain ⟨type,readType,run⟩ := except_bind_eq_ok.mp run
      obtain ⟨pos,-,run⟩ := except_bind_eq_ok.mp run
      obtain ⟨int,-,run⟩ := except_bind_eq_ok.mp run
      obtain ⟨str,readStr,run⟩ := except_bind_eq_ok.mp run
      obtain ⟨bool,-,run⟩ := except_bind_eq_ok.mp run
      obtain ⟨name,readName,run⟩ := except_bind_eq_ok.mp run
      obtain ⟨scope,readScope,run⟩ := except_bind_eq_ok.mp run
      obtain ⟨op,readOp,run⟩ := except_bind_eq_ok.mp run
      obtain ⟨className,readClassName,run⟩ := except_bind_eq_ok.mp run
      obtain ⟨receiver,readReceiver,run⟩ := except_bind_eq_ok.mp run
      obtain ⟨kids,readKids,run⟩ := except_bind_eq_ok.mp run
      obtain ⟨bindings,readBindings,run⟩ := except_bind_eq_ok.mp run
      cases run
      have named : kind ≠ "" → 0 < levels := by
        intro some
        rcases field_cases readKind with rfl | ⟨f,member,-⟩
        · cases some rfl
        · exact (readFields_within found within f member).1
      have texts : ∀ s ∈ [kind,type,name,scope,op,className], (Bytes.ofText s).Storable := by
        simp only [List.forall_mem_cons]
        exact ⟨textField_storable readKind inside,textField_storable readType inside,
          textField_storable readName inside,textField_storable readScope inside,
          textField_storable readOp inside,textField_storable readClassName inside,
          List.forall_mem_nil _⟩
      have onReceiver : receiver.Within (levels - 1) :=
        exprField_within readReceiver inside fun _ inner read => ih read inner
      obtain ⟨fewKids,origin⟩ := listField_within readKids inside
      have eachKid : ∀ kid ∈ kids, kid.Within (levels - 2) := by
        intro kid member
        obtain ⟨element,inner,read⟩ := origin kid member
        exact ih read inner
      obtain ⟨fewBindings,eachBinding⟩ :=
        bindingsField_within readBindings inside fun _ _ inner read => ih read inner
      exact .node named ⟨texts,bytesField_storable readStr inside⟩ fewKids fewBindings onReceiver
        eachKid (fun b e member => (eachBinding b e member).1)
        (fun b e member => (eachBinding b e member).2)

end Records

/-- Methods whose body was read from an item of so many levels. -/
structure Method.Within (levels : Nat) (m : Method) : Prop where
  name : (Bytes.ofText m.name).Storable
  returnType : (Bytes.ofText m.returnType).Storable
  fewFormals : m.formals.length ≤ maxElements
  formals : ∀ b, some b ∈ m.formals → b.Storable
  body : m.body.Within levels

structure Class.Within (levels : Nat) (c : Class) : Prop where
  file : c.file.Storable
  name : (Bytes.ofText c.name).Storable
  parent : (Bytes.ofText c.parent).Storable
  fewAttributes : c.attributes.length ≤ maxElements
  attributes : ∀ b e, some (b,e) ∈ c.attributes → b.Storable ∧ e.Within levels
  fewMethods : c.methods.length ≤ maxElements
  methods : ∀ m, some m ∈ c.methods → m.Within levels

structure Program.Within (levels : Nat) (p : Program) : Prop where
  fewClasses : p.classes.length ≤ maxElements
  classes : ∀ c, some c ∈ p.classes → c.Within levels

section Programs

variable {levels : Nat} {item : Item}

theorem readMethod_within {m : Method} (run : readMethod item = .ok m)
    (within : item.Within (levels + 1)) : m.Within levels := by
  obtain ⟨fields,found,run⟩ := except_bind_eq_ok.mp run
  have inside (f) (member : f ∈ fields) : f.2.Within levels :=
    (readFields_within found within f member).2
  obtain ⟨pos,-,run⟩ := except_bind_eq_ok.mp run
  obtain ⟨name,readName,run⟩ := except_bind_eq_ok.mp run
  obtain ⟨formals,readFormals,run⟩ := except_bind_eq_ok.mp run
  obtain ⟨returnType,readType,run⟩ := except_bind_eq_ok.mp run
  obtain ⟨body,readBody,run⟩ := except_bind_eq_ok.mp run
  cases run
  obtain ⟨fewFormals,origin⟩ := entriesField_within readFormals inside
  have storable : ∀ b, some b ∈ formals → b.Storable := by
    intro b member
    obtain ⟨element,inner,read⟩ := origin b member
    exact readBinder_storable read inner
  exact ⟨textField_storable readName inside,textField_storable readType inside,fewFormals,storable,
    exprField_within readBody inside fun _ inner read => readExpr_within read inner⟩

theorem readClass_within {c : Class} (run : readClass item = .ok c)
    (within : item.Within (levels + 3)) : c.Within levels := by
  obtain ⟨fields,found,run⟩ := except_bind_eq_ok.mp run
  have inside (f) (member : f ∈ fields) : f.2.Within (levels + 2) :=
    (readFields_within found within f member).2
  obtain ⟨pos,-,run⟩ := except_bind_eq_ok.mp run
  obtain ⟨file,readFile,run⟩ := except_bind_eq_ok.mp run
  obtain ⟨name,readName,run⟩ := except_bind_eq_ok.mp run
  obtain ⟨parent,readParent,run⟩ := except_bind_eq_ok.mp run
  obtain ⟨attributes,readAttributes,run⟩ := except_bind_eq_ok.mp run
  obtain ⟨methods,readMethods,run⟩ := except_bind_eq_ok.mp run
  cases run
  obtain ⟨fewAttributes,eachAttribute⟩ :=
    bindingsField_within readAttributes inside fun _ _ inner read => readExpr_within read inner
  obtain ⟨fewMethods,origin⟩ := entriesField_within readMethods inside
  have eachMethod : ∀ m, some m ∈ methods → m.Within levels := by
    intro m member
    obtain ⟨element,inner,read⟩ := origin m member
    exact readMethod_within read inner
  exact ⟨bytesField_storable readFile inside,textField_storable readName inside,
    textField_storable readParent inside,fewAttributes,eachAttribute,fewMethods,eachMethod⟩

/-- Initializers and bodies lie five levels inside the item of a program. -/
theorem readProgram_within {p : Program} (run : readProgram item = .ok p)
    (within : item.Within (levels + 5)) : p.Within levels := by
  obtain ⟨fields,found,run⟩ := except_bind_eq_ok.mp run
  obtain ⟨classes,readClasses,run⟩ := except_bind_eq_ok.mp run
  cases run
  obtain ⟨few,origin⟩ := entriesField_within readClasses fun f member =>
    (readFields_within found within f member).2
  refine ⟨few,fun c member => ?_⟩
  obtain ⟨element,inner,read⟩ := origin c member
  exact readClass_within read inner

end Programs

end Wire

end CoolBackend
