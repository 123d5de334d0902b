import CoolBackend.Proofs.Carried
import CoolBackend.Proofs.Records

/-!
A program that the format can hold comes back from its bytes as it was. The format holds positions
as points, texts that are valid, and lists and nesting within the bounds of the reader.
-/
namespace CoolBackend

/-- A span that is no more than a line and a column. -/
def Span.IsPoint (span : Span) : Prop := span = Span.point span.start.line span.start.column

instance : DecidablePred Span.IsPoint := fun span =>
  inferInstanceAs (Decidable (span = Span.point span.start.line span.start.column))

def Expr.textValid : Expr → Bool
  | .constant _ (.string value) => value.toText?.isSome
  | _ => true

structure Expr.Portable (e : Expr) : Prop where
  span : e.info.span.IsPoint
  binders : ∀ b ∈ e.binders, b.span.IsPoint
  text : e.textValid

instance (e : Expr) : Decidable e.Portable :=
  decidable_of_iff
    (e.info.span.IsPoint ∧ (∀ b ∈ e.binders, b.span.IsPoint) ∧ e.textValid)
    ⟨fun ⟨span,binders,text⟩ => ⟨span,binders,text⟩,fun ⟨span,binders,text⟩ => ⟨span,binders,text⟩⟩

def Expr.listLengths : Expr → List Nat
  | .block _ exprs => [exprs.length]
  | .letIn _ bindings _ => [bindings.length]
  | .caseOf _ _ branches => [branches.length]
  | .dispatch _ _ _ _ args => [args.length]
  | _ => []

structure ClassDecl.Portable (c : ClassDecl) : Prop where
  span : c.span.IsPoint
  file : c.file.toText?.isSome
  attributes : ∀ a ∈ c.attributes, a.1.span.IsPoint
  methods : ∀ m ∈ c.methods, m.span.IsPoint
  formals : ∀ m ∈ c.methods, ∀ f ∈ m.formals, f.span.IsPoint

instance (c : ClassDecl) : Decidable c.Portable :=
  decidable_of_iff
    (c.span.IsPoint ∧ c.file.toText?.isSome ∧ (∀ a ∈ c.attributes, a.1.span.IsPoint) ∧
      (∀ m ∈ c.methods, m.span.IsPoint) ∧ ∀ m ∈ c.methods, ∀ f ∈ m.formals, f.span.IsPoint)
    ⟨fun ⟨span,file,attributes,methods,formals⟩ => ⟨span,file,attributes,methods,formals⟩,
      fun ⟨span,file,attributes,methods,formals⟩ => ⟨span,file,attributes,methods,formals⟩⟩

structure Program.Portable (p : Program) : Prop where
  classes : ∀ c ∈ p.classes, c.Portable
  parts : ∀ e ∈ p.parts, e.Portable

structure Program.ListsFit (p : Program) : Prop where
  classes : p.classes.length ≤ Cbor.maxElements
  attributes : ∀ c ∈ p.classes, c.attributes.length ≤ Cbor.maxElements
  methods : ∀ c ∈ p.classes, c.methods.length ≤ Cbor.maxElements
  formals : ∀ c ∈ p.classes, ∀ m ∈ c.methods, m.formals.length ≤ Cbor.maxElements
  parts : ∀ e ∈ p.parts, ∀ n ∈ e.listLengths, n ≤ Cbor.maxElements

theorem Span.IsPoint.carried {span : Span} (point : span.IsPoint) : span.carried = span :=
  point.symm

theorem Info.carried_eq (info : Info) (point : info.span.IsPoint) : info.carried = info := by
  rw [carried,point.carried]

theorem Binder.carried_eq {b : Binder} (point : b.span.IsPoint) : b.carried = b := by
  rw [carried,point.carried]

theorem Scope.carried_eq {scope : Scope} (known : scope.isKnown) : scope.carried = scope := by
  cases scope with
  | other code => cases known
  | _ => rfl

theorem RelOp.carried_eq {op : RelOp} (known : op.isKnown) : op.carried = op := by
  cases op with
  | other code => cases known
  | _ => rfl

theorem map_same {α : Type} {f : α → α} {xs : List α} (each : ∀ x ∈ xs, f x = x) :
    xs.map f = xs :=
  (List.map_congr_left each).trans (List.map_id' xs)

theorem carriedAll_same {exprs : List Expr} (each : ∀ e ∈ exprs, e.carried = e) :
    carriedAll exprs = exprs := by
  rw [carriedAll_eq]
  exact map_same each

theorem carriedBindings_same {bindings : List (Binder × Expr)}
    (points : ∀ b ∈ bindings, b.1.span.IsPoint) (each : ∀ b ∈ bindings, b.2.carried = b.2) :
    carriedBindings bindings = bindings := by
  rw [carriedBindings_eq]
  refine map_same fun b member => ?_
  rw [Binder.carried_eq (points b member),each b member]

/-- One level of an expression is carried whole when what stands directly inside it is. -/
theorem Expr.carried_same {e : Expr} (known : e.codesKnown) (portable : e.Portable)
    (children : ∀ child ∈ e.optional ++ e.required, child.carried = child) : e.carried = e := by
  obtain ⟨span,binders,-⟩ := portable
  have required {child : Expr} (inside : child ∈ e.required) : child.carried = child :=
    children child (List.mem_append_right _ inside)
  have optional {child : Expr} (inside : child ∈ e.optional) : child.carried = child :=
    children child (List.mem_append_left _ inside)
  cases e with
  | absent => rfl
  | constant info value => rw [carried,Info.carried_eq info span]
  | ident info name scope => rw [carried,Info.carried_eq info span,Scope.carried_eq known]
  | assign info name scope value =>
    rw [carried,Info.carried_eq info span,Scope.carried_eq known,required (.head _)]
  | unary info op operand => rw [carried,Info.carried_eq info span,required (.head _)]
  | binary info op left right =>
    have op : op.carried = op := by
      cases op with
      | compare op => rw [BinaryOp.carried,RelOp.carried_eq known]
      | _ => rfl
    rw [carried,Info.carried_eq info span,op,required (.head _),required (.tail _ (.head _))]
  | cond info test yes no =>
    rw [carried,Info.carried_eq info span,required (.head _),required (.tail _ (.head _)),
      required (.tail _ (.tail _ (.head _)))]
  | loop info test body =>
    rw [carried,Info.carried_eq info span,required (.head _),required (.tail _ (.head _))]
  | block info exprs =>
    have exprs : carriedAll exprs = exprs := carriedAll_same fun _ inside => required inside
    rw [carried,Info.carried_eq info span,exprs]
  | letIn info bindings body =>
    rw [carried,Info.carried_eq info span,required (.head _),carriedBindings_same
      (fun b member => binders b.1 (List.mem_map_of_mem member))
      fun b member => optional (List.mem_map_of_mem member)]
  | caseOf info scrutinee branches =>
    rw [carried,Info.carried_eq info span,required (.head _),carriedBindings_same
      (fun b member => binders b.1 (List.mem_map_of_mem member))
      fun b member => required (.tail _ (List.mem_map_of_mem member))]
  | new info className => rw [carried,Info.carried_eq info span]
  | dispatch info receiver staticClass method args =>
    have args : carriedAll args = args := carriedAll_same fun _ inside => required inside
    rw [carried,Info.carried_eq info span,optional (.head _),args]

theorem Expr.carried_eq {e : Expr} (sound : ∀ part ∈ e.parts, part.Complete ∧ part.Portable) :
    e.carried = e :=
  Expr.parts_induct (P := fun e => e.carried = e) rfl
    (fun _ _ own inner => carried_same own.1.codes own.2 inner) sound

theorem ClassDecl.carried_eq {c : ClassDecl} (portable : c.Portable)
    (parts : ∀ e ∈ c.parts, e.Complete ∧ e.Portable) : c.carried = c := by
  have attributes : carriedBindings c.attributes = c.attributes :=
    carriedBindings_same portable.attributes fun a member => Expr.carried_eq fun e inside =>
      parts e (ClassDecl.mem_parts.mpr (.inl ⟨a,member,inside⟩))
  have methods : c.methods.map MethodDecl.carried = c.methods := by
    refine map_same fun m member => ?_
    have formals : m.formals.map Binder.carried = m.formals :=
      map_same fun f inside => Binder.carried_eq (portable.formals m member f inside)
    have body : m.body.carried = m.body := Expr.carried_eq fun e inside =>
      parts e (ClassDecl.mem_parts.mpr (.inr ⟨m,member,inside⟩))
    rw [MethodDecl.carried,(portable.methods m member).carried,formals,body]
  rw [carried,portable.span.carried,attributes,methods]

/-- What is complete and portable is carried whole. -/
theorem Program.carried_eq {p : Program} (complete : p.Complete) (portable : p.Portable) :
    p.carried = p := by
  have classes : p.classes.map ClassDecl.carried = p.classes := by
    refine map_same fun c member => ?_
    refine ClassDecl.carried_eq (portable.classes c member) fun e inside => ?_
    have here : e ∈ p.parts := List.mem_flatMap.mpr ⟨c,member,inside⟩
    exact ⟨complete.parts e here,portable.parts e here⟩
  rw [carried,classes]

namespace Wire

theorem toProgram_ofProgram {p : CoolBackend.Program} (complete : p.Complete)
    (portable : p.Portable) : (Program.ofProgram p).toProgram = .ok p := by
  have carried := (toProgram_carried p fun _ => complete.readable).eq_ok trivial
  rwa [Program.carried_eq complete portable] at carried

theorem fits_kids {f : Fields} {receiver : Expr} {kids : List Expr}
    (text : f.str.toText?.isSome) (few : kids.length ≤ Cbor.maxElements)
    (onReceiver : receiver.Fits) (eachKid : ∀ kid ∈ kids, kid.Fits) :
    (Expr.node f receiver kids []).Fits :=
  .node text few (Nat.zero_le _) onReceiver eachKid (fun _ _ member => by cases member)

theorem mem_ofBindings_iff {bindings : List (CoolBackend.Binder × CoolBackend.Expr)} {b : Binder}
    {e : Expr} : some (b,e) ∈ ofBindings bindings ↔
      ∃ binding ∈ bindings, b = Binder.ofBinder binding.1 ∧ e = ofExpr binding.2 := by
  rw [ofBindings_eq]
  simp [eq_comm]

theorem mem_ofBindings {bindings : List (CoolBackend.Binder × CoolBackend.Expr)} {b : Binder}
    {e : Expr} (member : some (b,e) ∈ ofBindings bindings) :
    ∃ child ∈ bindings.map Prod.snd, e = ofExpr child := by
  obtain ⟨binding,inside,-,same⟩ := mem_ofBindings_iff.mp member
  exact ⟨binding.2,List.mem_map_of_mem inside,same⟩

/-- One level of an expression fits when what stands directly inside it does. -/
theorem fits_ofExpr {e : CoolBackend.Expr} (text : e.textValid)
    (few : ∀ n ∈ e.listLengths, n ≤ Cbor.maxElements)
    (children : ∀ child ∈ e.optional ++ e.required, (ofExpr child).Fits) : (ofExpr e).Fits := by
  have blank : (Bytes.toText? []).isSome := by decide
  have size {n : Nat} (small : n ≤ 3) : n ≤ Cbor.maxElements := Nat.le_trans small (by decide)
  have each : ∀ kid ∈ e.required.map ofExpr, kid.Fits := by
    intro kid member
    obtain ⟨child,inside,rfl⟩ := List.mem_map.mp member
    exact children child (List.mem_append_right _ inside)
  cases e with
  | absent => exact .null
  | constant info value =>
    cases value with
    | string value => exact fits_kids text (Nat.zero_le _) .null (List.forall_mem_nil _)
    | _ => exact fits_kids blank (Nat.zero_le _) .null (List.forall_mem_nil _)
  | ident info name scope => exact fits_kids blank (Nat.zero_le _) .null (List.forall_mem_nil _)
  | assign info name scope value =>
    exact fits_kids blank (size (by simp)) .null each
  | unary info op operand =>
    exact fits_kids blank (size (by simp)) .null each
  | binary info op left right =>
    have plain : (BinaryOp.fields info op).str = [] := by cases op <;> rfl
    exact fits_kids (plain ▸ blank) (size (by simp)) .null each
  | cond info test yes no =>
    exact fits_kids blank (size (by simp)) .null each
  | loop info test body =>
    exact fits_kids blank (size (by simp)) .null each
  | block info exprs =>
    rw [ofExpr,ofExprs_eq]
    exact fits_kids blank (by simpa [Expr.listLengths] using few) .null each
  | letIn info bindings body =>
    refine .node blank (size (by simp)) ?_ .null ?_ ?_
    · simpa [ofBindings_eq,Expr.listLengths] using few
    · exact each
    · intro b e member
      obtain ⟨child,inside,rfl⟩ := mem_ofBindings member
      exact children child (List.mem_append_left _ inside)
  | caseOf info scrutinee branches =>
    refine .node blank (size (by simp)) ?_ .null ?_ ?_
    · simpa [ofBindings_eq,Expr.listLengths] using few
    · intro kid member
      rw [List.mem_singleton.mp member]
      exact each (ofExpr scrutinee) (.head _)
    · intro b e member
      obtain ⟨child,inside,rfl⟩ := mem_ofBindings member
      exact children child (List.mem_append_right _ (.tail _ inside))
  | new info className => exact fits_kids blank (Nat.zero_le _) .null (List.forall_mem_nil _)
  | dispatch info receiver staticClass method args =>
    rw [ofExpr,ofExprs_eq]
    refine fits_kids blank (by simpa [Expr.listLengths] using few) ?_ ?_
    · exact children receiver (by simp [Expr.optional])
    · exact each

theorem fits_of_parts {e : CoolBackend.Expr} (sound : ∀ part ∈ e.parts,
    part.Portable ∧ ∀ n ∈ part.listLengths, n ≤ Cbor.maxElements) : (ofExpr e).Fits :=
  Expr.parts_induct .null (fun _ _ own inner => fits_ofExpr own.1.text own.2 inner) sound

theorem fits_ofProgram {p : CoolBackend.Program} (portable : p.Portable) (lists : p.ListsFit) :
    (Program.ofProgram p).Fits := by
  have fits {e : CoolBackend.Expr} (inside : ∀ part ∈ e.parts, part ∈ p.parts) : (ofExpr e).Fits :=
    fits_of_parts fun part member =>
      ⟨portable.parts part (inside part member),lists.parts part (inside part member)⟩
  refine ⟨by simpa [Program.ofProgram] using lists.classes,fun record member => ?_⟩
  obtain ⟨c,here,same⟩ := List.mem_map.mp member
  cases same
  have inside (e : CoolBackend.Expr) (part : e ∈ c.parts) : e ∈ p.parts :=
    List.mem_flatMap.mpr ⟨c,here,part⟩
  refine ⟨(portable.classes c here).file,?_,?_,?_,?_⟩
  · simpa [Class.ofClass,ofBindings_eq] using lists.attributes c here
  · simpa [Class.ofClass] using lists.methods c here
  · intro b e member
    obtain ⟨child,initializer,rfl⟩ := mem_ofBindings member
    obtain ⟨a,declared,rfl⟩ := List.mem_map.mp initializer
    exact fits fun part member =>
      inside part (ClassDecl.mem_parts.mpr (.inl ⟨a,declared,member⟩))
  · intro record member
    obtain ⟨m,method,same⟩ := List.mem_map.mp member
    cases same
    refine ⟨by simpa [Method.ofMethod] using lists.formals c here m method,?_⟩
    exact fits fun part member => inside part (ClassDecl.mem_parts.mpr (.inr ⟨m,method,member⟩))

end Wire

/-- Decoding undoes encoding for every program that is complete and that the format can hold. The
bytes are fewer than `2 ^ 64`, as a length is written in eight bytes at most. -/
theorem Program.decode_encode {p : Program} (complete : p.Complete) (portable : p.Portable)
    (lists : p.ListsFit) (nesting : (Wire.Program.ofProgram p).toItem.depth ≤ Cbor.maxNesting)
    (size : p.encode.length < 2 ^ 64) : Program.decode p.encode = .ok p := by
  have fits := Wire.fits_ofProgram portable lists
  have item : Cbor.parse p.encode = .ok (Wire.Program.ofProgram p).toItem :=
    Cbor.parse_encode fits.plain nesting size
  have records := fits.reads nesting
  have program := Wire.toProgram_ofProgram complete portable
  rw [decode,item]
  change (((Wire.readProgram (Wire.Program.ofProgram p).toItem).mapError DecodeError.malformed) >>=
    fun records => records.toProgram.mapError DecodeError.ofClass) = _
  rw [records]
  change (Wire.Program.ofProgram p).toProgram.mapError DecodeError.ofClass = _
  rw [program]
  rfl

/-- A program with every kind of gap that the format leaves out: an attribute and a variable without
initializer, a call on `self`, positions and values that are zero. -/
def inquiry : Program where
  classes := [{
    span := Span.point 1 1
    file := Bytes.ofText "inquiry.cl"
    name := "Main"
    parent := "IO"
    attributes := [({ span := Span.point 2 3, name := "count", type := "Int" },.absent)]
    methods := [{
      span := Span.point 3 0
      name := "main"
      formals := [{ span := Span.point 3 9, name := "x", type := "Object" }]
      returnType := "Object"
      body := .letIn { span := Span.point 4 5, type := "Object" }
        [({ span := Span.point 4 9, name := "s", type := "String" },.absent),
          ({ name := "n", type := "Int" },
            .binary { type := "Int" } (.arith .sub) (.constant { type := "Int" } (.int (-7)))
              (.ident { type := "Int" } "count" .attr))]
        (.caseOf {} (.ident {} "x" .formal)
          [({ name := "o", type := "Object" },
            .block {} [.assign {} "s" .localVar
                (.constant {} (.string (Bytes.ofText "no\n"))),
              .dispatch {} .absent "" "out_string" [.ident {} "s" .localVar],
              .new {} "Object"])]) }] }]

theorem inquiry_decode_encode : Program.decode inquiry.encode = .ok inquiry :=
  Program.decode_encode ⟨by decide +kernel,by decide +kernel⟩
    ⟨by decide +kernel,by decide +kernel⟩
    ⟨by decide,by decide,by decide,by decide,by decide +kernel⟩ (by decide +kernel)
    (by decide +kernel)

end CoolBackend
