import CoolBackend.Proofs.CarriedCode
import CoolBackend.Proofs.CarriedDiagnostics
import CoolBackend.Proofs.Reading
import CoolBackend.Proofs.RoundTrip
import CoolBackend.Proofs.SharedNodes

/-!
A program that was written and read back need not be the program that was written. But all that
reads a program looks at what is carried: it is written to the same bytes, compiled to the same text
or refused with the same error, and the verifier says the same about it. Only nodes that stood at
several places can make a difference, as they are not carried.
-/
namespace CoolBackend

/-- From the bytes of a program nothing can be read but what they carry of it, and that is read if
nothing is missing and the records are within the bounds of the reader. -/
theorem Program.decode_carried {sound : Prop} {p : Program} (readable : sound → p.Readable)
    (fits : sound → (Wire.Program.ofProgram p).Fits)
    (nesting : sound → (Wire.Program.ofProgram p).toItem.depth ≤ Cbor.maxNesting)
    (size : p.encode.length < 2 ^ 64) : Gives sound (Program.decode p.encode) p.carried := by
  have item : Gives sound (Cbor.parse p.encode) (Wire.Program.ofProgram p).toItem :=
    ((Wire.Program.ofProgram p).plain fits).parse_encode (.inr size) nesting
  have records := (Wire.Program.ofProgram p).reads fits nesting
  have program := Wire.toProgram_carried p readable
  exact (item.mapError _).bind ((records.mapError _).bind (program.mapError _))

theorem Program.decode_of_bounds {p : Program} (readable : p.Readable)
    (portable : p.carried.Portable) (lists : p.carried.ListsFit)
    (nesting : (Wire.Program.ofProgram p).toItem.depth ≤ Cbor.maxNesting)
    (size : p.encode.length < 2 ^ 64) : Program.decode p.encode = .ok p.carried := by
  have fits : (Wire.Program.ofProgram p).Fits := by
    rw [← Wire.ofProgram_carried]
    exact Wire.fits_ofProgram portable lists
  have gives : Gives True (Program.decode p.encode) p.carried :=
    decode_carried (fun _ => readable) (fun _ => fits) (fun _ => nesting) size
  exact gives.eq_ok trivial

/-- `let n : Int <- 7 in n` -/
def counted : Expr :=
  .letIn { type := "Int" }
    [({ name := "n", type := "Int" },.constant { type := "Int" } (.int 7))]
    (.ident { type := "Int" } "n" .localVar)

/-- A program that loses much on its way: the ends and offsets of spans, a scope and a comparison
whose codes have no meaning, and that both places of `counted` hold one binding. -/
def straying : SharedProgram :=
  .rebind
    { classes := [{
        span := ⟨{ offset := 3, line := 1, column := 4 },{ offset := 210, line := 9, column := 2 }⟩
        file := Bytes.ofText "straying.cl"
        name := "Main"
        parent := "IO"
        methods := [{
          span := ⟨{ offset := 60, line := 3, column := 3 },{ line := 8, column := 5 }⟩
          name := "main"
          formals := []
          returnType := "Object"
          body := .cond { span := ⟨{ offset := 80, line := 4, column := 5 },{}⟩, type := "Object" }
            (.binary { type := "Bool" } (.compare (.other 9)) counted counted)
            (.dispatch { span := ⟨{ offset := 120, line := 5, column := 7 },{}⟩ } .absent ""
              "out_string" [.constant { type := "String" } (.string (Bytes.ofText "far"))])
            (.ident { type := "Main" } "self" (.other 6)) }] }] }
    (.method "Main" 0,⟨[0,0,1],0⟩) (.method "Main" 0,⟨[0,0,0],0⟩) rfl

/-- `let x : Object, x : Object in x`, where both bindings are one. -/
def rebinding : SharedProgram :=
  let binding : Binder × Expr := ({ name := "x", type := "Object" },.absent)
  .rebind
    { classes := [{
        name := "Main"
        methods := [{
          name := "main"
          formals := []
          returnType := "Object"
          body := .letIn {} [binding,binding] (.ident {} "x" .localVar) }] }] }
    (.method "Main" 0,⟨[0],1⟩) (.method "Main" 0,⟨[0],0⟩) rfl

def relisting : SharedProgram :=
  let misfit : ClassDecl :=
    { name := "Main", attributes := [({ name := "x", type := "Missing" },.absent)] }
  .relist { classes := [misfit,misfit] } 1 0 rfl

def Session.listing : EStateM.Result InternalError Supply Image → List Assembly.Line
  | .ok image _ => image.lines
  | .error _ _ => []

/-- Where two images have one text and the same lines up to some line, they have the same text from
there on. -/
theorem Session.text_from {r other : EStateM.Result InternalError Supply Image}
    (same : rendered r = rendered other) {p : Assembly.Line → Bool}
    (front : (listing r).takeWhile p = (listing other).takeWhile p) :
    ((listing r).dropWhile p).flatMap (fun l => Text.splitAt '\n' l.text.toList) =
      ((listing other).dropWhile p).flatMap fun l => Text.splitAt '\n' l.text.toList := by
  cases r with
  | error e s =>
    cases other with
    | error => rfl
    | ok image' t =>
      rw [rendered_ok] at same
      cases same
  | ok image s =>
    cases other with
    | error =>
      rw [rendered_ok] at same
      cases same
    | ok image' t =>
      rw [rendered_ok,rendered_ok] at same
      have text := congrArg (Text.splitAt '\n' ·.toList) (Except.ok.inj same)
      simp only [Assembly.splitAt_lines (Image.lines_ne_nil _)] at text
      rw [← List.takeWhile_append_dropWhile (p := p) (l := image.lines),
        ← List.takeWhile_append_dropWhile (p := p) (l := image'.lines),List.flatMap_append,
        List.flatMap_append] at text
      simp only [listing] at front ⊢
      rw [front] at text
      exact List.append_cancel_left text

end CoolBackend
