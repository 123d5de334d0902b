import CoolBackend.Proofs.Closedness

/-!
A compilation ends with a text, or with an internal error that names what the program lacks. The
templates never stand in its way: whatever an image binds, directly or inside other fragments, is a
text, a number or a fragment of a template that exists.
-/
namespace CoolBackend.Assembly

/-- What a value binds, directly or inside its fragments; a value reaches itself. -/
inductive Value.Reaches : Value → Value → Prop where
  | refl (value : Value) : Reaches value value
  | bound {name : String} {bindings : List (String × Value)} {b : String × Value} {value : Value}
      (member : b ∈ bindings) (inside : Reaches b.2 value) : Reaches (.fragment name bindings) value

def Value.WellMade (group : Group) : Value → Prop
  | .text _ | .int _ => True
  | .fragment name _ => group.has name
  | .foreign _ => False

theorem Value.Renderable.wellMade {group : Group} {value : Value} (ok : value.Renderable group) :
    value.WellMade group := by
  cases ok with
  | text | int => trivial
  | fragment known => exact known

theorem Value.Renderable.reaches {group : Group} {value inner : Value}
    (ok : value.Renderable group) (reaches : value.Reaches inner) : inner.Renderable group := by
  induction reaches with
  | refl => exact ok
  | bound member _ ih =>
    cases ok with
    | fragment _ parts => exact ih (parts _ member)

section Converse

variable {group : Group}

mutual

theorem Value.renderable_of_reaches : (value : Value) →
    (∀ inner, value.Reaches inner → inner.WellMade group) → value.Renderable group
  | .text s, _ => .text s
  | .int n, _ => .int n
  | .foreign _, all => (all _ (.refl _)).elim
  | .fragment _ bindings, all =>
    .fragment (all _ (.refl _)) (renderable_of_bound bindings fun _ member inner reaches =>
      all inner (.bound member reaches))

theorem renderable_of_bound : (bindings : List (String × Value)) →
    (∀ b ∈ bindings, ∀ inner, b.2.Reaches inner → inner.WellMade group) →
    ∀ b ∈ bindings, b.2.Renderable group
  | [], _ => List.forall_mem_nil _
  | (_,value) :: rest, all =>
    List.forall_mem_cons.mpr ⟨value.renderable_of_reaches (all _ (.head _)),
      renderable_of_bound rest fun b member => all b (.tail _ member)⟩

end

end Converse

/-- A value whose parts are all well made has a text. -/
theorem Value.has_text_of_reaches {group : Group} {value : Value}
    (parts : ∀ inner, value.Reaches inner → inner.WellMade group) :
    ∃ text, value.render group = .ok text :=
  (value.renderable_of_reaches parts).has_text

end CoolBackend.Assembly

namespace CoolBackend

open Assembly

theorem Image.parts_wellMade (image : Image) :
    ∀ inner, image.toFragment.toValue.Reaches inner → inner.WellMade Spim.group :=
  fun _ reaches => (image.toValue_renderable.reaches reaches).wellMade

namespace Session

/-- Nothing is climbed without end: the chain of every class that was laid out ends by itself. -/
theorem chains_end {p : Program} {options : Options} {s : Session}
    (run : layout p { options } = .ok () s) {c : ClassEntry} (member : c ∈ s.classes.toList) :
    s.classes.reachesRoot c ∧
      ∀ fuel, s.classes.size ≤ fuel → s.classes.chainFrom fuel c.tag = s.classes.chain c := by
  obtain ⟨ready,-⟩ := ready_of_layout run
  have ends := ready.reaches c member
  exact ⟨ends,fun fuel enough => ClassTable.chainFrom_stable ends enough⟩

end Session

/-- Whatever the program and the options, a fresh session gives a text or an internal error. All that
is reached from the image that it assembles is well made, so that its rendering does not fail; and
all chains of classes that it follows end. -/
theorem compile_text_or_internal_error (p : Program) (options : Options) :
    ((∃ text s, Session.compile p { options } = .ok text s) ∨
      ∃ e s, Session.compile p { options } = .error (.internal e) s) ∧
    ∀ laid, Session.layout p { options } = .ok () laid →
      (∀ c ∈ laid.classes.toList, laid.classes.reachesRoot c ∧
        ∀ fuel, laid.classes.size ≤ fuel →
          laid.classes.chainFrom fuel c.tag = laid.classes.chain c) ∧
      ∀ image supply, assemble options laid.classes laid.supply = .ok image supply →
        (∀ inner, image.toFragment.toValue.Reaches inner → inner.WellMade Spim.group) ∧
        ∃ text, image.toFragment.render Spim.group = .ok text := by
  constructor
  · cases laid : Session.layout p { options } with
    | error e s => exact .inr ⟨e,s,Session.compile_of_failed_layout laid⟩
    | ok u s =>
      rw [Session.compile_of_layout laid]
      cases assemble s.options s.classes s.supply with
      | error e supply => exact .inr ⟨e,_,rfl⟩
      | ok image supply =>
        obtain ⟨text,rendered⟩ : ∃ text, image.toFragment.render Spim.group = .ok text :=
          Value.has_text_of_reaches image.parts_wellMade
        exact .inl ⟨text,{ s with supply },by simp only [rendered]⟩
  · intro laid run
    refine ⟨fun c member => Session.chains_end run member,fun image supply _ => ?_⟩
    exact ⟨image.parts_wellMade,Value.has_text_of_reaches image.parts_wellMade⟩

/-- A method without a body, which no parser gives. -/
def unfinished : Program where
  classes := [{ name := "Main"
                methods := [{ name := "main", formals := [], returnType := "Int", body := .absent }] }]

theorem unfinished_and_ticking_end :
    (∃ e s, Session.compile unfinished {} = .error (.internal e) s) ∧
    ∃ laid image supply, Session.layout ticking {} = .ok () laid ∧
      assemble {} laid.classes laid.supply = .ok image supply ∧
      (∀ inner, image.toFragment.toValue.Reaches inner → inner.WellMade Spim.group) ∧
      ∃ text, image.toFragment.render Spim.group = .ok text := by
  have fails : succeeded (Session.compile unfinished {}) = false := by decide +kernel
  refine ⟨(compile_text_or_internal_error unfinished {}).1.resolve_left ?_,?_⟩
  · rintro ⟨text,s,run⟩
    rw [run] at fails
    cases fails
  obtain ⟨text,s,run⟩ := ticking_compiles
  obtain ⟨laid,image,layout,assembled,-⟩ := Session.assemble_of_compile run
  have outcome := (compile_text_or_internal_error ticking {}).2 laid layout
  exact ⟨laid,image,s.supply,layout,assembled,outcome.2 image s.supply assembled⟩

end CoolBackend
