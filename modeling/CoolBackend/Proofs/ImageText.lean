import CoolBackend.Proofs.Rendering

/-!
A value has a text if all templates that it names exist and nothing in it is foreign. The values of
lowered code and of images are of this kind, whatever labels, numbers and names they hold.
-/
namespace CoolBackend.Assembly

/-- All templates exist, and all leaves are texts and numbers. -/
inductive Value.Renderable (group : Group) : Value → Prop where
  | text (s : String) : Renderable group (.text s)
  | int (n : Int) : Renderable group (.int n)
  | fragment {name : String} {bindings : List (String × Value)}
      (known : (group.find? name).isSome) (parts : ∀ b ∈ bindings, Renderable group b.2) :
      Renderable group (.fragment name bindings)

theorem renderBindings_of_texts {group : Group} {bindings : List (String × Value)}
    (parts : ∀ b ∈ bindings, ∃ text, b.2.render group = .ok text) :
    ∃ texts : List (String × String),
      renderBindings group bindings = texts.map fun b => (b.1,.ok b.2) := by
  induction bindings with
  | nil => exact ⟨[],rfl⟩
  | cons b rest ih =>
    obtain ⟨⟨text,rendered⟩,parts⟩ := List.forall_mem_cons.mp parts
    obtain ⟨texts,others⟩ := ih parts
    refine ⟨(b.1,text) :: texts,?_⟩
    rw [renderBindings,rendered,others]
    rfl

theorem Value.Renderable.has_text {group : Group} {value : Value} (ok : value.Renderable group) :
    ∃ text, value.render group = .ok text := by
  induction ok with
  | text s => exact ⟨s,rfl⟩
  | int n => exact ⟨toString n,rfl⟩
  | fragment known _ ih =>
    obtain ⟨template,found⟩ := Option.isSome_iff_exists.mp known
    obtain ⟨texts,rendered⟩ := renderBindings_of_texts ih
    exact ⟨_,render_fragment found rendered⟩

end CoolBackend.Assembly

namespace CoolBackend

open Assembly

namespace Code

theorem outcomeBindings_renderable (label : String) :
    ∀ b ∈ outcomeBindings label, b.2.Renderable Spim.group := by
  simp [outcomeBindings,Value.Renderable.text]

theorem siteBindings_renderable (site : Site) :
    ∀ b ∈ siteBindings site, b.2.Renderable Spim.group := by
  simp [siteBindings,Value.Renderable.text,Value.Renderable.int]

theorem barrierBindings_renderable (barrier : Bool) :
    ∀ b ∈ barrierBindings barrier, b.2.Renderable Spim.group := by
  cases barrier <;> simp [barrierBindings,Value.Renderable.text]

theorem sequenceOf_renderable {steps : List Value}
    (parts : ∀ v ∈ steps, v.Renderable Spim.group) : (sequenceOf steps).Renderable Spim.group := by
  refine .fragment rfl fun b member => ?_
  obtain ⟨v,among,rfl⟩ := List.mem_map.mp member
  exact parts v among

theorem caseTest_renderable (tag : Nat) (target : String) :
    (caseTest tag target).Renderable Spim.group :=
  .fragment rfl (by simp [Value.Renderable.text,Value.Renderable.int])

mutual

theorem toValue_renderable : (code : Code) → code.toValue.Renderable Spim.group
  | .loadLiteral _ => .fragment rfl (by simp [Value.Renderable.text])
  | .loadVoid => .fragment rfl (by simp)
  | .loadSelf => .fragment rfl (by simp)
  | .loadVar _ => .fragment rfl (by simp [Value.Renderable.text,Value.Renderable.int])
  | .storeVar value _ barrier => by
    have inner := value.toValue_renderable
    exact .fragment rfl (by simpa [inner,Value.Renderable.text,Value.Renderable.int] using
      barrierBindings_renderable barrier)
  | .arithmetic _ left right => by
    have first := left.toValue_renderable
    have second := right.toValue_renderable
    exact .fragment rfl (by simp [first,second,Value.Renderable.text])
  | .negate operand => .fragment rfl (by simp [operand.toValue_renderable])
  | .compare _ left right label => by
    have first := left.toValue_renderable
    have second := right.toValue_renderable
    exact .fragment rfl (by simpa [first,second,Value.Renderable.text] using
      outcomeBindings_renderable label)
  | .equality left right label => by
    have first := left.toValue_renderable
    have second := right.toValue_renderable
    exact .fragment rfl (by simpa [first,second] using outcomeBindings_renderable label)
  | .predicate kind operand label => by
    have inner := operand.toValue_renderable
    refine .fragment (by cases kind <;> rfl) ?_
    simpa [inner] using outcomeBindings_renderable label
  | .cond test yes no _ _ => by
    have first := test.toValue_renderable
    have second := yes.toValue_renderable
    have third := no.toValue_renderable
    exact .fragment rfl (by simp [first,second,third,Value.Renderable.text])
  | .loop test body _ _ => by
    have first := test.toValue_renderable
    have second := body.toValue_renderable
    exact .fragment rfl (by simp [first,second,Value.Renderable.text])
  | .sequence steps => sequenceOf_renderable (toValues_renderable steps)
  | .letIn stores body => by
    have first := sequenceOf_renderable (toValues_renderable stores)
    have second := body.toValue_renderable
    exact .fragment rfl (by simp [first,second])
  | .newObject _ => .fragment rfl (by simp [Value.Renderable.text])
  | .newSelf => .fragment rfl (by simp)
  | .dispatch args receiver staticClass offset site => by
    have pushes := sequenceOf_renderable (toPushes_renderable args)
    have inner := receiver.toValue_renderable
    refine .fragment rfl ?_
    simp only [List.forall_mem_append,List.forall_mem_cons]
    refine ⟨⟨⟨?_,inner,List.forall_mem_nil _⟩,?_⟩,.int _,siteBindings_renderable site⟩
    · split
      · exact List.forall_mem_nil _
      · exact List.forall_mem_singleton.mpr pushes
    · cases staticClass with
      | none => exact List.forall_mem_nil _
      | some c => exact List.forall_mem_singleton.mpr (.text c)
  | .caseOf scrutinee site tests branches endLabel => by
    have inner := scrutinee.toValue_renderable
    have bodies := sequenceOf_renderable (toBranches_renderable endLabel branches)
    have guards : ∀ v ∈ tests.map fun t => caseTest t.1 t.2, v.Renderable Spim.group := by
      intro v member
      obtain ⟨t,-,rfl⟩ := List.mem_map.mp member
      exact caseTest_renderable t.1 t.2
    refine .fragment rfl ?_
    simp only [List.forall_mem_append,List.forall_mem_cons]
    refine ⟨⟨⟨inner,siteBindings_renderable site⟩,?_⟩,.text _,List.forall_mem_nil _⟩
    split
    · exact List.forall_mem_nil _
    · exact List.forall_mem_cons.mpr
        ⟨sequenceOf_renderable guards,List.forall_mem_singleton.mpr bodies⟩

theorem toValues_renderable : (steps : List Code) →
    ∀ v ∈ toValues steps, v.Renderable Spim.group
  | [] => List.forall_mem_nil _
  | c :: rest => List.forall_mem_cons.mpr ⟨c.toValue_renderable,toValues_renderable rest⟩

theorem toPushes_renderable : (args : List Code) →
    ∀ v ∈ toPushes args, v.Renderable Spim.group
  | [] => List.forall_mem_nil _
  | c :: rest => by
    have inner := c.toValue_renderable
    exact List.forall_mem_cons.mpr
      ⟨.fragment rfl (List.forall_mem_singleton.mpr inner),toPushes_renderable rest⟩

theorem toBranches_renderable (endLabel : String) : (branches : List (BranchHead × Code)) →
    ∀ v ∈ toBranches endLabel branches, v.Renderable Spim.group
  | [] => List.forall_mem_nil _
  | (_,body) :: rest => by
    have inner := body.toValue_renderable
    refine List.forall_mem_cons.mpr ⟨.fragment rfl ?_,toBranches_renderable endLabel rest⟩
    simp [inner,Value.Renderable.text,Value.Renderable.int]

end

end Code

theorem Literal.toValue_renderable (l : Literal) : l.toValue.Renderable Spim.group := by
  cases l with
  | int => exact .fragment rfl (by simp [Value.Renderable.text,Value.Renderable.int])
  | string => exact .fragment rfl (by simp [Value.Renderable.text,Value.Renderable.int])
  | bool => exact .fragment rfl (by simp [Value.Renderable.text,Value.Renderable.int])

theorem Prototype.toValue_renderable (p : Prototype) : p.toValue.Renderable Spim.group := by
  have slots : ∀ slot : PrototypeSlot, slot.toValue.Renderable Spim.group := by
    intro slot
    cases slot with
    | word => exact .fragment rfl (by simp [Value.Renderable.text])
    | emptyString => exact .fragment rfl (by simp [Value.Renderable.text])
  refine .fragment rfl ?_
  simp [slots,Value.Renderable.text,Value.Renderable.int]

theorem DispatchTable.toValue_renderable (t : DispatchTable) :
    t.toValue.Renderable Spim.group :=
  .fragment rfl (by simp [Value.Renderable.text])

theorem frameBindings_renderable (words : Nat) :
    ∀ b ∈ frameBindings words, b.2.Renderable Spim.group := by
  rw [frameBindings]
  split
  · exact List.forall_mem_nil _
  · exact List.forall_mem_singleton.mpr (.int _)

theorem prologue_renderable (frameWords : Nat) : (prologue frameWords).Renderable Spim.group :=
  .fragment rfl (frameBindings_renderable frameWords)

theorem epilogue_renderable (frameWords formals : Nat) :
    (epilogue frameWords formals).Renderable Spim.group :=
  .fragment rfl (List.forall_mem_cons.mpr ⟨.int _,frameBindings_renderable frameWords⟩)

theorem AttributeStore.toValue_renderable (s : AttributeStore) :
    s.toValue.Renderable Spim.group := by
  refine .fragment rfl (List.forall_mem_append.mpr ⟨?_,Code.barrierBindings_renderable s.barrier⟩)
  simp [s.value.toValue_renderable,Value.Renderable.int]

theorem InitRoutine.toValue_renderable (r : InitRoutine) : r.toValue.Renderable Spim.group := by
  refine .fragment rfl ?_
  simp only [List.forall_mem_append,List.forall_mem_cons,List.forall_mem_map]
  refine ⟨⟨⟨.text _,prologue_renderable _,epilogue_renderable _ _,List.forall_mem_nil _⟩,?_⟩,
    fun s _ => s.toValue_renderable⟩
  cases r.parent with
  | none => exact List.forall_mem_nil _
  | some parent => exact List.forall_mem_singleton.mpr (.text parent)

theorem MethodRoutine.toValue_renderable (r : MethodRoutine) : r.toValue.Renderable Spim.group := by
  refine .fragment rfl ?_
  simp [prologue_renderable,epilogue_renderable,r.body.toValue_renderable,Value.Renderable.text]

theorem Image.toValue_renderable (image : Image) :
    image.toFragment.toValue.Renderable Spim.group := by
  refine .fragment rfl ?_
  simp only [toFragment,List.forall_mem_append,List.forall_mem_map]
  refine ⟨⟨⟨⟨⟨⟨⟨⟨?_,?_⟩,?_⟩,?_⟩,?_⟩,?_⟩,?_⟩,?_⟩,?_⟩
  · simp [Value.Renderable.text,Value.Renderable.int]
  · exact fun _ _ => .text _
  · exact fun _ _ => .text _
  · exact fun p _ => p.toValue_renderable
  · exact fun t _ => t.toValue_renderable
  · exact fun r _ => r.toValue_renderable
  · exact fun r _ => r.toValue_renderable
  · exact fun l _ => l.toValue_renderable
  · exact fun l _ => l.toValue_renderable

/-- No image is beyond the templates. -/
theorem Image.render_toFragment (image : Image) :
    ∃ text, image.toFragment.render Spim.group = .ok text :=
  image.toValue_renderable.has_text

end CoolBackend
