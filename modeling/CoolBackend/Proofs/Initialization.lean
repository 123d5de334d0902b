import CoolBackend.Proofs.Prototypes
import CoolBackend.Proofs.VerifiedTables

/-!
In a verified program no attribute is declared twice along a chain, so that a layout has one slot for
each declaration, in their order. The initializers of the classes of a chain, each called by the next
one before it does anything else, store to these slots from the lowest to the highest.
-/
namespace CoolBackend

open Assembly Verify

namespace Verify

theorem distinct_of_checkAttributes {h : Hierarchy} {c : ClassDecl} {seen : List String}
    {attributes : List (Binder × Expr)} (clean : Clean (checkAttributes h c seen attributes)) :
    (attributes.map (·.1.name)).Nodup ∧
      ∀ a ∈ attributes, a.1.name ∉ seen ∧ h.hasAttribute c.parentName a.1.name = false := by
  induction attributes generalizing seen with
  | nil => exact ⟨.nil,List.forall_mem_nil _⟩
  | cons a rest ih =>
    simp only [checkAttributes,clean_append] at clean
    obtain ⟨⟨⟨⟨⟨repeated,-⟩,inherited⟩,-⟩,-⟩,others⟩ := clean
    obtain ⟨distinct,new⟩ := ih others
    have fresh : a.1.name ∉ seen := by
      split at repeated
      next => cases clean_on.mp repeated
      next first => simpa using first
    have own : h.hasAttribute c.parentName a.1.name = false := by
      split at inherited
      next => cases clean_on.mp inherited
      next first => simpa using first
    refine ⟨List.nodup_cons.mpr ⟨fun again => ?_,distinct⟩,
      List.forall_mem_cons.mpr ⟨⟨fresh,own⟩,?_⟩⟩
    · obtain ⟨other,member,same⟩ := List.mem_map.mp again
      exact (new other member).1 (same ▸ List.mem_cons_self)
    · intro other member
      exact ⟨fun earlier => (new other member).1 (List.mem_cons_of_mem _ earlier),(new other member).2⟩

end Verify

namespace ClassTable

variable {table : ClassTable} {c d : ClassEntry}

/-- Walking by name sees at least the classes that walking by tag sees. -/
theorem prefix_chainFrom_known (linked : table.Linked) (fuel : Nat) (member : c ∈ table.toList) :
    (table.chainFrom fuel c.tag).map ClassEntry.known <+: table.known.chainFrom fuel c.name := by
  induction fuel generalizing c with
  | zero => exact List.prefix_rfl
  | succ fuel ih =>
    rw [Hierarchy.chainFrom,find?_known,linked.find?_name member,ClassTable.chainFrom,
      linked.at_tag member]
    rcases linked.parent_cases member with ⟨-,root⟩ | ⟨d,memberD,-,parent,same⟩
    · simp [root]
    · simpa [parent,ClassEntry.known,← same] using ih memberD

theorem hasAttribute_of_declared (linked : table.Linked) (member : c ∈ table.toList)
    {k : ClassEntry × AttributeDecl} (declared : k ∈ declarationsOf (table.chain c)) :
    table.known.hasAttribute c.name k.2.name := by
  obtain ⟨above,own⟩ := mem_declarationsOf.mp declared
  have seen := (prefix_chainFrom_known linked table.size member).subset
    (List.mem_map_of_mem above)
  rw [Hierarchy.hasAttribute,Hierarchy.chain,length_known,List.any_eq_true]
  refine ⟨k.1.known,seen,?_⟩
  rw [List.contains_iff_mem]
  exact List.mem_map_of_mem own

end ClassTable

theorem declarationsOf_singleton (c : ClassEntry) :
    declarationsOf [c] = c.attributes.map (c,·) := by
  simp [declarationsOf]

section Verified

variable {p : Program} {table : ClassTable} {c d : ClassEntry} (verified : Verified p)
  (same : table.toList.map ClassEntry.bare = p.declared)

include verified same

theorem own_distinct (member : c ∈ table.toList) : (c.attributes.map (·.name)).Nodup := by
  rcases entry_source same member with ⟨b,among,tag,made⟩ | ⟨d,declared,tag,made⟩
  · have all : ∀ b ∈ Builtin.all, (b.attributes.map (·.name)).Nodup := by decide
    have attributes : c.attributes = b.attributes := congrArg (·.attributes) made
    rw [attributes]
    exact all b among
  · rw [(ClassEntry.declares_of_bare made).attributes,List.map_map]
    exact (distinct_of_checkAttributes (clean_append.mp (verified.features d declared)).1).1

/-- The parent of a built-in class declares nothing, nor does anything above it. -/
theorem nothing_above_builtin (linked : table.Linked) {b : Builtin} (among : b ∈ Builtin.all)
    (child : b.parent ≠ "") (memberD : d ∈ table.toList) (parent : d.name = b.parent) :
    declarationsOf (table.chain d) = [] := by
  have above : ∀ b ∈ Builtin.all, b.parent ≠ "" → b.parent = Builtin.objectName := by decide
  have object : d.name = Builtin.objectName := parent.trans (above b among child)
  rcases entry_source same memberD with ⟨b',among',tag,made⟩ | ⟨decl,declared,tag,made⟩
  · have root : ∀ b ∈ Builtin.all, b.name = Builtin.objectName →
        b.parent = "" ∧ b.attributes = [] := by decide
    have name : d.name = b'.name := congrArg (·.name) made
    obtain ⟨top,none⟩ := root b' among' (name.symm.trans object)
    have attributes : d.attributes = [] := (congrArg (·.attributes) made).trans none
    have parentName : d.parentName = "" := (congrArg (·.parentName) made).trans top
    rcases linked.parent_cases memberD with ⟨-,unset⟩ | ⟨_,-,named,-⟩
    · rw [linked.chain_root memberD unset,declarationsOf_singleton,attributes]
      rfl
    · exact absurd parentName named
  · have name : d.name = decl.name := congrArg (·.name) made
    have free := (verified.free decl declared).2
    rw [← name,object] at free
    cases free

/-- No attribute is declared twice on a chain. -/
theorem declarations_distinct (linked : table.Linked) (member : c ∈ table.toList) :
    ((declarationsOf (table.chain c)).map (·.2.name)).Nodup := by
  have own {d : ClassEntry} (member : d ∈ table.toList) :
      ((declarationsOf [d]).map (·.2.name)).Nodup := by
    rw [declarationsOf_singleton,List.map_map]
    exact own_distinct verified same member
  refine linked.induction (P := fun c => ((declarationsOf (table.chain c)).map (·.2.name)).Nodup)
    ?_ ?_ c member
  · intro c member _ root
    rw [linked.chain_root member root]
    exact own member
  · intro c member d memberD parent name named ih
    rw [linked.chain_step member parent,← List.singleton_append,declarationsOf_append,
      List.map_append,List.nodup_append]
    refine ⟨ih,own member,?_⟩
    rintro _ earlier _ new rfl
    obtain ⟨k,inherited,again⟩ := List.mem_map.mp earlier
    rw [declarationsOf_singleton,List.map_map] at new
    obtain ⟨a,among,declares⟩ := List.mem_map.mp new
    rcases entry_source same member with ⟨b,builtin,tag,made⟩ | ⟨decl,declared,tag,made⟩
    · have above : d.name = b.parent := name.trans (congrArg (·.parentName) made)
      have child : b.parent ≠ "" := fun root => named ((congrArg (·.parentName) made).trans root)
      rw [nothing_above_builtin verified same linked builtin child memberD above] at inherited
      cases inherited
    · have known := ClassTable.hasAttribute_of_declared linked memberD inherited
      have attributes := (ClassEntry.declares_of_bare made).attributes
      have clean := clean_append.mp (verified.features decl declared)
      rw [attributes] at among
      obtain ⟨⟨binder,init⟩,given,rfl⟩ := List.mem_map.mp among
      have absent := ((distinct_of_checkAttributes clean.1).2 _ given).2
      have above : d.name = decl.parentName := name.trans (congrArg (·.parentName) made)
      rw [ClassTable.known_eq same,above,again,← declares] at known
      exact Bool.false_ne_true (absent.symm.trans known)

end Verified

/-- Declarations of different names all take a slot. -/
theorem AttributeSlot.names_foldl_place {ds : List (ClassEntry × AttributeDecl)}
    (distinct : (ds.map (·.2.name)).Nodup) :
    (ds.foldl place []).map (·.name) = ds.map (·.2.name) := by
  induction ds using List.reverseRecOn with
  | nil => rfl
  | append_singleton ds d ih =>
    rw [List.map_append,List.nodup_append] at distinct
    obtain ⟨earlier,-,apart⟩ := distinct
    have names := ih earlier
    rw [List.foldl_append,List.foldl_cons,List.foldl_nil]
    have free : (ds.foldl place []).any (·.name = d.2.name) = false := by
      rw [List.any_eq_false]
      intro slot here taken
      have among : slot.name ∈ ds.map (·.2.name) := names ▸ List.mem_map_of_mem here
      exact apart slot.name among d.2.name List.mem_cons_self (of_decide_eq_true taken)
    rw [place,free,List.map_append,← names]
    simp

/-- The offset that a layout gives a name. -/
def offsetIn (slots : List AttributeSlot) (name : String) : Int :=
  (slots.find? (·.name = name)).elim 0 fun slot => slot.offset

theorem Location.offset_of_ofAttribute {className name : String} {slots : List AttributeSlot}
    {place : Location} (found : Location.ofAttribute className slots name = .ok place) :
    place.offset = offsetIn slots name := by
  rw [Location.ofAttribute] at found
  rw [offsetIn]
  split at found
  next slot here =>
    cases found
    rw [here]
    rfl
  next => cases found

/-- The stores of a routine go to the slots of the attributes with an initializer, in their order. -/
theorem initRoutine_offsets {options : Options} {classes : ClassTable} {c : ClassEntry}
    {r : InitRoutine} {s t : Supply} (run : initRoutine options classes c s = .ok r t) :
    r.stores.map (·.offset) = (c.attributes.filter (!·.init.isAbsent)).map
      (offsetIn (classes.slots c) ·.name) := by
  rw [initRoutine,initRoutineIn] at run
  obtain ⟨stores,_,made,final⟩ := bind_eq_ok.mp run
  cases final
  have each : stores.map (·.offset) =
      c.initialized.zipIdx.map fun x => offsetIn (classes.slots c) x.1.name := by
    refine mapM_induction (R := fun _ attributes stores _ =>
      stores.map (·.offset) = attributes.map (offsetIn (classes.slots c) ·.1.name)) ?_ ?_ made
    · exact fun _ => rfl
    · intro x store attributes stores _ _ _ first others
      rw [attributeStore] at first
      obtain ⟨place,_,placed,lowered⟩ := bind_eq_ok.mp first
      obtain ⟨located,-⟩ := ofExcept_eq_ok.mp placed
      obtain ⟨value,_,-,final⟩ := bind_eq_ok.mp lowered
      cases final
      rw [List.map_cons,List.map_cons,others]
      exact congrArg (· :: _) (Location.offset_of_ofAttribute located)
  calc stores.map (·.offset)
      = (c.initialized.zipIdx.map Prod.fst).map (offsetIn (classes.slots c) ·.name) := by
        rw [each,List.map_map]
        rfl
    _ = c.initialized.map (offsetIn (classes.slots c) ·.name) := by rw [List.zipIdx_map_fst]

/-- Whether a class of the chain declares the attribute of a slot with an initializer. -/
def ClassTable.initialized (table : ClassTable) (d : ClassEntry) (slot : AttributeSlot) : Bool :=
  (declarationsOf (table.chain d)).any fun k => k.2.name = slot.name && !k.2.init.isAbsent

namespace ClassTable.Ready

variable {table : ClassTable} {d : ClassEntry}

theorem offsetIn_slot (ready : table.Ready) (member : d ∈ table.toList) {slot : AttributeSlot}
    (here : slot ∈ table.slots d) : offsetIn (table.slots d) slot.name = slot.offset := by
  rw [offsetIn,ready.find?_slots member here]
  rfl

/-- An attribute has the same offset in the class that declares it and further down. -/
theorem offsetIn_declared (ready : table.Ready) (member : d ∈ table.toList)
    {k : ClassEntry × AttributeDecl} (declared : k ∈ declarationsOf (table.chain d)) :
    offsetIn (table.slots k.1) k.2.name = offsetIn (table.slots d) k.2.name := by
  obtain ⟨above,own⟩ := mem_declarationsOf.mp declared
  have memberK := ready.mem_of_mem_chain member k.1 above
  have front := ready.prefix_slots memberK member (List.any_eq_true.mpr ⟨k.1,above,by simp⟩)
  have named : k.2.name ∈ (table.slots k.1).map (·.name) := by
    rw [ready.slots_eq memberK,LayoutKind.mem_attributes_plain]
    exact ⟨k.1,ready.mem_chain_self memberK,List.mem_map_of_mem own⟩
  obtain ⟨slot,here,same⟩ := List.mem_map.mp named
  rw [← same,ready.offsetIn_slot memberK here,ready.offsetIn_slot member (front.subset here)]

theorem offsets_pairwise (ready : table.Ready) (member : d ∈ table.toList) :
    (table.slots d).Pairwise (·.offset < ·.offset) := by
  rw [List.pairwise_iff_getElem]
  intro i j boundI boundJ before
  rw [ready.slot_offset member (List.getElem?_eq_getElem boundI),
    ready.slot_offset member (List.getElem?_eq_getElem boundJ)]
  omega

/-- The offsets of all initializers on a chain, from the root down. -/
theorem initializer_offsets (ready : table.Ready) (member : d ∈ table.toList)
    (distinct : ((declarationsOf (table.chain d)).map (·.2.name)).Nodup) :
    ((table.chain d).reverse.flatMap fun k => (k.attributes.filter (!·.init.isAbsent)).map
        (offsetIn (table.slots k) ·.name)) =
      ((table.slots d).filter (table.initialized d)).map fun slot => (slot.offset : Int) := by
  let ds := declarationsOf (table.chain d)
  let given (name : String) : Bool := ds.any fun k => k.2.name = name && !k.2.init.isAbsent
  have names : (table.slots d).map (·.name) = ds.map (·.2.name) := by
    rw [ready.slots_eq member,LayoutKind.attributes_plain_eq]
    exact AttributeSlot.names_foldl_place distinct
  -- A name has one declaration, so it has an initializer if that one has.
  have own : ∀ k ∈ ds, (!k.2.init.isAbsent) = given k.2.name := by
    intro k here
    rw [Bool.eq_iff_iff,List.any_eq_true]
    constructor
    · intro init
      exact ⟨k,here,by simp [init]⟩
    · rintro ⟨other,among,both⟩
      obtain ⟨same,init⟩ := Bool.and_eq_true_iff.mp both
      rwa [List.inj_on_of_nodup_map distinct here among (of_decide_eq_true same).symm]
  calc ((table.chain d).reverse.flatMap fun k => (k.attributes.filter (!·.init.isAbsent)).map
        (offsetIn (table.slots k) ·.name))
      = (ds.filter (!·.2.init.isAbsent)).map fun k => offsetIn (table.slots k.1) k.2.name := by
        simp [ds,declarationsOf,List.filter_flatMap,List.map_flatMap,List.filter_map,
          Function.comp_def]
    _ = (ds.filter (given ·.2.name)).map fun k => offsetIn (table.slots d) k.2.name := by
        rw [List.filter_congr own]
        refine List.map_congr_left fun k here => ?_
        exact ready.offsetIn_declared member (List.mem_filter.mp here).1
    _ = ((ds.map (·.2.name)).filter given).map (offsetIn (table.slots d)) := by
        rw [List.filter_map,List.map_map]
        rfl
    _ = ((table.slots d).filter (given ·.name)).map
          fun slot => offsetIn (table.slots d) slot.name := by
        rw [← names,List.filter_map,List.map_map]
        rfl
    _ = _ := List.map_congr_left fun slot here =>
        ready.offsetIn_slot member (List.mem_filter.mp here).1

end ClassTable.Ready

theorem Assembly.infix_spaced {lines : List Line} {listings : List (List Line)}
    (member : lines ∈ listings) : lines <:+: spaced listings := by
  induction listings with
  | nil => cases member
  | cons first others ih =>
    by_cases last : others = []
    · subst last
      have same : lines = spaced [first] :=
        (List.mem_singleton.mp member).trans (spaced_singleton first).symm
      exact same ▸ List.infix_rfl
    · rw [spaced_cons last]
      rcases List.mem_cons.mp member with rfl | later
      · exact (List.prefix_append ..).isInfix
      · exact (ih later).trans ((List.suffix_cons ..).trans (List.suffix_append ..)).isInfix

namespace InitRoutine

theorem infix_lines {image : Image} {r : InitRoutine} (member : r ∈ image.inits) :
    r.lines <:+: image.lines := by
  have inside : r.lines <:+: block (spaced (image.inits.map lines)) := by
    have here := infix_spaced (List.mem_map_of_mem (f := lines) member)
    rwa [block_eq]
    intro none
    rw [none,List.infix_nil] at here
    cases here
  have text : block (spaced (image.inits.map lines)) <:+: image.textSection :=
    (List.infix_append ..).trans (List.prefix_append ..).isInfix
  exact inside.trans (text.trans (List.suffix_append ..).isInfix)

/-- What stands before the stores of a routine: its entry and the call of the parent. -/
theorem lines_of_parent {r : InitRoutine} {parent : String} (given : r.parent = some parent) :
    r.lines = (.label (r.className ++ "_init") :: code (prologueCode r.frameWords)) ++
      .instruction (.jal (parent ++ "_init")) :: (r.stores.flatMap AttributeStore.lines ++
        code (.move .a0 .s0 :: epilogueCode r.frameWords 0)) := by
  simp [lines,given,code]

end InitRoutine

/-- The entry of a routine stores nothing to the object. -/
theorem not_mem_prologue (frameWords : Nat) (source : Register) (offset : Int) :
    .instruction (.sw source offset .s0) ∉ code (prologueCode frameWords) := by
  unfold prologueCode
  split
  next => simp
  next => simp

/-- The word at an offset of an object in the data section, which begins behind its label. -/
def Assembly.wordAt (object : List Line) (offset : Nat) : Option Line :=
  (object.drop 2)[offset / wordSize]?

namespace Image

def storeOffsets (image : Image) (c : ClassEntry) : List Int :=
  image.inits[c.tag]?.elim [] fun r => r.stores.map (·.offset)

structure Initializes (image : Image) (classes : ClassTable) : Prop where
  /-- The zero and the empty string have the labels that prototypes use. -/
  constants : LiteralPool.base <+: image.literals
  /-- A prototype has one word for each attribute, and at its offset the default of its type. -/
  prototypes : ∀ d ∈ classes.toList, d.name ≠ Builtin.stringName →
    ∃ (before after : List Line) (words : List String),
      let object := objectLines (d.name ++ "_protObj") d.tag (classes.objectSize d.tag).1
        (d.name ++ "_dispTab") (words.map .word)
      image.lines = before ++ object ++ after ∧ Ended after ∧
        words.length = (classes.objectSize d.tag).1 - 3 ∧
        ∀ slot ∈ classes.slots d, wordAt object slot.offset = some (.word (defaultWord slot.type))
  /-- Every class has an initializer, which calls that of the parent before it stores anything. -/
  calls : ∀ c ∈ classes.toList, ∃ r, image.inits[c.tag]? = some r ∧ r.className = c.name ∧
    r.lines <:+: image.lines ∧ ∀ parent, classes.parentNameOf? c = some parent →
      ∃ before after, r.lines = .label (c.name ++ "_init") :: before ++
          .instruction (.jal (parent ++ "_init")) :: (r.stores.flatMap AttributeStore.lines ++ after) ∧
        ∀ source offset, .instruction (.sw source offset .s0) ∉ before
  /-- Along a chain, the stores go to the attributes with an initializer, each once and upward. -/
  stores : ∀ d ∈ classes.toList,
    (classes.chain d).reverse.flatMap image.storeOffsets =
        ((classes.slots d).filter (classes.initialized d)).map (fun slot => (slot.offset : Int)) ∧
      ((classes.chain d).reverse.flatMap image.storeOffsets).Pairwise (· < ·)

end Image

section Assembled

variable {options : Options} {classes : ClassTable} {s t : Supply} {image : Image}
  (run : assemble options classes s = .ok image t)

include run

/-- The initializer of a class stands at its tag. -/
theorem init_of_assemble (sound : classes.Sound) {c : ClassEntry} (member : c ∈ classes.toList) :
    ∃ r u v, image.inits[c.tag]? = some r ∧ initRoutine options classes c u = .ok r v := by
  rw [assemble_eq,assembleWith] at run
  obtain ⟨rows,_,-,others⟩ := bind_eq_ok.mp run
  obtain ⟨inits,_,initialized,others⟩ := bind_eq_ok.mp others
  obtain ⟨methods,_,-,others⟩ := bind_eq_ok.mp others
  obtain ⟨_,_,-,final⟩ := bind_eq_ok.mp others
  cases final
  obtain ⟨length,each⟩ := List.forall₂_iff_get.mp (forall₂_of_mapM initialized)
  have at_tag : classes.toList[c.tag]? = some c := by
    rw [ClassTable.toList,Array.getElem?_toList]
    exact sound.at_tag member
  obtain ⟨bound,same⟩ := List.getElem?_eq_some_iff.mp at_tag
  obtain ⟨u,v,made⟩ := each c.tag bound (length ▸ bound)
  rw [List.get_eq_getElem,same] at made
  exact ⟨_,u,v,List.getElem?_eq_getElem (length ▸ bound),made⟩

theorem storeOffsets_of_assemble (sound : classes.Sound) {c : ClassEntry}
    (member : c ∈ classes.toList) :
    image.storeOffsets c = (c.attributes.filter (!·.init.isAbsent)).map
      (offsetIn (classes.slots c) ·.name) := by
  obtain ⟨r,u,v,at_tag,made⟩ := init_of_assemble run sound member
  rw [Image.storeOffsets,at_tag]
  exact initRoutine_offsets made

/-- The prototype of a class with its place in the text. -/
theorem prototype_of_assemble (ready : classes.Ready) (raw : classes.RawDefault)
    (based : s.literals.Based) (tables : image.dispatchTables ≠ []) {d : ClassEntry}
    (member : d ∈ classes.toList) (other : d.name ≠ Builtin.stringName) :
    ∃ before after, image.lines = before ++ objectLines (d.name ++ "_protObj") d.tag
        (classes.objectSize d.tag).1 (d.name ++ "_dispTab")
        (((classes.slots d).map (defaultWord ·.type)).map .word) ++ after ∧ Image.Ended after := by
  have among : classes.prototype d ∈ image.prototypes := by
    rw [prototypes_of_assemble ready raw based run]
    exact List.mem_map_of_mem member
  have lines : (classes.prototype d).lines = objectLines (d.name ++ "_protObj") d.tag
      (classes.objectSize d.tag).1 (d.name ++ "_dispTab")
      (((classes.slots d).map (defaultWord ·.type)).map .word) := by
    rw [Prototype.lines,ClassTable.prototype,if_neg other,List.flatMap_map,List.map_map]
    exact congrArg _ List.map_eq_flatMap.symm
  rw [← lines]
  exact Image.lines_around_prototype among tables

end Assembled

/-- In a verified program that compiles, the prototypes hold the defaults of all attributes, and the
initializers of a chain, parents first, store to the attributes with an initializer in the order of
the layout. -/
theorem objects_initialized_in_layout_order {p : Program}
    (clean : ∀ d ∈ diagnose p, "warning:".toList <+: d.message.toList) {options : Options}
    {text : String} {s : Session} (run : Session.compile p { options } = .ok text s) :
    ∃ laid image, Session.layout p { options } = .ok () laid ∧
      assemble options laid.classes laid.supply = .ok image s.supply ∧
      text = joined image.lines ∧ image.Initializes laid.classes := by
  have verified := verified_of_clean fun d member => isWarning_of_message member (clean d member)
  obtain ⟨laid,image,layout,assembled,rfl⟩ := Session.assemble_of_compile run
  obtain ⟨ready,same⟩ := Session.ready_of_layout layout
  have based := Session.based_of_layout layout
  have whole := assembled_of_run (rawZero_of_declared same) assembled
  refine ⟨laid,image,layout,assembled,rfl,?_,?_,?_,?_⟩
  · rw [whole.literals]
    exact based.grows whole.grows
  · intro d member other
    have tables : image.dispatchTables ≠ [] := by
      rw [whole.tables]
      exact List.ne_nil_of_mem (List.mem_map_of_mem member)
    obtain ⟨before,after,lines,ended⟩ := prototype_of_assemble assembled ready
      (ClassTable.rawDefault_of_declared same) based tables member other
    have size : (laid.classes.objectSize d.tag).1 = (laid.classes.slots d).length + 3 := rfl
    refine ⟨before,after,_,lines,ended,by rw [List.length_map,size]; omega,?_⟩
    intro slot here
    obtain ⟨i,at_i⟩ := List.mem_iff_getElem?.mp here
    have word : slot.offset / wordSize = i + 3 := by
      rw [ready.slot_offset member at_i,wordSize]
      omega
    rw [wordAt,word]
    simp [objectLines,at_i]
  · intro c member
    obtain ⟨r,u,v,at_tag,made⟩ := init_of_assemble assembled ready.toSound member
    obtain ⟨name,parent,-⟩ := initRoutine_run made
    refine ⟨r,at_tag,name,InitRoutine.infix_lines (List.mem_of_getElem? at_tag),?_⟩
    intro above given
    refine ⟨_,_,name ▸ InitRoutine.lines_of_parent (parent.trans given),?_⟩
    exact not_mem_prologue r.frameWords
  · intro d member
    have offsets : (laid.classes.chain d).reverse.flatMap image.storeOffsets =
        ((laid.classes.slots d).filter (laid.classes.initialized d)).map
          fun slot => (slot.offset : Int) := by
      rw [← ready.initializer_offsets member
        (declarations_distinct verified same ready.toLinked member)]
      refine List.flatMap_congr fun k above => ?_
      exact storeOffsets_of_assemble assembled ready.toSound
        (ready.mem_of_mem_chain member k (List.mem_reverse.mp above))
    refine ⟨offsets,?_⟩
    rw [offsets,List.pairwise_map]
    refine ((ready.offsets_pairwise member).filter _).imp fun before => ?_
    exact Int.ofNat_lt.mpr before

/-- A class and its parent, each with attributes with and without an initializer. -/
def building : Program where
  classes :=
    [ { name := "Main", parent := "Base"
        attributes := [({ name := "next", type := "Main" },.absent),
          ({ name := "ready", type := "Bool" },.constant {} (.bool true))]
        methods := [{
          name := "main"
          formals := []
          returnType := "Object"
          body := .ident {} "count" .attr }] },
      { name := "Base"
        attributes := [({ name := "count", type := "Int" },.constant {} (.int 7)),
          ({ name := "title", type := "String" },.absent)] } ]

theorem building_initialized : ∃ text s laid d, ∃ image : Image,
    Session.compile building {} = .ok text s ∧ Session.layout building {} = .ok () laid ∧
      text = joined image.lines ∧ image.Initializes laid.classes ∧
      laid.classes.find? "Main" = some d ∧
      (laid.classes.slots d).map (defaultWord ·.type) =
        ["int_const0","str_const0","0","bool_const0"] ∧
      (laid.classes.chain d).reverse.flatMap image.storeOffsets = [12,24] := by
  obtain ⟨text,s,run⟩ := exists_of_succeeded
    (by decide +kernel : succeeded (Session.compile building {}))
  have silent : diagnose building = [] := by decide +kernel
  obtain ⟨laid,image,layout,-,lines,initializes⟩ := objects_initialized_in_layout_order
    (by rw [silent]; exact List.forall_mem_nil _) run
  obtain rfl : stateAfter (Session.layout building {}) = laid := by
    rw [layout]
    rfl
  let classes := (stateAfter (Session.layout building {})).classes
  obtain ⟨d,found⟩ := Option.isSome_iff_exists.mp
    (by decide +kernel : (classes.find? "Main").isSome)
  have facts : (classes.slots d).map (defaultWord ·.type) =
        ["int_const0","str_const0","0","bool_const0"] ∧
      ((classes.slots d).filter (classes.initialized d)).map (fun slot => (slot.offset : Int)) =
        [12,24] := by
    have all : (classes.find? "Main").all fun d =>
        (classes.slots d).map (defaultWord ·.type) =
          ["int_const0","str_const0","0","bool_const0"] ∧
        ((classes.slots d).filter (classes.initialized d)).map (fun slot => (slot.offset : Int)) =
          [12,24] := by decide +kernel
    simpa only [found,Option.all_some,decide_eq_true_eq] using all
  have stores := (initializes.stores d (ClassTable.mem_of_find? found).1).1
  exact ⟨text,s,_,d,image,run,layout,lines,initializes,found,facts.1,stores.trans facts.2⟩

end CoolBackend
