import CoolBackend.Proofs.Assembling

/-!
What the literal pool holds after any sequence of requests. Each value that was asked for has one
entry, whose label is the answer to every request for it. Nothing else is there but the lengths of
the strings, each in front of the first string that needs it.
-/
namespace CoolBackend

def Constant.pooled : Constant → Bool
  | int _ | string _ => true
  | bool _ => false

namespace LiteralPool

/-- Every string stands behind the integer that is its length. -/
def LengthsFirst (entries : List Literal) : Prop :=
  ∀ (i : Nat) label value length, entries[i]? = some (.string label value length) →
    ∃ j < i, entries[j]? = some (.int length (Int32.ofNat value.length))

theorem LengthsFirst.push {entries : List Literal} (first : LengthsFirst entries) {e : Literal}
    (fits : ∀ label value length, e = .string label value length →
      .int length (Int32.ofNat value.length) ∈ entries) : LengthsFirst (entries ++ [e]) := by
  intro i label value length here
  by_cases old : i < entries.length
  · rw [List.getElem?_append_left old] at here
    obtain ⟨j,before,there⟩ := first i label value length here
    exact ⟨j,before,by rw [List.getElem?_append_left (by omega),there]⟩
  · rw [List.getElem?_append_right (by omega)] at here
    have new := List.mem_singleton.mp (List.mem_of_getElem? here)
    obtain ⟨j,bound,there⟩ := List.getElem_of_mem (fits label value length new.symm)
    refine ⟨j,by omega,?_⟩
    rw [List.getElem?_append_left bound,List.getElem?_eq_getElem bound,there]

structure Serves (requests : List Constant) (pool : LiteralPool) : Prop where
  sound : pool.Sound
  distinct : pool.constants.Nodup
  origin : ∀ r ∈ pool.constants, r ∈ requests ∨
    ∃ value, .string value ∈ requests ∧ r = .int (Int32.ofNat value.length)
  lengths : LengthsFirst pool.entries

namespace Serves

variable {requests : List Constant} {pool : LiteralPool}

theorem empty (requests : List Constant) : Serves requests .empty :=
  ⟨sound_empty,List.nodup_nil,by simp [constants,LiteralPool.empty],
    by simp [LengthsFirst,LiteralPool.empty]⟩

theorem push (serves : Serves requests pool) {later : LiteralPool} {e : Literal}
    (grown : later.entries = pool.entries ++ [e]) (sound : later.Sound)
    (new : e.constant ∉ pool.constants)
    (asked : e.constant ∈ requests ∨
      ∃ value, .string value ∈ requests ∧ e.constant = .int (Int32.ofNat value.length))
    (fits : ∀ label value length, e = .string label value length →
      .int length (Int32.ofNat value.length) ∈ pool.entries) :
    Serves requests later := by
  have more : later.constants = pool.constants ++ [e.constant] := by
    simp [constants,grown]
  refine ⟨sound,?_,?_,grown ▸ serves.lengths.push fits⟩
  · rw [more]
    exact List.nodup_append.mpr ⟨serves.distinct,List.nodup_singleton _,fun r held s added same =>
      new (List.mem_singleton.mp added ▸ same ▸ held)⟩
  · rw [more]
    exact List.forall_mem_append.mpr ⟨serves.origin,List.forall_mem_singleton.mpr asked⟩

theorem int (serves : Serves requests pool) {value : Int32}
    (asked : .int value ∈ requests ∨
      ∃ text, .string text ∈ requests ∧ value = Int32.ofNat text.length) :
    Serves requests (pool.int value).2 := by
  have sound := serves.sound.int value
  rcases int_cases pool value with ⟨label,-,answer⟩ | ⟨new,label,-,answer⟩
  · rw [answer]
    exact serves
  · rw [answer] at sound ⊢
    refine serves.push rfl sound new (asked.imp_right ?_) (fun _ _ _ same => by cases same)
    rintro ⟨text,among,same⟩
    exact ⟨text,among,congrArg Constant.int same⟩

theorem string (serves : Serves requests pool) {value : Bytes} (asked : .string value ∈ requests) :
    Serves requests (pool.string value).2 := by
  have sound := serves.sound.string value
  rcases string_cases pool value with ⟨label,length,-,answer⟩ | ⟨new,label,_,rfl,-,answer⟩
  · rw [answer]
    exact serves
  · -- The length is asked for first; it is no string, so that the string stays new.
    have longer := serves.int (.inr ⟨value,asked,rfl⟩)
    have entry := pool.int_entry (Int32.ofNat value.length)
    have other : .string value ∉ (pool.int (Int32.ofNat value.length)).2.constants := by
      rcases int_cases pool (Int32.ofNat value.length) with ⟨_,-,drawn⟩ | ⟨-,_,-,drawn⟩
      · rw [drawn]
        exact new
      · rw [drawn]
        simpa [constants,addInt,Literal.constant] using new
    rw [answer] at sound ⊢
    refine longer.push rfl sound other (.inl asked) ?_
    intro _ _ _ same
    cases same
    exact entry

end Serves

def Answers (pool : LiteralPool) (r : Constant) (answer : String) : Prop :=
  match r with
  | .bool b => answer = Literal.boolLabel b
  | r => ∃ e ∈ pool.entries, e.constant = r ∧ e.label = answer

theorem Answers.grows {pool later : LiteralPool} (grows : pool.Grows later) {r : Constant}
    {answer : String} (answers : pool.Answers r answer) : later.Answers r answer := by
  cases r with
  | bool => exact answers
  | int | string =>
    obtain ⟨e,member,holds⟩ := answers
    exact ⟨e,grows.kept.subset member,holds⟩

/-- Among distinct constants each has one entry. -/
theorem eq_of_constant {pool : LiteralPool} (distinct : pool.constants.Nodup) {e e' : Literal}
    (member : e ∈ pool.entries) (member' : e' ∈ pool.entries) (same : e.constant = e'.constant) :
    e = e' := List.inj_on_of_nodup_map distinct member member' same

end LiteralPool

section Runs

variable {requests : List Constant} {s t : Supply}

theorem constant_answers {r : Constant} {answer : String}
    (run : LowerM.constant r s = .ok answer t) : t.literals.Answers r answer := by
  cases r with
  | bool =>
    cases run
    rfl
  | int value =>
    cases run
    exact ⟨_,s.literals.int_entry value,rfl,rfl⟩
  | string value =>
    cases run
    obtain ⟨length,member⟩ := s.literals.string_entry value
    exact ⟨_,member,rfl,rfl⟩

theorem constant_serves {r : Constant} {answer : String} (asked : r ∈ requests)
    (serves : s.literals.Serves requests) (run : LowerM.constant r s = .ok answer t) :
    t.literals.Serves requests := by
  cases r with
  | bool =>
    cases run
    exact serves
  | int =>
    cases run
    exact serves.int (.inl asked)
  | string =>
    cases run
    exact serves.string asked

/-- A constant that has a label keeps it, and nothing is added for it. -/
theorem constant_again {r : Constant} {answer : String} (distinct : s.literals.constants.Nodup)
    (answers : s.literals.Answers r answer) : LowerM.constant r s = .ok answer s := by
  cases r with
  | bool =>
    cases answers
    rfl
  | int value =>
    obtain ⟨e,member,same,rfl⟩ := answers
    change EStateM.Result.ok (s.literals.int value).1
      { s with literals := (s.literals.int value).2 } = _
    rcases s.literals.int_cases value with ⟨label,found,drawn⟩ | ⟨new,-⟩
    · rw [drawn,LiteralPool.eq_of_constant distinct member found same]
      rfl
    · exact absurd (List.mem_map.mpr ⟨e,member,same⟩) new
  | string value =>
    obtain ⟨e,member,same,rfl⟩ := answers
    change EStateM.Result.ok (s.literals.string value).1
      { s with literals := (s.literals.string value).2 } = _
    rcases s.literals.string_cases value with ⟨label,length,found,drawn⟩ | ⟨new,-⟩
    · rw [drawn,LiteralPool.eq_of_constant distinct member found same]
      rfl
    · exact absurd (List.mem_map.mpr ⟨e,member,same⟩) new

theorem constants_succeed (rs : List Constant) (s : Supply) :
    ∃ answers t, rs.mapM LowerM.constant s = .ok answers t := by
  induction rs generalizing s with
  | nil => exact ⟨[],s,rfl⟩
  | cons r rs ih =>
    obtain ⟨answer,u,first⟩ : ∃ answer u, LowerM.constant r s = .ok answer u := by
      cases r <;> exact ⟨_,_,rfl⟩
    obtain ⟨answers,t,rest⟩ := ih u
    rw [List.mapM_cons]
    exact ⟨_,t,bind_eq_ok.mpr ⟨_,u,first,bind_eq_ok.mpr ⟨_,t,rest,rfl⟩⟩⟩

theorem constants_grow {rs : List Constant} {answers : List String}
    (run : rs.mapM LowerM.constant s = .ok answers t) : s.literals.Grows t.literals :=
  mapM_induction (R := fun s _ _ t => s.literals.Grows t.literals) (fun _ => .refl _)
    (fun _ _ _ _ _ _ _ first rest => (constant_drawn first).1.grows.trans rest) run

theorem constants_serve {rs : List Constant} {answers : List String}
    (run : rs.mapM LowerM.constant s = .ok answers t) (asked : rs ⊆ requests)
    (serves : s.literals.Serves requests) : t.literals.Serves requests := by
  refine mapM_induction (R := fun s rs _ t => rs ⊆ requests → s.literals.Serves requests →
    t.literals.Serves requests) (fun _ _ serves => serves) ?_ run asked serves
  intro r answer rs answers s u t first ih asked serves
  obtain ⟨here,others⟩ := List.cons_subset.mp asked
  exact ih others (constant_serves here serves first)

theorem constants_answer {rs : List Constant} {answers : List String}
    (run : rs.mapM LowerM.constant s = .ok answers t) :
    List.Forall₂ t.literals.Answers rs answers := by
  induction rs generalizing s answers with
  | nil =>
    cases run
    exact .nil
  | cons r rs ih =>
    rw [List.mapM_cons] at run
    obtain ⟨answer,u,first,others⟩ := bind_eq_ok.mp run
    obtain ⟨_,_,rest,final⟩ := bind_eq_ok.mp others
    cases final
    exact .cons ((constant_answers first).grows (constants_grow rest)) (ih rest)

end Runs

namespace LiteralPool

/-- The labels of the booleans are apart from those of the pool. -/
theorem Sound.nodup_with_bools {pool : LiteralPool} (sound : pool.Sound) :
    ((pool.entries ++ Literal.bools).map Literal.label).Nodup := by
  rw [List.map_append]
  refine sound.nodup.append (by decide) fun label pooled among => ?_
  obtain ⟨stem,one,k,rfl⟩ := sound.numbered pooled
  have plain : Digitless stem := by
    have all : ∀ stem ∈ ["int_const","str_const"], Digitless stem := by decide
    exact all stem one
  have shape : ∃ k' : Nat, stem ++ toString k = "bool_const" ++ toString k' := by
    rcases List.mem_pair.mp among with same | same
    · exact ⟨0,same⟩
    · exact ⟨1,same⟩
  obtain ⟨k',same⟩ := shape
  rw [(numbered_inj plain (by decide) same).1] at one
  exact absurd one (by decide)

theorem Serves.count_eq_one {requests : List Constant} {pool : LiteralPool}
    (serves : pool.Serves requests) {r : Constant} {answer : String} (pooled : r.pooled)
    (answers : pool.Answers r answer) : pool.constants.count r = 1 := by
  refine List.count_eq_one_of_mem serves.distinct ?_
  cases r with
  | bool => cases pooled
  | int | string =>
    obtain ⟨e,member,same,-⟩ := answers
    exact List.mem_map.mpr ⟨e,member,same⟩

end LiteralPool

/-- After any sequence of requests, an empty pool has distinct labels, numbered by kind in the order
of the entries; one entry for each integer and string that was asked for, and no others but lengths;
and each string behind the entry of its length. A request that was made before gets the same answer
and changes nothing, and entries stay where they are. -/
theorem literal_pool_invariant (requests : List Constant) (counter : Nat)
    (short : ∀ value, .string value ∈ requests → value.length < 1 <<< 31) :
    ∃ answers supply,
      requests.mapM LowerM.constant { labels := counter } = .ok answers supply ∧
      ((supply.literals.entries ++ Literal.bools).map Literal.label).Nodup ∧
      (∀ r ∈ requests, r.pooled → supply.literals.constants.count r = 1) ∧
      (∀ r ∈ supply.literals.constants, r ∈ requests ∨
        ∃ value, .string value ∈ requests ∧ r = .int (Int32.ofNat value.length)) ∧
      List.Forall₂ (fun r answer => LowerM.constant r supply = .ok answer supply)
        requests answers ∧
      supply.literals.Numbered Literal.isInt "int_const" ∧
      supply.literals.Numbered Literal.isString "str_const" ∧
      (∀ (i : Nat) label value length,
        supply.literals.entries[i]? = some (.string label value length) →
        ∃ j < i, ∃ n : Int32, supply.literals.entries[j]? = some (.int length n) ∧
          n.toInt = value.length) ∧
      ∀ before after, requests = before ++ after →
        ∃ earlier early, before.mapM LowerM.constant { labels := counter } = .ok earlier early ∧
          early.literals.entries <+: supply.literals.entries := by
  obtain ⟨answers,supply,run⟩ := constants_succeed requests { labels := counter }
  have serves := constants_serve run (List.Subset.refl _) (.empty requests)
  have answered := constants_answer run
  refine ⟨answers,supply,run,serves.sound.nodup_with_bools,?_,serves.origin,
    answered.imp fun _ _ => constant_again serves.distinct,serves.sound.ints,serves.sound.strings,
    ?_,?_⟩
  · intro r member pooled
    obtain ⟨i,bound,rfl⟩ := List.getElem_of_mem member
    obtain ⟨length,each⟩ := List.forall₂_iff_get.mp answered
    exact serves.count_eq_one pooled (each i bound (length ▸ bound))
  · intro i label value length here
    obtain ⟨j,before,there⟩ := serves.lengths i label value length here
    have held : .string value ∈ supply.literals.constants :=
      List.mem_map.mpr ⟨_,List.mem_of_getElem? here,rfl⟩
    have asked : .string value ∈ requests := by
      rcases serves.origin _ held with asked | ⟨_,-,other⟩
      · exact asked
      · cases other
    exact ⟨j,before,_,there,Int32.toInt_ofNat_of_lt (short value asked)⟩
  · rintro before after rfl
    rw [List.mapM_append] at run
    obtain ⟨earlier,early,first,others⟩ := bind_eq_ok.mp run
    obtain ⟨_,_,rest,final⟩ := bind_eq_ok.mp others
    cases final
    exact ⟨earlier,early,first,(constants_grow rest).kept⟩

/-- A string whose length was asked for as a number before, and one that is asked for twice. -/
def mixedRequests : List Constant :=
  [.int 2,.string [0x61,0x62],.bool true,.string [],.int 0,.string [0x61,0x62],.int (-1)]

theorem mixedRequests_served :
    (∀ value, .string value ∈ mixedRequests → value.length < 1 <<< 31) ∧
    ∃ answers supply,
      mixedRequests.mapM LowerM.constant {} = .ok answers supply ∧
      answers = ["int_const0","str_const0","bool_const1","str_const1","int_const1","str_const0",
        "int_const2"] ∧
      ((supply.literals.entries ++ Literal.bools).map Literal.label).Nodup ∧
      List.Forall₂ (fun r answer => LowerM.constant r supply = .ok answer supply)
        mixedRequests answers := by
  have short : ∀ value, .string value ∈ mixedRequests → value.length < 1 <<< 31 := by
    simp [mixedRequests]
  obtain ⟨answers,supply,run,distinct,-,-,again,-⟩ := literal_pool_invariant mixedRequests 0 short
  refine ⟨short,answers,supply,run,?_,distinct,again⟩
  cases run
  rfl

end CoolBackend
