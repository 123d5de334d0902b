import CoolBackend.Proofs.UniqueLabels

/-!
What the text of a program declares for the runtime system, and which of it the text defines. The
label of the first method is only there if the class `Main` has a method `main` of its own, while
the verifier is content with one that is inherited.
-/
namespace CoolBackend

namespace Assembly

def globalOf? (line : List Char) : Option String :=
  match Text.splitAt '\t' line with
  | [[],directive,symbol] =>
    if String.ofList directive = ".globl" then some (String.ofList symbol) else none
  | _ => none

def globalsIn (text : String) : List String :=
  (Text.splitAt '\n' text.toList).filterMap globalOf?

theorem globalOf?_statement {mnemonic : String} {operands : List String}
    (word : '\t' ∉ mnemonic.toList) (tabs : ∀ o ∈ operands, '\t' ∉ o.toList) :
    globalOf? (statement mnemonic operands).toList =
      if mnemonic = ".globl" ∧ operands ≠ [] then some (" ".intercalate operands) else none := by
  have split := splitAt_statement word tabs
  cases operands with
  | nil => simp [globalOf?,split]
  | cons o rest =>
    rw [if_neg (List.cons_ne_nil _ _)] at split
    have text : String.ofList ([' '].intercalate ((o :: rest).map String.toList)) =
        " ".intercalate (o :: rest) := by simp [← String.toList_inj]
    simp only [globalOf?,split,String.ofList_toList,text]
    simp

/-- A line that refers only to what is known declares only what the runtime system expects. -/
theorem Line.Refers.global {known : String → Prop} {l : Line} (refers : l.Refers known)
    (legible : l.Legible) {name : String} (declares : globalOf? l.text.toList = some name) :
    name ∈ globalSymbols := by
  cases l with
  | blank => cases declares
  | label name =>
    have plain : Plain name := legible
    have free : '\t' ∉ (name ++ ":").toList := by simp [plain.tab]
    rw [text,globalOf?,splitAt_free free] at declares
    cases given : (name ++ ":").toList <;> rw [given] at declares <;> cases declares
  | instruction i =>
    obtain ⟨mnemonic,plain⟩ := legible
    rw [text,globalOf?_statement (plain_mnemonic mnemonic).tab fun o member => (plain o member).tab,
      if_neg] at declares
    · cases declares
    · rintro ⟨same,-⟩
      rw [same] at mnemonic
      revert mnemonic
      decide
  | directive directive operands =>
    obtain ⟨word,free,-⟩ := legible
    rw [text,globalOf?_statement word.tab fun o member => (free o member).2] at declares
    split at declares
    next given =>
      obtain ⟨rfl,-⟩ := given
      obtain ⟨-,refers⟩ := refers
      have other : ".globl" ∉ addressing := by decide
      rw [if_neg other,if_pos rfl] at refers
      obtain ⟨symbol,among,rfl⟩ := refers
      cases declares
      simpa using among
    next => cases declares

/-- A line that is not broken is read whatever stands around it. -/
theorem mem_splitAt_lines {lines : List Line} {l : Line} (member : l ∈ lines)
    (whole : '\n' ∉ l.text.toList) : l.text.toList ∈ Text.splitAt '\n' (joined lines).toList := by
  rw [splitAt_lines (List.ne_nil_of_mem member)]
  refine List.mem_flatMap.mpr ⟨l,member,?_⟩
  rw [splitAt_free whole]
  exact List.mem_singleton_self _

theorem mem_definedIn {lines : List Line} {name : String} (plain : Plain name)
    (member : name ∈ labelsIn lines) : name ∈ definedIn (joined lines) := by
  obtain ⟨l,among,label⟩ := List.mem_filterMap.mp member
  cases l with
  | label =>
    cases label
    have legible : (Line.label name).Legible := plain
    obtain ⟨whole,read,-⟩ := legible.read
    exact List.mem_filterMap.mpr ⟨_,mem_splitAt_lines among whole,read⟩
  | _ => cases label

theorem mem_globalsIn {lines : List Line} {name : String} (plain : Plain name)
    (member : .directive ".globl" [name] ∈ lines) : name ∈ globalsIn (joined lines) := by
  have operands : ∀ o ∈ [name], '\n' ∉ o.toList ∧ '\t' ∉ o.toList :=
    List.forall_mem_singleton.mpr ⟨plain.newline,plain.tab⟩
  have other : ".globl" ∉ addressing := by decide
  have legible : (Line.directive ".globl" [name]).Legible :=
    ⟨by decide,operands,fun addressed => absurd addressed other⟩
  refine List.mem_filterMap.mpr ⟨_,mem_splitAt_lines member legible.read.1,?_⟩
  rw [Line.text,globalOf?_statement (by decide) fun o among => (operands o among).2]
  simp

end Assembly

open Assembly

/-- What the runtime system expects are fixed labels, truth values, and parts of the built-in
classes and of `Main`. -/
theorem globalSymbols_families : ∀ name ∈ globalSymbols, name = "Main.main" ∨
    name ∈ fixedLabels ∨ name ∈ Literal.bools.map Literal.label ∨
    ∃ c ∈ "Main" :: ClassTable.builtins.toList.map (·.name),
      name = c ++ "_protObj" ∨ name = c ++ "_init" := by decide

theorem Image.globals_declared (image : Image) :
    ∀ name ∈ globalSymbols, .directive ".globl" [name] ∈ image.lines := by
  simp [globalSymbols,lines,header,dataLines,textSection,globals]

/-- The class `Main` has a method `main` of its own. -/
def Program.StartsInMain (p : Program) : Prop :=
  ∃ c ∈ p.classes, c.name = "Main" ∧ ∃ m ∈ c.methods, m.name = "main"

instance (p : Program) : Decidable p.StartsInMain :=
  inferInstanceAs (Decidable (∃ c ∈ p.classes, c.name = "Main" ∧ ∃ m ∈ c.methods, m.name = "main"))

/-- A program that was checked has a class `Main`. -/
theorem Verify.Verified.main_declared {p : Program} (verified : Verify.Verified p) :
    ∃ c ∈ p.classes, c.name = "Main" := by
  have clean := verified.main
  rw [Verify.checkMain] at clean
  split at clean
  next => exact absurd (clean _ (List.mem_singleton_self _)) (by decide)
  next c found => exact ⟨c,List.mem_of_find?_eq_some found,by simpa using List.find?_some found⟩

/-- Labels with a dot are those of methods, if the names of classes have none. -/
theorem Assembled.method_of_dot {options : Options} {classes : ClassTable} {s t : Supply}
    {image : Image} (assembled : Assembled options classes s image t) (sound : t.literals.Sound)
    (dotless : ∀ c ∈ classes.toList, '.' ∉ c.name.toList) {label : String}
    (dot : labelKind label = ".") (member : label ∈ labelsIn image.lines) :
    label ∈ (classes.toList.flatMap (·.methodDecls)).map methodLabel := by
  rw [assembled.labels_perm.mem_iff,List.mem_append] at member
  rcases member with named | drawn
  · have others := kinds_flatten (List.forall₂_take 6 (families_kinds sound dotless)) label
    rw [dot] at others
    rw [← List.take_append_drop 6 (labelFamilies _ _),List.flatten_append,List.mem_append] at named
    rcases named with other | method
    · exact absurd (others other) (by decide)
    · simpa [labelFamilies] using method
  · obtain ⟨stem,known,k,-,-,rfl⟩ := assembled.drawn.of_mem drawn
    have kind : labelKind (stem ++ toString k) ∈ labelStems :=
      labelKind_drawn ((isDrawn_numbered known).mpr rfl)
    rw [dot] at kind
    exact absurd kind (by decide)

namespace Session

variable {p : Program} {options : Options} {text : String} {s : Session}
  (run : compile p { options } = .ok text s)

include run

theorem globals_of_compile : ∀ name ∈ globalSymbols, name ∈ globalsIn text := by
  obtain ⟨laid,image,-,-,rfl⟩ := compile_eq_ok run
  exact fun name among =>
    mem_globalsIn (plain_globalSymbols name among) (image.globals_declared name among)

/-- The text defines all that the runtime system expects, the first method apart. -/
theorem defined_of_compile (main : ∃ c ∈ p.classes, c.name = "Main") :
    ∀ name ∈ globalSymbols, name ≠ "Main.main" → name ∈ definedIn text := by
  obtain ⟨laid,image,layout,assembled,rfl⟩ := compile_eq_ok run
  obtain ⟨-,same⟩ := ready_of_layout layout
  have entries : ∀ name ∈ "Main" :: ClassTable.builtins.toList.map (·.name),
      name ∈ laid.classes.toList.map (·.name) := by
    refine List.forall_mem_cons.mpr ⟨?_,fun name known => ?_⟩
    · obtain ⟨d,declared,name⟩ := main
      obtain ⟨c,member,own⟩ := entry_of_decl same declared
      exact List.mem_map.mpr ⟨c,member,own.name.trans name⟩
    · exact List.mem_map.mpr (builtin_entry same known)
  intro name among other
  refine mem_definedIn (plain_globalSymbols name among) ?_
  rcases globalSymbols_families name among with first | fixed | bool | ⟨c,known,rfl | rfl⟩
  · exact absurd first other
  · exact assembled.mem_labels (by simp [labelFamilies]) fixed
  · exact assembled.mem_labels (by simp [labelFamilies]) bool
  · exact assembled.mem_labels (by simp [labelFamilies])
      (List.mem_map_of_mem (f := (· ++ "_protObj")) (entries c known))
  · exact assembled.mem_labels (by simp [labelFamilies])
      (List.mem_map_of_mem (f := (· ++ "_init")) (entries c known))

theorem start_defined (own : p.StartsInMain) : "Main.main" ∈ definedIn text := by
  obtain ⟨laid,image,layout,assembled,rfl⟩ := compile_eq_ok run
  obtain ⟨-,same⟩ := ready_of_layout layout
  obtain ⟨d,declared,className,m,method,methodName⟩ := own
  obtain ⟨c,member,own⟩ := entry_of_decl same declared
  have decls : (c,m) ∈ laid.classes.toList.flatMap (·.methodDecls) := by
    refine List.mem_flatMap.mpr ⟨c,member,?_⟩
    rw [own.methods]
    exact List.mem_map_of_mem method
  have label : methodLabel (c,m) = "Main.main" := by
    rw [methodLabel,own.name,className,methodName]
    rfl
  have family := List.mem_map_of_mem (f := methodLabel) decls
  rw [label] at family
  exact mem_definedIn (by decide) (assembled.mem_labels (by simp [labelFamilies]) family)

theorem start_of_defined (named : p.Named) (defined : "Main.main" ∈ definedIn text) :
    p.StartsInMain := by
  obtain ⟨laid,image,layout,assembled,labels,-⟩ := text_of_compile named run
  obtain ⟨-,same⟩ := ready_of_layout layout
  have sound := assembled.sound (sound_of_layout layout)
  have dotless : ∀ c ∈ laid.classes.toList, '.' ∉ c.name.toList := fun c member =>
    dotless_identifier (named.entries same c member).1
  rw [labels] at defined
  have method := assembled.method_of_dot sound dotless (labelKind_method "Main" "main") defined
  obtain ⟨pair,among,label⟩ := List.mem_map.mp method
  obtain ⟨c,member,decl⟩ := List.mem_flatMap.mp among
  obtain ⟨m,-,rfl⟩ := List.mem_map.mp decl
  have className : c.name = "Main" := className_of_label (dotless c member) (by decide) label
  have methodName : m.name = "main" := by
    rw [methodLabel,className] at label
    exact String.append_right_inj ("Main" ++ ".") |>.mp label
  rcases entry_origin same member with ⟨-,none⟩ | ⟨d,declared,own⟩
  · rw [none] at decl
    cases decl
  · rw [own.methods] at decl
    obtain ⟨m',own',same'⟩ := List.mem_map.mp decl
    cases same'
    exact ⟨d,declared,own.name.symm.trans className,m,own',methodName⟩

/-- The text declares nothing but what the runtime system expects. -/
theorem globals_expected (named : p.Named) : ∀ name ∈ globalsIn text, name ∈ globalSymbols := by
  obtain ⟨laid,image,-,-,rfl,legible,referring⟩ := lines_of_compile named run
  intro name member
  obtain ⟨line,among,declares⟩ := List.mem_filterMap.mp member
  rw [splitAt_legible image.lines_ne_nil legible] at among
  obtain ⟨l,here,rfl⟩ := List.mem_map.mp among
  exact (referring l here).global (legible l here) declares

end Session

/-- In the text of a program about which the verifier has at most warnings, all that the runtime
system expects is declared and defined, the first method apart if `Main` only inherits it. If all
names are identifiers, nothing else is declared, and so all that is declared is defined if and only
if `Main` has a method `main` of its own. -/
theorem globals_defined_iff_own_main {p : Program}
    (clean : ∀ d ∈ Verify.diagnose p, "warning:".toList <+: d.message.toList) {options : Options}
    {text : String} {s : Session} (run : Session.compile p { options } = .ok text s) :
    (∀ name ∈ globalSymbols, name ∈ globalsIn text ∧
      (name ∈ definedIn text ∨ name = "Main.main" ∧ ¬p.StartsInMain)) ∧
    (p.Named → (∀ name ∈ globalsIn text, name ∈ globalSymbols) ∧
      ((∀ name ∈ globalsIn text, name ∈ definedIn text) ↔ p.StartsInMain)) := by
  have verified := Verify.verified_of_clean fun d member =>
    Verify.isWarning_of_message member (clean d member)
  have declared := Session.globals_of_compile run
  have others := Session.defined_of_compile run verified.main_declared
  constructor
  · intro name among
    refine ⟨declared name among,?_⟩
    by_cases first : name = "Main.main"
    · by_cases own : p.StartsInMain
      · exact .inl (first ▸ Session.start_defined run own)
      · exact .inr ⟨first,own⟩
    · exact .inl (others name among first)
  · intro named
    have expected := Session.globals_expected run named
    refine ⟨expected,?_,?_⟩
    · intro defined
      exact Session.start_of_defined run named (defined _ (declared "Main.main" (by decide)))
    · intro own name member
      by_cases first : name = "Main.main"
      · exact first ▸ Session.start_defined run own
      · exact others name (expected name member) first

theorem ticking_linked : ∃ text s, Session.compile ticking {} = .ok text s ∧
    ∀ name ∈ globalsIn text, name ∈ definedIn text := by
  obtain ⟨text,s,run⟩ := ticking_compiles
  have silent : Verify.diagnose ticking = [] := by decide +kernel
  have linked := globals_defined_iff_own_main (by rw [silent]; exact List.forall_mem_nil _) run
  exact ⟨text,s,run,(linked.2 ⟨by decide,by decide⟩).2.mpr (by decide)⟩

/-- A class `Main` whose first method is that of its parent. -/
def inheriting : Program where
  classes :=
    [ { name := "Base"
        methods := [{
          name := "main"
          formals := []
          returnType := "Object"
          body := .constant {} (.int 1) }] },
      { name := "Main", parent := "Base" } ]

/-- A first method that is only inherited passes the checks, and is missing where the runtime system
looks for it. -/
theorem inheriting_unlinked : Verify.diagnose inheriting = [] ∧
    ∃ text s, Session.compile inheriting {} = .ok text s ∧
      "Main.main" ∈ globalsIn text ∧ "Main.main" ∉ definedIn text := by
  obtain ⟨text,s,run⟩ := exists_of_succeeded
    (by decide +kernel : succeeded (Session.compile inheriting {}))
  refine ⟨by decide +kernel,text,s,run,Session.globals_of_compile run _ (by decide),?_⟩
  intro defined
  have own := Session.start_of_defined run ⟨by decide,by decide⟩ defined
  revert own
  decide

end CoolBackend
