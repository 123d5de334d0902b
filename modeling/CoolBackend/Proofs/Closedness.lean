import CoolBackend.Proofs.Dispatching
import CoolBackend.Proofs.SymbolUse

/-!
Every symbol that the text of a program uses is defined in the same text or belongs to the runtime
system.
-/
namespace CoolBackend

open Assembly

namespace Image

def Knows (image : Image) (name : String) : Prop :=
  name ∈ labelsIn image.lines ∨ name ∈ runtimeSymbols

theorem knows_drawn {image : Image} {c : Code} (among : c ∈ image.codes) {name : String}
    (member : name ∈ labelsIn c.lines) : image.Knows name := by
  refine .inl (image.labelsIn_perm.mem_iff.mpr (List.mem_append_right _ ?_))
  rw [drawnLabels,labelsIn_linesOf]
  exact List.mem_flatMap.mpr ⟨c,among,member⟩

end Image

theorem LevelCode.chain {s t : Supply} {codes : List Code} (steps : Chain LevelCode s codes t) :
    ∀ c ∈ codes, Level c.lines := by
  induction steps with
  | nil => exact List.forall_mem_nil _
  | cons first _ ih => exact List.forall_mem_cons.mpr ⟨first,ih⟩

namespace Assembled

variable {options : Options} {classes : ClassTable} {s t : Supply} {image : Image}
  (assembled : Assembled options classes s image t)

include assembled

theorem mem_labels {family : List String} {name : String}
    (among : family ∈ labelFamilies classes t.literals) (member : name ∈ family) :
    name ∈ labelsIn image.lines :=
  assembled.labels_perm.mem_iff.mpr
    (List.mem_append_left _ (List.mem_flatten.mpr ⟨family,among,member⟩))

theorem knows_named {family : List String} {name : String}
    (among : family ∈ labelFamilies classes t.literals) (member : name ∈ family) :
    image.Knows name := .inl (assembled.mem_labels among member)

/-- What the code of a program may refer to is part of its image. -/
theorem knows {name : String} (known : Known classes t.literals name) : image.Knows name := by
  have part {c : ClassEntry} (suffix : String) (member : c ∈ classes.toList) :
      c.name ++ suffix ∈ (classes.toList.map (·.name)).map (· ++ suffix) :=
    List.mem_map_of_mem (List.mem_map_of_mem member)
  cases known with
  | constant member => exact assembled.knows_named (by simp [labelFamilies]) member
  | bool member => exact assembled.knows_named (by simp [labelFamilies]) member
  | prototype member =>
    exact assembled.knows_named (by simp [labelFamilies]) (part "_protObj" member)
  | init member => exact assembled.knows_named (by simp [labelFamilies]) (part "_init" member)
  | table member => exact assembled.knows_named (by simp [labelFamilies]) (part "_dispTab" member)
  | objects =>
    have here : "class_objTab" ∈ fixedLabels := by decide
    exact assembled.knows_named (by simp [labelFamilies]) here
  | runtime member => exact .inr member

theorem codes_referring : ∀ c ∈ image.codes, Referring image.Knows c.lines := by
  obtain ⟨u,-,chains⟩ := assembled.codes
  obtain ⟨-,fetching⟩ := Links.chain (chains _ (links classes))
  have level := LevelCode.chain (chains _ (levelCode classes))
  intro c member
  exact Code.referring ((fetching c member).later fun _ known => assembled.knows known)
    (level c member) fun name here => Image.knows_drawn member here

end Assembled

/-- A slot of a dispatch table leads to a method of one of the classes. -/
theorem entry_owner {table : ClassTable} (ready : table.Ready) {c : ClassEntry}
    (member : c ∈ table.toList) {e : DispatchEntry} (among : e ∈ table.entries c) :
    ∃ k ∈ table.toList, e.method ∈ k.methods ∧ e.label = k.name ++ "." ++ e.method := by
  rw [ready.entries_eq member] at among
  obtain ⟨i,at_i⟩ := List.mem_iff_getElem?.mp among
  obtain ⟨-,k,found,owner⟩ := LayoutKind.dispatch_entry at_i
  refine ⟨k,ready.mem_of_mem_chain member k (List.mem_of_find?_eq_some found),?_,?_⟩
  · simpa using List.find?_some found
  · rw [DispatchEntry.label,owner]

/-- A slot of a dispatch table leads to a routine of the runtime system or to a method of the
program. -/
theorem entry_label {p : Program} {table : ClassTable} (ready : table.Ready)
    (same : table.toList.map ClassEntry.bare = p.declared) {c : ClassEntry}
    (member : c ∈ table.toList) {e : DispatchEntry} (among : e ∈ table.entries c) :
    e.label ∈ runtimeSymbols ∨
      ∃ k m, (k,m) ∈ table.toList.flatMap (·.methodDecls) ∧ e.label = k.name ++ "." ++ m.name := by
  obtain ⟨k,inside,own,label⟩ := entry_owner ready member among
  rw [label]
  -- Methods of built-in classes have no code in the program.
  rcases entry_source same inside with ⟨b,known,tag,made⟩ | ⟨d,-,tag,made⟩
  · have name : k.name = b.name := congrArg (·.name) made
    have methods : k.methods = b.methods := congrArg (·.methods) made
    rw [methods] at own
    rw [name]
    refine .inl (List.mem_append_left _ (List.mem_append_left _ ?_))
    exact List.mem_flatMap.mpr ⟨b,known,List.mem_map.mpr ⟨e.method,own,rfl⟩⟩
  · have methods : k.methods = d.methods.map (·.name) := congrArg (·.methods) made
    rw [methods] at own
    obtain ⟨m,declared,method⟩ := List.mem_map.mp own
    have decls := (ClassEntry.declares_of_bare made).methods
    refine .inr ⟨k,m,List.mem_flatMap.mpr ⟨k,inside,?_⟩,by rw [method]⟩
    rw [decls]
    exact List.mem_map_of_mem declared

/-- The built-in classes are in every table. -/
theorem builtin_entry {p : Program} {table : ClassTable}
    (same : table.toList.map ClassEntry.bare = p.declared) {name : String}
    (builtin : name ∈ ClassTable.builtins.toList.map (·.name)) :
    ∃ c ∈ table.toList, c.name = name := by
  obtain ⟨b,among,rfl⟩ := List.mem_map.mp builtin
  have declared : b ∈ p.declared := List.mem_append_left _ among
  rw [← same] at declared
  obtain ⟨c,member,rfl⟩ := List.mem_map.mp declared
  exact ⟨c,member,rfl⟩

namespace Assembled

variable {p : Program} {options : Options} {classes : ClassTable} {s t : Supply} {image : Image}
  (assembled : Assembled options classes s image t)

include assembled

theorem referring_data (ready : classes.Ready)
    (same : classes.toList.map ClassEntry.bare = p.declared) (sound : t.literals.Sound) :
    Referring image.Knows image.dataLines := by
  have table (name : String) (builtin : name ∈ ClassTable.builtins.toList.map (·.name)) :
      image.Knows (name ++ "_dispTab") := by
    obtain ⟨c,member,rfl⟩ := builtin_entry same builtin
    exact assembled.knows (.table member)
  refine Image.referring_dataLines
    ⟨table "Int" (by decide),table "String" (by decide),table "Bool" (by decide)⟩ ?_
    (fun label member => assembled.knows (.constant (assembled.names label member))) ?_
    (fun p member slot inside => (assembled.slots p member slot inside).referring
      fun _ known => assembled.knows known) ?_
  · intro label value length member
    rw [assembled.literals] at member
    exact assembled.knows (.constant (sound.lengths label value length member))
  · intro p member
    have named : p.className ∈ image.prototypes.map (·.className) := List.mem_map_of_mem member
    rw [assembled.prototypes] at named
    obtain ⟨c,inside,owner⟩ := List.mem_map.mp named
    rw [← owner]
    exact ⟨assembled.knows (.prototype inside),assembled.knows (.init inside),
      assembled.knows (.table inside)⟩
  · intro table member
    rw [assembled.tables] at member
    obtain ⟨c,inside,rfl⟩ := List.mem_map.mp member
    refine List.forall_mem_map.mpr fun e among => ?_
    rcases entry_label ready same inside among with runtime | ⟨k,m,declared,label⟩
    · exact .inr runtime
    · have defined : k.name ++ "." ++ m.name ∈
          (classes.toList.flatMap (·.methodDecls)).map methodLabel :=
        List.mem_map.mpr ⟨(k,m),declared,rfl⟩
      rw [label]
      exact assembled.knows_named (by simp [labelFamilies]) defined

theorem referring_routines : Referring image.Knows image.textSection := by
  have assign : image.Knows "_GenGC_Assign" := .inr (by decide)
  have inits : Referring image.Knows (spaced (image.inits.map InitRoutine.lines)) := by
    refine referring_spaced (List.forall_mem_map.mpr fun r member => ?_)
    refine InitRoutine.referring (fun parent above => ?_) assign fun c among => ?_
    · obtain ⟨d,inside,rfl⟩ := assembled.parents r member parent above
      exact assembled.knows (.init inside)
    · exact assembled.codes_referring c
        (List.mem_append_left _ (List.mem_flatMap.mpr ⟨r,member,among⟩))
  have methods : Referring image.Knows (spaced (image.methods.map MethodRoutine.lines)) := by
    refine referring_spaced (List.forall_mem_map.mpr fun r member => MethodRoutine.referring ?_)
    exact assembled.codes_referring r.body (List.mem_append_right _ (List.mem_map_of_mem member))
  have start : (Line.directive ".text" []).Refers image.Knows :=
    refers_other (by decide) (by decide) (List.forall_mem_nil _)
  simp only [Image.textSection,referring_append,referring_block,referring_cons,referring_nil,
    inits,methods,start,and_true,true_and]
  exact ⟨referring_globals (by decide),trivial⟩

/-- All lines of an image refer to what the image or the runtime system defines. -/
theorem referring (ready : classes.Ready)
    (same : classes.toList.map ClassEntry.bare = p.declared) (sound : t.literals.Sound) :
    Referring image.Knows image.lines := by
  have header : Referring image.Knows (Image.header image.options) := by
    refine Image.referring_header (.inr ?_) (.inr ?_)
    · cases image.options.gc <;> simp only [GcMode.initializer] <;> decide
    · cases image.options.gc <;> simp only [GcMode.collector] <;> decide
  rw [Image.lines,referring_append,referring_append]
  exact ⟨⟨header,assembled.referring_data ready same sound⟩,assembled.referring_routines⟩

end Assembled

/-- A letter, and then letters, digits and underscores. -/
def isIdentifier (name : String) : Bool :=
  match name.toList with
  | [] => false
  | c :: rest => c.isAlpha && rest.all fun d => d.isAlphanum || d = '_'

/-- The names that get into the labels of a program are identifiers. Those of attributes do not. -/
structure Program.Named (p : Program) : Prop where
  classes : ∀ c ∈ p.classes, isIdentifier c.name
  methods : ∀ c ∈ p.classes, ∀ m ∈ c.methods, isIdentifier m.name

theorem mem_identifier {name : String} (identifier : isIdentifier name) {c : Char}
    (member : c ∈ name.toList) : c.isAlphanum ∨ c = '_' := by
  rw [isIdentifier] at identifier
  split at identifier
  next => cases identifier
  next first rest text =>
    rw [text] at member
    obtain ⟨letter,others⟩ := Bool.and_eq_true_iff.mp identifier
    rcases List.mem_cons.mp member with rfl | later
    · exact .inl (by simp [Char.isAlphanum,letter])
    · simpa using List.all_eq_true.mp others c later

theorem plain_identifier {name : String} (identifier : isIdentifier name) : Plain name := by
  intro c member
  rcases mem_identifier identifier member with word | rfl
  · refine ⟨?_,?_,?_⟩
    all_goals
      rintro rfl
      revert word
      decide
  · decide

/-- The symbols of programs start with letters, unlike those of collectors. -/
def startsWithLetter (name : String) : Bool := name.toList.head?.any (·.isAlpha)

theorem startsWithLetter_append {name : String} (letter : startsWithLetter name) (rest : String) :
    startsWithLetter (name ++ rest) := by
  rw [startsWithLetter,String.toList_append]
  rw [startsWithLetter] at letter
  cases chars : name.toList with
  | nil => simp [chars] at letter
  | cons c others => simpa [chars] using letter

theorem startsWithLetter_identifier {name : String} (identifier : isIdentifier name) :
    startsWithLetter name := by
  rw [isIdentifier] at identifier
  rw [startsWithLetter]
  cases chars : name.toList with
  | nil => simp [chars] at identifier
  | cons c others =>
    simp only [chars,Bool.and_eq_true] at identifier
    simpa using identifier.1

/-- The classes and methods of a laid out table are named by identifiers if those of the program
are. -/
theorem Program.Named.entries {p : Program} (named : p.Named) {table : ClassTable}
    (same : table.toList.map ClassEntry.bare = p.declared) :
    ∀ c ∈ table.toList, isIdentifier c.name ∧ ∀ m ∈ c.methodDecls, isIdentifier m.2.name := by
  intro c member
  rcases entry_source same member with ⟨b,among,tag,made⟩ | ⟨d,declared,tag,made⟩
  · have all : ∀ b ∈ Builtin.all, isIdentifier b.name := by decide
    have name : c.name = b.name := congrArg (·.name) made
    have decl : c.decl = none := congrArg (·.decl) made
    rw [name,ClassEntry.methodDecls,decl]
    exact ⟨all b among,List.forall_mem_nil _⟩
  · have own := ClassEntry.declares_of_bare made
    rw [own.name,own.methods]
    exact ⟨named.classes d declared,List.forall_mem_map.mpr (named.methods d declared)⟩

theorem startsWithLetter_constant {pool : LiteralPool} (sound : pool.Sound) {label : String}
    (member : label ∈ pool.labels) : startsWithLetter label := by
  obtain ⟨stem,among,k,rfl⟩ := sound.numbered member
  have stems : ∀ stem ∈ ["int_const","str_const"], startsWithLetter stem := by decide
  exact startsWithLetter_append (stems stem among) _

theorem startsWithLetter_entry {table : ClassTable} (ready : table.Ready)
    (names : ∀ c ∈ table.toList, startsWithLetter c.name) {c : ClassEntry}
    (member : c ∈ table.toList) {e : DispatchEntry} (among : e ∈ table.entries c) :
    startsWithLetter e.label := by
  obtain ⟨k,inside,-,label⟩ := entry_owner ready member among
  rw [label]
  exact startsWithLetter_append (startsWithLetter_append (names k inside) _) _

theorem plain_numbered {stem : String} (plain : Plain stem) (k : Nat) :
    Plain (stem ++ toString k) := plain.append (plain_number k)

namespace Assembled

variable {options : Options} {classes : ClassTable} {s t : Supply} {image : Image}
  (assembled : Assembled options classes s image t)

include assembled

/-- No label of an image has white space. -/
theorem plain_labels (sound : t.literals.Sound) (names : ∀ c ∈ classes.toList,
    isIdentifier c.name ∧ ∀ m ∈ c.methodDecls, isIdentifier m.2.name) :
    ∀ label ∈ labelsIn image.lines, Plain label := by
  have part (suffix : String) (plain : Plain suffix) :
      ∀ label ∈ (classes.toList.map (·.name)).map (· ++ suffix), Plain label := by
    rw [List.map_map]
    exact List.forall_mem_map.mpr fun c member =>
      (plain_identifier (names c member).1).append plain
  have constants : ∀ label ∈ t.literals.labels, Plain label := by
    intro label member
    obtain ⟨stem,among,k,rfl⟩ := sound.numbered member
    have stems : ∀ stem ∈ ["int_const","str_const"], Plain stem := by decide
    exact plain_numbered (stems stem among) k
  have methods : ∀ label ∈ (classes.toList.flatMap (·.methodDecls)).map methodLabel,
      Plain label := by
    refine List.forall_mem_map.mpr fun pair declared => ?_
    obtain ⟨c,member,own⟩ := List.mem_flatMap.mp declared
    obtain ⟨className,methodNames⟩ := names c member
    have method := plain_identifier (methodNames pair own)
    obtain ⟨m,-,rfl⟩ := List.mem_map.mp own
    exact ((plain_identifier className).append (by decide)).append method
  have families : ∀ family ∈ labelFamilies classes t.literals, ∀ label ∈ family, Plain label := by
    simp only [labelFamilies,List.forall_mem_cons]
    exact ⟨by decide,constants,by decide,part _ (by decide),part _ (by decide),part _ (by decide),
      methods,List.forall_mem_nil _⟩
  intro label member
  rcases List.mem_append.mp (assembled.labels_perm.mem_iff.mp member) with named | drawn
  · obtain ⟨family,among,here⟩ := List.mem_flatten.mp named
    exact families family among label here
  · obtain ⟨stem,among,k,-,-,rfl⟩ := assembled.drawn.of_mem drawn
    have stems : ∀ stem ∈ labelStems, Plain stem := by decide
    exact plain_numbered (stems stem among) k

/-- The lines of an image can be read back, and refer to what is known. -/
theorem legible {p : Program} (named : p.Named) (ready : classes.Ready)
    (same : classes.toList.map ClassEntry.bare = p.declared) (sound : t.literals.Sound) :
    (∀ l ∈ image.lines, l.Legible) ∧ Referring image.Knows image.lines := by
  have referring := assembled.referring ready same sound
  have labels := assembled.plain_labels sound (named.entries same)
  -- A line is only read back if no label in it is broken, so the names matter before the uses do.
  have plain (name : String) (known : image.Knows name) : Plain name := by
    rcases known with defined | runtime
    · exact labels name defined
    · have all : ∀ name ∈ runtimeSymbols, Plain name := by decide
      exact all name runtime
  exact ⟨fun l member => (referring l member).legible plain fun name defined =>
    labels name (List.mem_filterMap.mpr ⟨l,member,defined⟩),referring⟩

end Assembled

theorem Session.lines_of_compile {p : Program} (named : p.Named) {options : Options}
    {text : String} {s : Session} (run : Session.compile p { options } = .ok text s) :
    ∃ laid image, Session.layout p { options } = .ok () laid ∧
      Assembled options laid.classes laid.supply image s.supply ∧ text = joined image.lines ∧
      (∀ l ∈ image.lines, l.Legible) ∧ Referring image.Knows image.lines := by
  obtain ⟨laid,image,layout,assembled,rfl⟩ := compile_eq_ok run
  obtain ⟨ready,same⟩ := ready_of_layout layout
  exact ⟨laid,image,layout,assembled,rfl,
    assembled.legible named ready same (assembled.sound (sound_of_layout layout))⟩

/-- What the text of a compiled program defines are the labels of its image, and what it uses is
known. -/
theorem Session.text_of_compile {p : Program} (named : p.Named) {options : Options} {text : String}
    {s : Session} (run : Session.compile p { options } = .ok text s) :
    ∃ laid image, Session.layout p { options } = .ok () laid ∧
      Assembled options laid.classes laid.supply image s.supply ∧
      definedIn text = labelsIn image.lines ∧ ∀ name ∈ usedIn text, image.Knows name := by
  obtain ⟨laid,image,layout,assembled,rfl,legible,referring⟩ := lines_of_compile named run
  obtain ⟨defined,used⟩ := read_joined image.lines_ne_nil legible
  refine ⟨laid,image,layout,assembled,defined,fun name member => ?_⟩
  rw [used] at member
  obtain ⟨l,among,here⟩ := List.mem_flatMap.mp member
  exact (referring l among).uses here

/-- The text of a compiled program whose names are identifiers uses only symbols that it defines
itself, and routines of the runtime system. -/
theorem assembly_closed {p : Program} (named : p.Named) {options : Options} {text : String}
    {s : Session} (run : Session.compile p { options } = .ok text s) :
    ∀ name ∈ usedIn text, name ∈ definedIn text ∨ name ∈ runtimeSymbols := by
  obtain ⟨laid,image,-,-,defined,known⟩ := Session.text_of_compile named run
  rw [defined]
  exact known

/-- Counts down in a method that a second class calls:
`while 0 < left loop { out_string("tick"); left <- left - 1; } pool`. -/
def ticking : Program where
  classes :=
    [ { name := "Counter", parent := "IO"
        attributes := [({ name := "left", type := "Int" },.constant {} (.int 2))]
        methods := [{
          name := "down"
          formals := []
          returnType := "Object"
          body := .loop {}
            (.binary {} (.compare .less) (.constant {} (.int 0)) (.ident {} "left" .attr))
            (.block {} [
              .dispatch {} .absent "" "out_string" [.constant {} (.string (Bytes.ofText "tick"))],
              .assign {} "left" .attr (.binary {} (.arith .sub) (.ident {} "left" .attr)
                (.constant {} (.int 1)))]) }] },
      { name := "Main"
        methods := [{
          name := "main"
          formals := []
          returnType := "Object"
          body := .dispatch {} (.new { type := "Counter" } "Counter") "" "down" [] }] } ]

theorem ticking_compiles : ∃ text s, Session.compile ticking {} = .ok text s :=
  exists_of_succeeded (by decide +kernel)

theorem ticking_closed : ∃ text s, Session.compile ticking {} = .ok text s ∧
    ∀ name ∈ usedIn text, name ∈ definedIn text ∨ name ∈ runtimeSymbols := by
  obtain ⟨text,s,run⟩ := ticking_compiles
  exact ⟨text,s,run,assembly_closed ⟨by decide,by decide⟩ run⟩

end CoolBackend
