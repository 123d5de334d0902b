import CoolBackend.Proofs.ImageListing
import CoolBackend.Proofs.Lowerings
import CoolBackend.Proofs.Machines
import CoolBackend.Proofs.Tables

/-!
The caller pushes the arguments from the last to the first, and the callee puts three saved words
below them and its locals below those. What the caller pushed for a formal is what the callee finds
at the formal's location, no two words of a frame overlap, and the epilogue gives the caller its
stack and its registers back.
-/
namespace CoolBackend

open Assembly

def argumentPieces (args : List Code) : List Piece :=
  args.flatMap fun c => [.part c,.own (code Code.push)]

def fetchMethod (staticClass : Option String) (offset : Nat) : List Instruction :=
  (Code.callThrough staticClass offset 0).dropLast

def callPieces (args : List Code) (receiver : Code) (staticClass : Option String) (offset : Nat)
    (site : Site) : List Piece :=
  argumentPieces args ++
    [.part receiver,
      .own (Code.checkVoid site "_dispatch_abort" ++ code (fetchMethod staticClass offset))]

theorem lines_callPieces (args : List Code) (receiver : Code) (staticClass : Option String)
    (offset : Nat) (site : Site) : (Code.dispatch args receiver staticClass offset site).lines =
      (callPieces args receiver staticClass offset site).flatMap Piece.lines ++
        code [.jalr .t1 args.length] := by
  have pushes : (argumentPieces args).flatMap Piece.lines = Code.pushLines args := by
    induction args with
    | nil => rfl
    | cons c rest ih => simp_all [argumentPieces,Piece.lines,Code.pushLines]
  simp [Code.lines,callPieces,pushes,Piece.lines,Code.callThrough,fetchMethod]

theorem exec_push (symbols : String → Int) (m : Machine) : exec symbols (code Code.push) none m =
    some ((m.store (m.reg .sp) (m.reg .a0)).set .sp (m.reg .sp - 4)) := by
  simp [code,Code.push,exec,Instruction.exec,Int.sub_eq_add_neg]

/-- Values lie one below the other at the end of the stack, the first that was pushed on top. The
words above them, up to `base`, and the registers of the surroundings are as they were. -/
structure Pushed (base : Int) (values : List Int) (m m' : Machine) : Prop where
  sp : m'.reg .sp = m.reg .sp - 4 * values.length
  fp : m'.reg .fp = m.reg .fp
  s0 : m'.reg .s0 = m.reg .s0
  kept : ∀ a, m.reg .sp < a → a ≤ base → m'.word a = m.word a
  pushed : ∀ (j : Nat) (v : Int), values[j]? = some v → m'.word (m.reg .sp - 4 * j) = v

theorem argumentPieces_passes {symbols : String → Int} {base : Int} {args : List Code}
    {m m' : Machine} {values : List Int} (low : m.reg .sp ≤ base)
    (passes : Passes symbols base (argumentPieces args) m values m') :
    values.length = args.length ∧ Pushed base values m m' := by
  induction args generalizing m values with
  | nil =>
    cases passes
    exact ⟨rfl,by simp,rfl,rfl,fun _ _ _ => rfl,by simp⟩
  | cons c rest ih =>
    cases passes with
    | @part _ _ _ m₁ _ value values evaluated later =>
      cases later with
      | @own _ _ _ m₂ _ _ run later =>
        rw [exec_push] at run
        cases run
        have lower : m₁.reg .sp - 4 ≤ base := by
          rw [evaluated.sp]
          omega
        obtain ⟨count,others⟩ := ih (by simpa using lower) later
        have sp := others.sp
        have kept := others.kept
        have pushed := others.pushed
        simp only [Machine.set_reg,Machine.set_word,Machine.store_word,if_true,evaluated.sp]
          at sp kept pushed
        refine ⟨by simp [count],?_,?_,?_,?_,?_⟩
        · rw [sp,List.length_cons]
          omega
        · simpa [evaluated.fp] using others.fp
        · simpa [evaluated.s0] using others.s0
        · intro a above inside
          rw [kept a (by omega) inside,if_neg (by omega),evaluated.words a above inside]
        · intro j v given
          cases j with
          | zero =>
            have here := kept (m.reg .sp) (by omega) low
            rw [if_pos rfl,evaluated.value] at here
            simpa [here] using given
          | succ j =>
            have there := pushed j v (by simpa using given)
            rw [← there]
            congr 1
            omega

/-- Checking the receiver and finding the method leave the stack and the frame alone. -/
theorem exec_fetch {symbols : String → Int} {site : Site} {handler : String}
    {staticClass : Option String} {offset : Nat} {m m' : Machine}
    (run : exec symbols (Code.checkVoid site handler ++ code (fetchMethod staticClass offset))
      none m = some m') :
    m'.reg .sp = m.reg .sp ∧ m'.reg .fp = m.reg .fp ∧ m'.reg .s0 = m.reg .s0 ∧
      m'.word = m.word := by
  by_cases void : m.reg .a0 = 0
  · simp [Code.checkVoid,code,exec,Instruction.exec,void] at run
  · cases staticClass with
    | none =>
      simp [Code.checkVoid,code,exec,Instruction.exec,void,fetchMethod,Code.callThrough] at run
      subst run
      simp
    | some c =>
      simp [Code.checkVoid,code,exec,Instruction.exec,void,fetchMethod,Code.callThrough] at run
      subst run
      simp

/-- When control gets to the jump into the method, the arguments are on the stack. -/
theorem callPieces_passes {symbols : String → Int} {args : List Code} {receiver : Code}
    {staticClass : Option String} {offset : Nat} {site : Site} {m called : Machine}
    {values : List Int} (passes : Passes symbols (m.reg .sp)
      (callPieces args receiver staticClass offset site) m values called) :
    ∃ pushed object, values = pushed ++ [object] ∧ pushed.length = args.length ∧
      Pushed (m.reg .sp) pushed m called := by
  obtain ⟨pushed,others,m',rfl,first,second⟩ := passes.split
  obtain ⟨count,stack⟩ := argumentPieces_passes (Int.le_refl _) first
  cases second with
  | part evaluated later =>
    cases later with
    | own run later =>
      cases later
      obtain ⟨sp,fp,s0,words⟩ := exec_fetch run
      refine ⟨pushed,_,rfl,count,?_,?_,?_,fun a above inside => by omega,fun j v given => ?_⟩
      · rw [sp,evaluated.sp,stack.sp]
      · rw [fp,evaluated.fp,stack.fp]
      · rw [s0,evaluated.s0,stack.s0]
      · obtain ⟨inside,-⟩ := List.getElem?_eq_some_iff.mp given
        have sp := stack.sp
        rw [words,evaluated.words _ (by omega) (by omega),stack.pushed j v given]

/-- A call on an object that is not void gets to the jump into the method, whatever its arguments
evaluate to. -/
theorem exists_passes (symbols : String → Int) (base : Int) {args : List Code} (receiver : Code)
    (staticClass : Option String) (offset : Nat) (site : Site) (m : Machine) (values : List Int)
    (count : values.length = args.length) {object : Int} (present : object ≠ 0) :
    ∃ called, Passes symbols base (callPieces args receiver staticClass offset site) m
      (values ++ [object]) called := by
  have evaluated (m : Machine) (value : Int) : Evaluates base value m (m.set .a0 value) :=
    ⟨by simp,by simp,by simp,by simp,by simp⟩
  induction args generalizing m values with
  | nil =>
    have fetched : ∃ called, exec symbols (Code.checkVoid site "_dispatch_abort" ++
        code (fetchMethod staticClass offset)) none (m.set .a0 object) = some called := by
      cases staticClass <;>
        simp [Code.checkVoid,code,exec,Instruction.exec,present,fetchMethod,Code.callThrough]
    obtain ⟨called,run⟩ := fetched
    rw [List.length_eq_zero_iff.mp count]
    exact ⟨called,.part (evaluated m object) (.own run (.nil called))⟩
  | cons c rest ih =>
    obtain ⟨value,values,rfl⟩ := List.exists_cons_of_length_eq_add_one count
    obtain ⟨called,passes⟩ := ih _ values (by simpa using count)
    exact ⟨called,.part (evaluated m value) (.own (exec_push symbols _) passes)⟩

/-- The frame that a prologue makes. -/
structure Framed (words : Nat) (m entered : Machine) : Prop where
  sp : entered.reg .sp = m.reg .sp - 12 - 4 * words
  fp : entered.reg .fp = m.reg .sp - 8
  savedFp : entered.word (m.reg .sp) = m.reg .fp
  savedS0 : entered.word (m.reg .sp - 4) = m.reg .s0
  savedRa : entered.word (m.reg .sp - 8) = m.reg .ra
  kept : ∀ a, m.reg .sp < a → entered.word a = m.word a

theorem exec_prologue (symbols : String → Int) (words : Nat) (m : Machine) :
    ∃ entered, exec symbols (code (prologueCode words)) none m = some entered ∧
      Framed words m entered := by
  by_cases none : words = 0
  · refine ⟨_,by simp [prologueCode,none,code,exec,Instruction.exec]; rfl,?_⟩
    constructor <;> simp [none] <;> grind
  · refine ⟨_,by simp [prologueCode,none,code,exec,Instruction.exec]; rfl,?_⟩
    constructor <;> simp [wordSize] <;> grind

/-- An epilogue takes the registers from the words that the prologue saved them in, and gives the
frame and the arguments back. -/
theorem exec_epilogue (symbols : String → Int) (words formals : Nat) (m : Machine) :
    ∃ returned, exec symbols (code (epilogueCode words formals)) none m = some returned ∧
      returned.reg .sp = m.reg .sp + 4 * words + 12 + 4 * formals ∧
      returned.reg .fp = m.word (m.reg .sp + 4 * words + 12) ∧
      returned.reg .s0 = m.word (m.reg .sp + 4 * words + 8) ∧
      returned.reg .ra = m.word (m.reg .sp + 4 * words + 4) := by
  by_cases none : words = 0
  · refine ⟨_,by simp [epilogueCode,none,code,exec,Instruction.exec]; rfl,?_⟩
    simp [none,formalBase,wordSize,Int.add_assoc]
  · refine ⟨_,by simp [epilogueCode,none,code,exec,Instruction.exec]; rfl,?_⟩
    simp [formalBase,wordSize,Int.add_assoc,Int.mul_comm]

/-- The codes of arguments stand in the order in which they are pushed. -/
theorem lowerArgs_reverse {args : List Expr} {k : Nat} {ctx : Context} {s t : Supply}
    {codes : List Code} (run : lowerArgs args k ctx s = .ok codes t) :
    codes.length = args.length ∧ ∀ (i : Nat) (e : Expr), args[i]? = some e →
      ∃ u c w, e.lower (ctx.part (i + k)) u = .ok c w ∧ codes.reverse[i]? = some c := by
  induction args generalizing k t codes with
  | nil =>
    rw [lowerArgs] at run
    cases run
    exact ⟨rfl,by simp⟩
  | cons e rest ih =>
    obtain ⟨pushed,last,u,others,first,rfl⟩ := lowerArgs_cons run
    obtain ⟨count,each⟩ := ih others
    refine ⟨by simp [count],fun i e' given => ?_⟩
    cases i with
    | zero =>
      cases given
      rw [Nat.zero_add]
      exact ⟨u,last,t,first,by simp⟩
    | succ i =>
      rw [Nat.succ_add_eq_add_succ]
      simpa using each i e' (by simpa using given)

/-- A formal whose name is no other's is found at its own position. -/
theorem ofFormal_distinct {formals : List Binder} (distinct : (formals.map (·.name)).Nodup)
    {i : Nat} {b : Binder} (here : formals[i]? = some b) :
    Location.ofFormal formals b.name = .ok ⟨.frame,formalBase + wordSize * i⟩ := by
  have first : formals.findIdx? (·.name = b.name) = some i := by
    obtain ⟨inside,rfl⟩ := List.getElem?_eq_some_iff.mp here
    refine List.findIdx?_eq_some_iff_getElem.mpr ⟨inside,by simp,fun j before => ?_⟩
    have apart := List.pairwise_iff_getElem.mp distinct j i (by simp; omega)
      (by simpa using inside) before
    simpa using apart
  rw [Location.ofFormal,first]

/-- The offsets of the words of a frame from the frame pointer: arguments, saved registers and
locals. -/
def frameOffsets (formals : List Binder) (words : Nat) : List Int :=
  formals.filterMap (fun b => (Location.ofFormal formals b.name).toOption.map Location.offset) ++
    [0,4,8] ++ (List.range words).map fun d => (Location.ofDepth (d : Nat)).offset

def Apart (a b : Int) : Prop := a + 4 ≤ b ∨ b + 4 ≤ a

theorem frameOffsets_apart {formals : List Binder} (distinct : (formals.map (·.name)).Nodup)
    (words : Nat) : (frameOffsets formals words).Pairwise Apart := by
  have offset {i : Nat} {b : Binder} {a : Int} (here : formals[i]? = some b)
      (given : (Location.ofFormal formals b.name).toOption.map Location.offset = some a) :
      a = 12 + 4 * i := by
    rw [ofFormal_distinct distinct here] at given
    simpa [Except.toOption,formalBase,wordSize] using given.symm
  have arguments {a : Int} (member : a ∈ formals.filterMap fun b =>
      (Location.ofFormal formals b.name).toOption.map Location.offset) : 12 ≤ a := by
    obtain ⟨b,among,given⟩ := List.mem_filterMap.mp member
    obtain ⟨i,here⟩ := List.mem_iff_getElem?.mp among
    have place := offset here given
    omega
  have locals {a : Int} (member : a ∈ (List.range words).map fun d =>
      (Location.ofDepth (d : Nat)).offset) : a ≤ -4 := by
    obtain ⟨d,-,rfl⟩ := List.mem_map.mp member
    simp only [Location.ofDepth,wordSize]
    omega
  refine List.pairwise_append.mpr ⟨List.pairwise_append.mpr ⟨?_,?_,?_⟩,?_,?_⟩
  · refine List.pairwise_filterMap.mpr (List.pairwise_iff_getElem.mpr ?_)
    intro i j inside inside' before a given a' given'
    have first := offset (List.getElem?_eq_getElem inside) given
    have second := offset (List.getElem?_eq_getElem inside') given'
    exact .inl (by omega)
  · simp [Apart]
  · intro a member b saved
    have high := arguments member
    simp at saved
    right
    omega
  · refine List.pairwise_map.mpr (List.pairwise_lt_range.imp fun before => .inr ?_)
    simp only [Location.ofDepth,wordSize]
    omega
  · intro a member b inside
    have low := locals inside
    right
    rcases List.mem_append.mp member with argument | saved
    · have high := arguments argument
      omega
    · simp at saved
      omega

/-- What a method finds when its prologue is done: its arguments at the locations of its formals, no
two words of its frame overlapping, and its locals above the stack pointer. -/
structure FrameAgrees (formals : List Binder) (words : Nat) (values : List Int)
    (entered : Machine) : Prop where
  arguments : ∀ (i : Nat) (b : Binder), formals[i]? = some b →
    ∃ location value, Location.ofFormal formals b.name = .ok location ∧ location.base = .frame ∧
      values[i]? = some value ∧ entered.word (entered.reg .fp + location.offset) = value
  disjoint : (frameOffsets formals words).Pairwise Apart
  locals : ∀ d : Nat, d < words →
    entered.reg .sp < entered.reg .fp + (Location.ofDepth d).offset

theorem frame_agrees {formals : List Binder} (distinct : (formals.map (·.name)).Nodup)
    {words : Nat} {values : List Int} (arity : values.length = formals.length)
    {m called entered : Machine} {back : Int} (stack : Pushed (m.reg .sp) values.reverse m called)
    (frame : Framed words (called.set .ra back) entered) :
    FrameAgrees formals words values entered where
  arguments i b here := by
    obtain ⟨inside,-⟩ := List.getElem?_eq_some_iff.mp here
    refine ⟨_,values[i],ofFormal_distinct distinct here,rfl,List.getElem?_eq_getElem _,?_⟩
    have place : values.reverse[values.length - 1 - i]? = some values[i] := by
      rw [List.getElem?_reverse (by omega)]
      have same : values.length - 1 - (values.length - 1 - i) = i := by omega
      rw [same]
      exact List.getElem?_eq_getElem _
    have pushed := stack.pushed _ _ place
    have top := stack.sp
    have fp : entered.reg .fp = called.reg .sp - 8 := frame.fp
    rw [List.length_reverse] at top
    have address : entered.reg .fp + (formalBase + wordSize * i : Int) =
        m.reg .sp - 4 * (values.length - 1 - i : Nat) := by
      simp only [formalBase,wordSize]
      omega
    have above : called.reg .sp < m.reg .sp - 4 * (values.length - 1 - i : Nat) := by omega
    exact (congrArg entered.word address).trans ((frame.kept _ above).trans pushed)
  disjoint := frameOffsets_apart distinct words
  locals d inside := by
    have sp := frame.sp
    have fp := frame.fp
    simp only [Location.ofDepth,wordSize]
    omega

/-- The epilogue undoes the prologue and takes the arguments off the stack, whatever the body did in
between, as long as it left the stack pointer and the saved words alone. -/
theorem epilogue_returns (symbols : String → Int) {words : Nat} {values : List Int}
    {m called entered finished : Machine} {back : Int}
    (stack : Pushed (m.reg .sp) values.reverse m called)
    (frame : Framed words (called.set .ra back) entered)
    (restored : finished.reg .sp = entered.reg .sp)
    (saved : ∀ offset ∈ [0,4,8], finished.word (entered.reg .fp + offset) =
      entered.word (entered.reg .fp + offset)) :
    ∃ returned, exec symbols (code (epilogueCode words values.length)) none finished =
        some returned ∧
      returned.reg .sp = m.reg .sp ∧ returned.reg .fp = m.reg .fp ∧
      returned.reg .s0 = m.reg .s0 ∧ returned.reg .ra = back := by
  obtain ⟨returned,run,sp,fp,s0,ra⟩ := exec_epilogue symbols words values.length finished
  have top := stack.sp
  rw [List.length_reverse] at top
  have bottom : entered.reg .sp = called.reg .sp - 12 - 4 * words := frame.sp
  have pointer : entered.reg .fp = called.reg .sp - 8 := frame.fp
  have savedRa : entered.word (called.reg .sp - 8) = back := frame.savedRa
  have savedS0 : entered.word (called.reg .sp - 4) = called.reg .s0 := frame.savedS0
  have savedFp : entered.word (called.reg .sp) = called.reg .fp := frame.savedFp
  simp only [List.forall_mem_cons,pointer] at saved
  obtain ⟨keptRa,keptS0,keptFp,-⟩ := saved
  have atFp : finished.reg .sp + 4 * words + 12 = called.reg .sp - 8 + 8 := by omega
  have atS0 : finished.reg .sp + 4 * words + 8 = called.reg .sp - 8 + 4 := by omega
  have atRa : finished.reg .sp + 4 * words + 4 = called.reg .sp - 8 + 0 := by omega
  have middle : called.reg .sp - 8 + 4 = called.reg .sp - 4 := by omega
  refine ⟨returned,run,by omega,?_,?_,?_⟩
  · rw [fp,atFp,keptFp,Int.sub_add_cancel,savedFp,stack.fp]
  · rw [s0,atS0,keptS0,middle,savedS0,stack.s0]
  · rw [ra,atRa,keptRa,Int.add_zero,savedRa]

/-- Caller and callee agree on where arguments lie and on what a call leaves behind. A call is
pieces of code, which evaluate and push the arguments, and a jump into the method, which leaves the
address `back` in `$ra`. -/
theorem caller_and_callee_agree {info : Info} {receiver : Expr} {staticClass method : String}
    {args : List Expr} {ctx : Context} {s t : Supply} {call : Code}
    (lowered : (Expr.dispatch info receiver staticClass method args).lower ctx s = .ok call t)
    {options : Options} {classes : ClassTable} {c : ClassEntry} {decl : MethodDecl} {s' t' : Supply}
    {routine : MethodRoutine} (made : methodRoutine options classes c decl s' = .ok routine t')
    (arity : decl.formals.length = args.length)
    (distinct : (decl.formals.map (·.name)).Nodup) :
    ∃ argCodes pieces, argCodes.length = args.length ∧
      (∀ (i : Nat) (e : Expr), args[i]? = some e →
        ∃ u code v, e.lower (ctx.part (i + 1)) u = .ok code v ∧
          argCodes.reverse[i]? = some code) ∧
      (∃ receiverCode table offset site,
        call = .dispatch argCodes receiverCode table offset site ∧
        pieces = callPieces argCodes receiverCode table offset site) ∧
      call.toValue.render Spim.group =
        .ok (joined (pieces.flatMap Piece.lines ++ code [.jalr .t1 args.length])) ∧
      routine.toValue.render Spim.group =
        .ok (joined ([.label (c.name ++ "." ++ decl.name)] ++
          code (prologueCode (methodPlan decl).words) ++ block routine.body.lines ++
          code (epilogueCode (methodPlan decl).words args.length))) ∧
      ∀ symbols m called values object back,
        Passes symbols (m.reg .sp) pieces m (values.reverse ++ [object]) called →
        ∃ entered,
          exec symbols (code (prologueCode (methodPlan decl).words)) none (called.set .ra back) =
            some entered ∧
          FrameAgrees decl.formals (methodPlan decl).words values entered ∧
          ∀ finished, finished.reg .sp = entered.reg .sp →
            (∀ offset ∈ [0,4,8], finished.word (entered.reg .fp + offset) =
              entered.word (entered.reg .fp + offset)) →
            ∃ returned,
              exec symbols (code (epilogueCode (methodPlan decl).words args.length)) none finished =
                some returned ∧
              returned.reg .sp = m.reg .sp ∧ returned.reg .fp = m.reg .fp ∧
              returned.reg .s0 = m.reg .s0 ∧ returned.reg .ra = back := by
  obtain ⟨argCodes,receiverCode,target,slot,site,_,_,loweredArgs,-,-,-,-,rfl⟩ :=
    lower_dispatch lowered
  obtain ⟨count,each⟩ := lowerArgs_reverse loweredArgs
  obtain ⟨body,_,-,final⟩ := bind_eq_ok.mp made
  cases final
  refine ⟨argCodes,_,count,each,⟨_,_,_,_,rfl,rfl⟩,?_,?_,?_⟩
  · rw [Code.render_toValue,lines_callPieces,count]
  · rw [MethodRoutine.render_toValue,← arity]
    rfl
  · intro symbols m called values object back passes
    obtain ⟨pushed,_,same,number,stack⟩ := callPieces_passes passes
    obtain ⟨rfl,-⟩ := List.append_inj' same rfl
    rw [List.length_reverse,count] at number
    obtain ⟨entered,run,frame⟩ :=
      exec_prologue symbols (methodPlan decl).words (called.set .ra back)
    refine ⟨entered,run,frame_agrees distinct (number.trans arity.symm) stack frame,?_⟩
    intro finished restored saved
    rw [← number]
    exact epilogue_returns symbols stack frame restored saved

/-- A call with two arguments. -/
def joining : Expr := .dispatch {} .absent "" "join" [.constant {} (.int 1),.constant {} (.int 2)]

def joinMethod : MethodDecl where
  name := "join"
  formals := [{ name := "a", type := "Int" },{ name := "b", type := "Int" }]
  returnType := "Int"
  body := .letIn {} [({ name := "x", type := "Int" },.ident {} "a" .formal)]
    (.binary {} (.arith .add) (.ident {} "x" .localVar) (.ident {} "b" .formal))

def joiner : ClassEntry where
  name := "Joiner"
  tag := 0
  parentName := ""
  methods := ["join"]

def idle : Machine := ⟨fun _ => 1000,fun _ => 0⟩

theorem joining_agrees : ∃ call supply routine supply',
    joining.lower { classes := (.ofList [joiner]), current := joiner } {} = .ok call supply ∧
    methodRoutine {} (.ofList [joiner]) joiner joinMethod {} = .ok routine supply' ∧
    ∃ pieces called entered, Passes (fun _ => 0) 1000 pieces idle [22,11,5] called ∧
      exec (fun _ => 0) (code (prologueCode 1)) none (called.set .ra 400) = some entered ∧
      entered.word (entered.reg .fp + 12) = 11 ∧ entered.word (entered.reg .fp + 16) = 22 := by
  obtain ⟨call,supply,lowered⟩ := exists_of_succeeded (by decide +kernel : succeeded
    (joining.lower { classes := (.ofList [joiner]), current := joiner } {}))
  obtain ⟨routine,supply',made⟩ := exists_of_succeeded (by decide +kernel : succeeded
    (methodRoutine {} (.ofList [joiner]) joiner joinMethod {}))
  obtain ⟨argCodes,_,count,-,⟨receiver,table,offset,site,-,rfl⟩,-,-,agree⟩ :=
    caller_and_callee_agree lowered made rfl (by decide)
  obtain ⟨called,passes⟩ := exists_passes (fun _ => 0) 1000 receiver table offset site idle [22,11]
    count.symm (by decide : (5 : Int) ≠ 0)
  obtain ⟨entered,run,frame,-⟩ := agree (fun _ => 0) idle called [11,22] 5 400 passes
  refine ⟨call,supply,routine,supply',lowered,made,_,called,entered,passes,run,?_,?_⟩
  · obtain ⟨_,_,found,-,given,here⟩ := frame.arguments 0 _ rfl
    cases found
    cases given
    exact here
  · obtain ⟨_,_,found,-,given,here⟩ := frame.arguments 1 _ rfl
    cases found
    cases given
    exact here

end CoolBackend
