import CoolBackend.Proofs.Runs

/-!
From the success of lowering an expression to the success of lowering its parts: in which context,
drawing from which supply, and how the codes of the parts make up the code of the whole.
-/
namespace CoolBackend

section Lowering

-- The equations of lowering are needed by every lemma below, and are costly to derive.
attribute [local simp] Expr.lower lowerAll lowerArgs lowerBindings lowerBranches

variable {ctx : Context} {info : Info} {s t : Supply} {code : Code}

theorem Context.depthOf_eq_ok {i d : Nat} {b : Binder} :
    ctx.depthOf i b = .ok d ↔ ctx.planned ⟨[],i⟩ = some d := by
  rw [depthOf]
  cases ctx.planned ⟨[],i⟩ <;> simp

theorem newLabel_run (stem : String) (s : Supply) :
    LowerM.newLabel stem s = .ok (s.newLabel stem).1 (s.newLabel stem).2 := rfl

theorem lower_absent : Expr.absent.lower ctx s ≠ .ok code t := by
  simp

theorem lower_ident {name : String} {scope : Scope}
    (run : (Expr.ident info name scope).lower ctx s = .ok code t) :
    t = s ∧ (name = selfName ∧ code = .loadSelf ∨
      name ≠ selfName ∧
        ∃ source, ctx.resolve name scope = .ok source ∧ code = .loadVar source) := by
  rw [Expr.lower] at run
  split at run
  next same =>
    cases run
    exact ⟨rfl,.inl ⟨same,rfl⟩⟩
  next other =>
    obtain ⟨source,_,resolved,final⟩ := bind_eq_ok.mp run
    obtain ⟨found,rfl⟩ := ofExcept_eq_ok.mp resolved
    cases final
    exact ⟨rfl,.inr ⟨other,source,found,rfl⟩⟩

theorem lower_assign {name : String} {scope : Scope} {value : Expr}
    (run : (Expr.assign info name scope value).lower ctx s = .ok code t) :
    ∃ valueCode target, value.lower (ctx.part 0) s = .ok valueCode t ∧
      ctx.resolve name scope = .ok target ∧ code = ctx.store valueCode target := by
  rw [Expr.lower] at run
  obtain ⟨valueCode,_,lowered,run⟩ := bind_eq_ok.mp run
  obtain ⟨target,_,resolved,final⟩ := bind_eq_ok.mp run
  obtain ⟨found,rfl⟩ := ofExcept_eq_ok.mp resolved
  cases final
  exact ⟨valueCode,target,lowered,found,rfl⟩

theorem lower_unary {op : UnaryOp} {operand : Expr}
    (run : (Expr.unary info op operand).lower ctx s = .ok code t) :
    ∃ operandCode u, operand.lower (ctx.part 0) s = .ok operandCode u ∧ match op with
      | .negate => code = .negate operandCode ∧ t = u
      | .not => code = .predicate .not operandCode (u.newLabel "not").1 ∧ t = (u.newLabel "not").2
      | .isVoid => code = .predicate .isVoid operandCode (u.newLabel "isvoid").1 ∧
          t = (u.newLabel "isvoid").2 := by
  cases op with
  | negate =>
    rw [Expr.lower] at run
    obtain ⟨operandCode,u,lowered,run⟩ := bind_eq_ok.mp run
    cases run
    exact ⟨operandCode,_,lowered,rfl,rfl⟩
  | _ =>
    rw [Expr.lower] at run
    obtain ⟨operandCode,u,lowered,run⟩ := bind_eq_ok.mp run
    rw [bind_run,newLabel_run] at run
    cases run
    exact ⟨operandCode,u,lowered,rfl,rfl⟩

theorem lower_binary {op : BinaryOp} {left right : Expr}
    (run : (Expr.binary info op left right).lower ctx s = .ok code t) :
    ∃ leftCode rightCode u v, left.lower (ctx.part 0) s = .ok leftCode u ∧
      right.lower (ctx.part 1) u = .ok rightCode v ∧ match op with
      | .arith op => ∃ mnemonic, op.mnemonic = .ok mnemonic ∧
          code = .arithmetic mnemonic leftCode rightCode ∧ t = v
      | .compare op => code = .compare op.mnemonic leftCode rightCode (v.newLabel "compare").1 ∧
          t = (v.newLabel "compare").2
      | .equal => code = .equality leftCode rightCode (v.newLabel "eq").1 ∧
          t = (v.newLabel "eq").2 := by
  cases op with
  | arith op =>
    rw [Expr.lower] at run
    obtain ⟨mnemonic,_,known,run⟩ := bind_eq_ok.mp run
    obtain ⟨leftCode,u,lowered,run⟩ := bind_eq_ok.mp run
    obtain ⟨rightCode,v,lowered',final⟩ := bind_eq_ok.mp run
    obtain ⟨found,rfl⟩ := ofExcept_eq_ok.mp known
    cases final
    exact ⟨leftCode,rightCode,u,_,lowered,lowered',mnemonic,found,rfl,rfl⟩
  | _ =>
    rw [Expr.lower] at run
    obtain ⟨leftCode,u,lowered,run⟩ := bind_eq_ok.mp run
    obtain ⟨rightCode,v,lowered',run⟩ := bind_eq_ok.mp run
    rw [bind_run,newLabel_run] at run
    cases run
    exact ⟨leftCode,rightCode,u,v,lowered,lowered',rfl,rfl⟩

theorem lower_cond {test yes no : Expr}
    (run : (Expr.cond info test yes no).lower ctx s = .ok code t) :
    ∃ testCode yesCode noCode u v w, test.lower (ctx.part 0) s = .ok testCode u ∧
      yes.lower (ctx.part 1) u = .ok yesCode v ∧ no.lower (ctx.part 2) v = .ok noCode w ∧
      code = .cond testCode yesCode noCode (w.newLabel "else").1
        ((w.newLabel "else").2.newLabel "endif").1 ∧
      t = ((w.newLabel "else").2.newLabel "endif").2 := by
  rw [Expr.lower] at run
  obtain ⟨testCode,u,loweredTest,run⟩ := bind_eq_ok.mp run
  obtain ⟨yesCode,v,loweredYes,run⟩ := bind_eq_ok.mp run
  obtain ⟨noCode,w,loweredNo,run⟩ := bind_eq_ok.mp run
  rw [bind_run,newLabel_run] at run
  cases run
  exact ⟨testCode,yesCode,noCode,u,v,w,loweredTest,loweredYes,loweredNo,rfl,rfl⟩

theorem lower_loop {test body : Expr} (run : (Expr.loop info test body).lower ctx s = .ok code t) :
    ∃ testCode bodyCode u v, test.lower (ctx.part 0) s = .ok testCode u ∧
      body.lower (ctx.part 1) u = .ok bodyCode v ∧
      code = .loop testCode bodyCode (v.newLabel "while").1
        ((v.newLabel "while").2.newLabel "pool").1 ∧
      t = ((v.newLabel "while").2.newLabel "pool").2 := by
  rw [Expr.lower] at run
  obtain ⟨testCode,u,loweredTest,run⟩ := bind_eq_ok.mp run
  obtain ⟨bodyCode,v,loweredBody,run⟩ := bind_eq_ok.mp run
  rw [bind_run,newLabel_run] at run
  cases run
  exact ⟨testCode,bodyCode,u,v,loweredTest,loweredBody,rfl,rfl⟩

theorem lower_block {exprs : List Expr} (run : (Expr.block info exprs).lower ctx s = .ok code t) :
    ∃ codes, lowerAll exprs 0 ctx s = .ok codes t ∧ code = .sequence codes := by
  rw [Expr.lower] at run
  obtain ⟨codes,_,lowered,run⟩ := bind_eq_ok.mp run
  cases run
  exact ⟨codes,lowered,rfl⟩

theorem lower_let {bindings : List (Binder × Expr)} {body : Expr}
    (run : (Expr.letIn info bindings body).lower ctx s = .ok code t) :
    ∃ stores inner bodyCode u, lowerBindings bindings 0 ctx s = .ok (stores,inner) u ∧
      body.lower (inner.part bindings.length) u = .ok bodyCode t ∧
      code = .letIn stores bodyCode := by
  rw [Expr.lower] at run
  obtain ⟨⟨stores,inner⟩,u,bound,run⟩ := bind_eq_ok.mp run
  obtain ⟨bodyCode,_,lowered,run⟩ := bind_eq_ok.mp run
  cases run
  exact ⟨stores,inner,bodyCode,u,bound,lowered,rfl⟩

theorem lower_case {scrutinee : Expr} {branches : List (Binder × Expr)}
    (run : (Expr.caseOf info scrutinee branches).lower ctx s = .ok code t) :
    ∃ scrutineeCode site tests branchCodes u v,
      scrutinee.lower (ctx.part 0) s = .ok scrutineeCode u ∧
      ctx.site "case" info u = .ok site v ∧
      lowerBranches branches 0 ctx (v.newLabel "esac").2 = .ok (tests,branchCodes) t ∧
      code = .caseOf scrutineeCode site tests branchCodes (v.newLabel "esac").1 := by
  rw [Expr.lower] at run
  obtain ⟨scrutineeCode,u,lowered,run⟩ := bind_eq_ok.mp run
  obtain ⟨site,v,placed,run⟩ := bind_eq_ok.mp run
  rw [bind_run,newLabel_run] at run
  obtain ⟨⟨tests,branchCodes⟩,_,loweredBranches,run⟩ := bind_eq_ok.mp run
  cases run
  exact ⟨scrutineeCode,site,tests,branchCodes,u,v,lowered,placed,loweredBranches,rfl⟩

/-- The code of a call: its slot is that of the method in the target of the call. -/
theorem lower_dispatch {receiver : Expr} {staticClass method : String} {args : List Expr}
    (run : (Expr.dispatch info receiver staticClass method args).lower ctx s = .ok code t) :
    ∃ argCodes receiverCode target slot site u v, lowerArgs args 1 ctx s = .ok argCodes u ∧
      (if receiver.isAbsent then pure .loadSelf else receiver.lower (ctx.part 0) : LowerM Code) u =
        .ok receiverCode v ∧
      ctx.target receiver staticClass = .ok target ∧ ctx.slotOf target method = .ok slot ∧
      ctx.site "dispatch" info v = .ok site t ∧
      code = .dispatch argCodes receiverCode (if staticClass = "" then none else some target.name)
        (slot * wordSize) site := by
  rw [Expr.lower] at run
  obtain ⟨argCodes,u,loweredArgs,run⟩ := bind_eq_ok.mp run
  obtain ⟨receiverCode,v,loweredReceiver,run⟩ := bind_eq_ok.mp run
  obtain ⟨target,_,runTarget,run⟩ := bind_eq_ok.mp run
  obtain ⟨slot,_,runSlot,run⟩ := bind_eq_ok.mp run
  obtain ⟨site,_,placed,final⟩ := bind_eq_ok.mp run
  obtain ⟨targetOk,rfl⟩ := ofExcept_eq_ok.mp runTarget
  obtain ⟨slotOk,rfl⟩ := ofExcept_eq_ok.mp runSlot
  cases final
  exact ⟨argCodes,receiverCode,target,slot,site,u,_,loweredArgs,loweredReceiver,targetOk,slotOk,
    placed,rfl⟩

theorem lowerAll_cons {e : Expr} {rest : List Expr} {k : Nat} {codes : List Code}
    (run : lowerAll (e :: rest) k ctx s = .ok codes t) :
    ∃ first others u, e.lower (ctx.part k) s = .ok first u ∧
      lowerAll rest (k + 1) ctx u = .ok others t ∧ codes = first :: others := by
  rw [lowerAll] at run
  obtain ⟨first,u,lowered,run⟩ := bind_eq_ok.mp run
  obtain ⟨others,_,loweredRest,run⟩ := bind_eq_ok.mp run
  cases run
  exact ⟨first,others,u,lowered,loweredRest,rfl⟩

theorem lowerArgs_cons {e : Expr} {rest : List Expr} {k : Nat} {codes : List Code}
    (run : lowerArgs (e :: rest) k ctx s = .ok codes t) :
    ∃ pushed last u, lowerArgs rest (k + 1) ctx s = .ok pushed u ∧
      e.lower (ctx.part k) u = .ok last t ∧ codes = pushed ++ [last] := by
  rw [lowerArgs] at run
  obtain ⟨pushed,u,loweredRest,run⟩ := bind_eq_ok.mp run
  obtain ⟨last,_,lowered,run⟩ := bind_eq_ok.mp run
  cases run
  exact ⟨pushed,last,u,loweredRest,lowered,rfl⟩

theorem lowerBindings_cons {b : Binder} {init : Expr} {rest : List (Binder × Expr)} {i : Nat}
    {stores : List Code} {inner : Context}
    (run : lowerBindings ((b,init) :: rest) i ctx s = .ok (stores,inner) t) :
    ∃ value depth others u,
      (if init.isAbsent then defaultValue b.type else init.lower (ctx.part i) : LowerM Code) s =
        .ok value u ∧
      ctx.planned ⟨[],i⟩ = some depth ∧
      lowerBindings rest (i + 1) (ctx.bind b.name depth) u = .ok (others,inner) t ∧
      stores = ctx.store value (Location.ofDepth depth) :: others := by
  rw [lowerBindings] at run
  obtain ⟨value,u,lowered,run⟩ := bind_eq_ok.mp run
  obtain ⟨depth,_,planned,run⟩ := bind_eq_ok.mp run
  obtain ⟨⟨others,_⟩,_,loweredRest,final⟩ := bind_eq_ok.mp run
  obtain ⟨found,rfl⟩ := ofExcept_eq_ok.mp planned
  cases final
  exact ⟨value,depth,others,_,lowered,Context.depthOf_eq_ok.mp found,loweredRest,rfl⟩

theorem lowerBranches_cons {b : Binder} {body : Expr} {rest : List (Binder × Expr)} {i : Nat}
    {tests : List (Nat × String)} {branches : List (BranchHead × Code)}
    (run : lowerBranches ((b,body) :: rest) i ctx s = .ok (tests,branches) t) :
    ∃ c depth bodyCode otherTests others u, ctx.classes.require b.type = .ok c ∧
      ctx.planned ⟨[],i⟩ = some depth ∧
      body.lower ((ctx.bind b.name depth).part (i + 1)) (s.newLabel "branch").2 =
        .ok bodyCode u ∧
      lowerBranches rest (i + 1) ctx u = .ok (otherTests,others) t ∧
      tests = (ctx.classes.conformingTags c).map (·,(s.newLabel "branch").1) ++ otherTests ∧
      branches = ({ label := (s.newLabel "branch").1, slot := Location.ofDepth depth },
        bodyCode) :: others := by
  rw [lowerBranches,bind_run,newLabel_run] at run
  obtain ⟨c,_,required,run⟩ := bind_eq_ok.mp run
  obtain ⟨depth,_,planned,run⟩ := bind_eq_ok.mp run
  obtain ⟨bodyCode,u,lowered,run⟩ := bind_eq_ok.mp run
  obtain ⟨⟨otherTests,others⟩,_,loweredRest,final⟩ := bind_eq_ok.mp run
  obtain ⟨found,rfl⟩ := ofExcept_eq_ok.mp required
  obtain ⟨depthFound,rfl⟩ := ofExcept_eq_ok.mp planned
  cases final
  exact ⟨c,depth,bodyCode,otherTests,others,u,found,Context.depthOf_eq_ok.mp depthFound,lowered,
    loweredRest,rfl,rfl⟩

end Lowering

/-- An expression that can be lowered in a context. -/
def Expr.Lowers (e : Expr) (ctx : Context) : Prop := ∃ s code t, e.lower ctx s = .ok code t

end CoolBackend
