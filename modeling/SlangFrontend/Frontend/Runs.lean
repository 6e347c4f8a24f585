import SlangFrontend.Frontend.Lower

/-! # What every run of the lowering keeps

The lowering functions recurse on fuel, one unit per nested call. `BuildM.Keeps x` says that
every run of `x` that ends leaves a module grown from the one it started from (`Module.Grows`: no
fewer numbered wires, and the processes and connections there were still first among them). It
is closed under the monad's operations.

One lemma per function of the mutual recursion (`evaluateRhs_keeps`, `translateIndex_keeps`,
`evaluateFunction_keeps`, `etch_keeps`, `handleExpression_keeps`, `visitStmt_keeps`) says that the
function keeps the module growing one unit of fuel up when every function does one level down.
By induction on the fuel they give `keepsAll`: no run of the lowering, with any fuel, reuses a
wire number or drops a process or a connection.
-/

namespace SlangFrontend

open Rtlil Ast

/-! ## How a run grows a module -/

namespace Rtlil.Module

variable (mod : Module)

@[simp] theorem nextId_addWire (width : Nat) : (mod.addWire width).2.nextId = mod.nextId + 1 := by
  cases mod; rfl

@[simp] theorem nextId_addCell (cell : Cell) : (mod.addCell cell).nextId = mod.nextId := by
  cases mod; rfl

@[simp] theorem nextId_emit (type : CellType) (a b s : SigSpec) (aSigned bSigned : Bool)
    (yWidth : Nat) : (mod.emit type a b s aSigned bSigned yWidth).2.nextId = mod.nextId + 1 := by
  cases mod; rfl

@[simp] theorem nextId_addPrint (print : PrintCell) : (mod.addPrint print).nextId = mod.nextId := by
  cases mod; rfl

@[simp] theorem nextId_addProcess (process : Process) :
    (mod.addProcess process).nextId = mod.nextId := by
  cases mod; rfl


/-- What a run of the lowering does to a module besides adding cells: it numbers no fewer wires,
and it keeps the processes and connections there are, adding any new ones after them. -/
structure Grows (mod mod' : Module) : Prop where
  nextId_le : mod.nextId ≤ mod'.nextId
  processes : mod.processes <+: mod'.processes
  connections : mod.connections <+: mod'.connections

namespace Grows

variable {mod}

theorem refl : Grows mod mod := ⟨le_rfl, List.prefix_refl _, List.prefix_refl _⟩

theorem trans {mod1 mod2 : Module} (first : Grows mod mod1) (second : Grows mod1 mod2) :
    Grows mod mod2 :=
  ⟨first.nextId_le.trans second.nextId_le, first.processes.trans second.processes,
    first.connections.trans second.connections⟩

theorem addWire (width : Nat) : Grows mod (mod.addWire width).2 := by
  cases mod; exact ⟨Nat.le_succ _, List.prefix_refl _, List.prefix_refl _⟩

theorem emit (type : CellType) (a b s : SigSpec) (aSigned bSigned : Bool) (yWidth : Nat) :
    Grows mod (mod.emit type a b s aSigned bSigned yWidth).2 := by
  cases mod; exact ⟨Nat.le_succ _, List.prefix_refl _, List.prefix_refl _⟩

theorem addCell (cell : Cell) : Grows mod (mod.addCell cell) := by
  cases mod; exact ⟨le_rfl, List.prefix_refl _, List.prefix_refl _⟩

theorem addPrint (print : PrintCell) : Grows mod (mod.addPrint print) := by
  cases mod; exact ⟨le_rfl, List.prefix_refl _, List.prefix_refl _⟩

theorem addProcess (process : Process) : Grows mod (mod.addProcess process) := by
  cases mod; exact ⟨le_rfl, List.prefix_append _ _, List.prefix_refl _⟩

theorem connect (lhs rhs : SigSpec) : Grows mod (mod.connect lhs rhs) := by
  cases mod; exact ⟨le_rfl, List.prefix_refl _, List.prefix_append _ _⟩

theorem addInit (wire : WireId) (value : Const) : Grows mod (mod.addInit wire value) := by
  cases mod; exact ⟨le_rfl, List.prefix_refl _, List.prefix_refl _⟩

theorem addPort (wire : WireId) (input output : Bool) : Grows mod (mod.addPort wire input output) := by
  cases mod; exact ⟨le_rfl, List.prefix_refl _, List.prefix_refl _⟩

end Grows

end Rtlil.Module

/-! ## Runs that grow the module -/

namespace BuildM

/-- Every run of `x` that ends leaves a module grown from the one it started from. -/
structure Keeps {α : Type} (x : BuildM α) : Prop where
  grows : ∀ {mod a mod'}, x mod = .ok (a, mod') → Module.Grows mod mod'

variable {α β : Type}

namespace Keeps

protected theorem pure (a : α) : Keeps (pure a : BuildM α) :=
  ⟨fun ran => by cases ran; exact .refl⟩

protected theorem bind {x : BuildM α} {f : α → BuildM β} (first : Keeps x)
    (rest : ∀ a, Keeps (f a)) : Keeps (x >>= f) :=
  ⟨fun ran =>
    let ⟨a, _, ranX, ranF⟩ := ok_of_bind_ok ran
    (first.grows ranX).trans ((rest a).grows ranF)⟩

protected theorem throw {e : Failure} : Keeps (throw e : BuildM α) := ⟨fun ran => by cases ran⟩

protected theorem modifyGet {f : Module → α × Module}
    (grows : ∀ mod, Module.Grows mod (f mod).2) : Keeps (modifyGet f : BuildM α) where
  grows {mod _ _} ran := by
    rw [modifyGet_apply, Except.ok.injEq] at ran
    simpa [ran] using grows mod

protected theorem modify {f : Module → Module} (grows : ∀ mod, Module.Grows mod (f mod)) :
    Keeps (modify f : BuildM Unit) where
  grows {mod _ _} ran := by
    rw [modify_apply, Except.ok.injEq, Prod.mk.injEq] at ran
    exact ran.2 ▸ grows mod

protected theorem foldlM {f : β → α → BuildM β} {l : List α} (step : ∀ b a, Keeps (f b a))
    (init : β) : Keeps (l.foldlM f init) := by
  induction l generalizing init with
  | nil => exact .pure init
  | cons a l ih => exact (step init a).bind ih

protected theorem mapM {f : α → BuildM β} {l : List α} (step : ∀ a, Keeps (f a)) :
    Keeps (l.mapM f) := by
  induction l with
  | nil => exact .pure []
  | cons a l ih =>
    simp only [List.mapM_cons]
    exact (step a).bind fun _ => ih.bind fun _ => .pure _

theorem lift {x : Except Failure α} : Keeps (liftM x : BuildM α) :=
  ⟨fun ran => by cases x <;> cases ran; exact .refl⟩

theorem require (c : Bool) (s : String) : Keeps (require c s : BuildM Unit) := by
  unfold SlangFrontend.require
  split
  · exact .pure ()
  · exact .throw

theorem logAssert (c : Bool) (s : String) : Keeps (logAssert c s : BuildM Unit) := by
  unfold SlangFrontend.logAssert
  split
  · exact .pure ()
  · exact .throw

theorem unimplemented : Keeps (unimplemented : BuildM α) := .throw

theorem addWire (width : Nat) : Keeps (modifyGet (Module.addWire width)) :=
  .modifyGet fun _ => .addWire width

theorem emit {type : CellType} {a b s : SigSpec} {aSigned bSigned : Bool} {yWidth : Nat} :
    Keeps (modifyGet (Module.emit type a b s aSigned bSigned yWidth)) :=
  .modifyGet fun _ => .emit type a b s aSigned bSigned yWidth

theorem ite {c : Prop} [Decidable c] {x y : BuildM α} (first : Keeps x) (second : Keeps y) :
    Keeps (if c then x else y) := by
  split
  · exact first
  · exact second

end Keeps

end BuildM

namespace Frontend

open BuildM

/-- With `fuel`, every run of every function of the lowering grows the module. -/
structure KeepsAll (subroutines : Subroutines) (fuel : Nat) : Prop where
  rhs : ∀ e ctx, Keeps (evaluateRhs subroutines fuel e ctx)
  index : ∀ e range ctx, Keeps (translateIndex subroutines fuel e range ctx)
  function : ∀ subr arguments ctx, Keeps (evaluateFunction subroutines fuel subr arguments ctx)
  etch : ∀ e mask rvalue ctx, Keeps (etch subroutines fuel e mask rvalue ctx)
  expression : ∀ e v, Keeps (handleExpression subroutines fuel e v)
  stmt : ∀ s v, Keeps (visitStmt subroutines fuel s v)

section Steps

variable {subroutines : Subroutines} {fuel : Nat}

/-! The helpers of procedural lowering, which call nothing one level down. -/

theorem allocateChunks_keeps (bits : SigSpec) (d : Dict) : Keeps (allocateChunks bits d) :=
  Keeps.foldlM (fun _ _ => (Keeps.addWire _).bind fun _ => .pure _) d

theorem stagingSignal_keeps (lvalue : SigSpec) (v : Visitor) : Keeps (stagingSignal lvalue v) :=
  (Keeps.logAssert _ _).bind fun _ => (allocateChunks_keeps _ _).bind fun _ => .pure _

theorem maskRvalue_keeps (lvalue rawRvalue rawMask : SigSpec) (subs : Dict) :
    Keeps (maskRvalue lvalue rawRvalue rawMask subs) :=
  Keeps.ite (.pure _) .emit

theorem assign_keeps (blocking : Bool) (lvalue maskedRvalue : SigSpec) (v : Visitor) :
    Keeps (assign blocking lvalue maskedRvalue v) := by
  refine (Keeps.logAssert _ _).bind fun _ => Keeps.bind ?_ fun _ =>
    (stagingSignal_keeps _ _).bind fun _ => ?_
  · unfold recordAssignment
    split <;> exact (Keeps.logAssert _ _).bind fun _ => .pure _
  · split
    exact .pure _

theorem contextEnable_keeps (v : Visitor) : Keeps (contextEnable v) :=
  (Keeps.addWire 1).bind fun _ => .pure _

theorem cellTrigger_keeps (syncs : List SyncRule) : Keeps (cellTrigger syncs) := by
  refine (Keeps.foldlM (fun acc sync => ?_) _).bind fun _ =>
    (Keeps.logAssert _ _).bind fun _ => (Keeps.logAssert _ _).bind fun _ => .pure _
  obtain ⟨triggers, polarity, implicit⟩ := acc
  simp only []
  split
  all_goals first
    | exact (Keeps.logAssert _ _).bind fun _ => .pure _
    | exact .pure _
    | exact .throw

theorem etchCheck_keeps (lexpr : Expr) (mask rvalue : SigSpec) :
    Keeps (etchCheck lexpr mask rvalue) := by
  simp only [etchCheck]
  refine Keeps.ite ?_ ?_ <;> refine Keeps.bind ?_ fun _ =>
    (Keeps.logAssert _ _).bind fun _ => Keeps.logAssert _ _
  · exact Keeps.unimplemented
  · exact .pure _

theorem branch_keeps {b : SwitchBuilder} {compare : List SigSpec} {body : Visitor → LowerM Visitor}
    (lowered : ∀ v, Keeps (body v)) (v : Visitor) : Keeps (b.branch compare body v) :=
  (lowered _).bind fun _ => .pure _

theorem finish_keeps (b : SwitchBuilder) (v : Visitor) : Keeps (b.finish v) :=
  (Keeps.foldlM (fun _ _ => (Keeps.addWire _).bind fun _ => .pure _) _).bind fun _ => .pure _

/-! One lemma per function of the mutual recursion: it keeps the module growing one unit of fuel
up when every function does one level down. -/

variable (below : KeepsAll subroutines fuel)
include below

theorem evaluateRhs_keeps (e : Expr) (ctx : Option ProcedureContext) :
    Keeps (evaluateRhs subroutines (fuel + 1) e ctx) := by
  have checked {type : SvType} {x : BuildM SigSpec} (first : Keeps x) :
      Keeps (x >>= fun ret => liftM (checkWidth type ret)) :=
    first.bind fun _ => Keeps.lift
  simp only [evaluateRhs]
  cases e.constant with
  | some c => exact Keeps.lift.bind fun _ => Keeps.lift.bind fun _ => .pure _
  | none =>
    refine (Keeps.pure ()).bind fun _ => ?_
    cases e with
    | namedValue type _ symbol =>
      simp only []
      split
      all_goals
        (repeat' split) <;>
        first
          | exact (Keeps.require _ _).bind fun _ => Keeps.lift
          | exact Keeps.lift
    | unaryOp type _ op operand =>
      simp only []
      refine (below.rhs operand _).bind fun _ => ?_
      split
      · exact Keeps.emit.bind fun _ => Keeps.ite
          (Keeps.addWire 1 |>.bind fun _ => (Keeps.modify fun _ => .addCell _).bind fun _ => Keeps.lift)
          ((Keeps.pure ()).bind fun _ => Keeps.lift)
      · exact Keeps.unimplemented
    | binaryOp type _ op left right =>
      simp only []
      refine (below.rhs left _).bind fun _ => (below.rhs right _).bind fun _ => ?_
      split
      · exact checked .emit
      · exact Keeps.unimplemented
    | conversion type _ operand =>
      exact (Keeps.require _ _).bind fun _ => (Keeps.require _ _).bind fun _ =>
        (Keeps.require _ _).bind fun _ => (below.rhs operand _).bind fun _ => Keeps.lift
    | integerLiteral => exact Keeps.lift
    | rangeSelect type _ kind value left right =>
      exact (Keeps.require _ _).bind fun _ => Keeps.lift.bind fun _ =>
        (below.rhs value _).bind fun _ => checked Keeps.lift
    | elementSelect type _ value selector =>
      exact (Keeps.require _ _).bind fun _ => (below.rhs value _).bind fun _ =>
        (Keeps.logAssert _ _).bind fun _ => (below.index selector _ _).bind fun _ =>
          (Keeps.logAssert _ _).bind fun _ => Keeps.emit.bind fun _ => checked .emit
    | concatenation type _ operands =>
      exact checked (Keeps.foldlM (fun _ operand => (below.rhs operand _).bind fun _ => .pure _) _)
    | conditionalOp type _ conditions left right =>
      simp only []
      refine (Keeps.require _ _).bind fun _ => ?_
      split
      · exact (Keeps.require _ _).bind fun _ => (below.rhs right _).bind fun _ =>
          (below.rhs left _).bind fun _ => (below.rhs _ _).bind fun _ => Keeps.emit.bind fun _ =>
            checked .emit
      · exact Keeps.unimplemented
    | replication type _ count concat =>
      exact (Keeps.require _ _).bind fun _ => Keeps.lift.bind fun _ =>
        (below.rhs concat _).bind fun _ => Keeps.lift
    | memberAccess type _ value member =>
      exact (Keeps.require _ _).bind fun _ => (Keeps.require _ _).bind fun _ =>
        (below.rhs value _).bind fun _ => Keeps.lift
    | call type _ target arguments =>
      simp only []
      split
      · refine (Keeps.require _ _).bind fun _ => (Keeps.require _ _).bind fun _ => ?_
        split
        · exact checked (below.rhs _ _)
        · exact Keeps.unimplemented
      · split
        · exact (Keeps.require _ _).bind fun _ => below.function _ _ _
        · exact Keeps.throw
    | stringLiteral | assignment | emptyArgument | other => exact Keeps.unimplemented

theorem translateIndex_keeps (idxexpr : Expr) (range : ConstantRange) (ctx : Option ProcedureContext) :
    Keeps (translateIndex subroutines (fuel + 1) idxexpr range ctx) := by
  simp only [translateIndex]
  exact (below.rhs _ ctx).bind fun _ => Keeps.emit.bind fun _ => Keeps.emit.bind fun _ =>
    Keeps.emit.bind fun _ =>
      Keeps.ite (Keeps.emit.bind fun _ => .pure _) (Keeps.emit.bind fun _ => .pure _)

theorem evaluateFunction_keeps (subr : Subroutine) (arguments : List Expr)
    (ctx : Option ProcedureContext) :
    Keeps (evaluateFunction subroutines (fuel + 1) subr arguments ctx) := by
  simp only [evaluateFunction]
  exact (Keeps.logAssert _ _).bind fun _ => (Keeps.logAssert _ _).bind fun _ =>
    (Keeps.mapM fun _ => (below.rhs _ _).bind fun _ => .pure _).bind fun _ =>
      (below.stmt _ _).bind fun _ => (Keeps.modify fun _ => .addProcess _).bind fun _ => .pure _

theorem etch_keeps (e : Expr) (mask rvalue : SigSpec) (ctx : ProcedureContext) :
    Keeps (Frontend.etch subroutines (fuel + 1) e mask rvalue ctx) := by
  simp only [Frontend.etch]
  split
  · exact (Keeps.require _ _).bind fun _ => Keeps.lift.bind fun _ =>
      (etchCheck_keeps _ _ _).bind fun _ => below.etch _ _ _ _
  · exact (Keeps.require _ _).bind fun _ => (below.index _ _ _).bind fun _ => Keeps.emit.bind
      fun _ => (etchCheck_keeps _ _ _).bind fun _ => below.etch _ _ _ _
  · exact (Keeps.require _ _).bind fun _ => (Keeps.require _ _).bind fun _ =>
      (etchCheck_keeps _ _ _).bind fun _ => below.etch _ _ _ _
  · exact (etchCheck_keeps _ _ _).bind fun _ => .pure _

/-- An argument of `$display`, read in context `ctx`. -/
theorem printArg_keeps (ctx : Option ProcedureContext) (arg : Expr) :
    Keeps (match arg with
      | .stringLiteral _ _ text => pure (FmtArg.string text)
      | .call _ _ callee _ =>
        if callee.name == "$time" then pure (FmtArg.time false)
        else if callee.name == "$realtime" then pure (FmtArg.time true)
        else do pure (FmtArg.integer (← evaluateRhs subroutines fuel arg ctx) arg.type.isSigned)
      | _ => do pure (FmtArg.integer (← evaluateRhs subroutines fuel arg ctx) arg.type.isSigned) :
        LowerM FmtArg) := by
  have read : Keeps (do
      pure (FmtArg.integer (← evaluateRhs subroutines fuel arg ctx) arg.type.isSigned) : LowerM FmtArg) :=
    (below.rhs arg ctx).bind fun _ => .pure _
  split
  · exact .pure _
  · exact Keeps.ite (.pure _) (Keeps.ite (.pure _) read)
  · exact read

theorem handleExpression_keeps (e : Expr) (v : Visitor) :
    Keeps (handleExpression subroutines (fuel + 1) e v) := by
  simp only [handleExpression]
  split
  · split
    · exact .pure _
    · split
      · exact (cellTrigger_keeps _).bind fun _ => (contextEnable_keeps _).bind fun _ =>
          (Keeps.mapM (printArg_keeps below _)).bind fun _ =>
            (Keeps.modify fun _ => .addPrint _).bind fun _ => .pure _
      · exact Keeps.unimplemented
  · exact (below.rhs _ _).bind fun _ => (below.etch _ _ _ _).bind fun _ => Keeps.lift.bind
      fun _ => (maskRvalue_keeps _ _ _ _).bind fun _ => assign_keeps _ _ _ _
  · exact Keeps.unimplemented

theorem visitStmt_keeps (s : Stmt) (v : Visitor) : Keeps (visitStmt subroutines (fuel + 1) s v) := by
  simp only [visitStmt]
  cases s with
  | expression expr => exact below.expression expr v
  | block kind body => exact (Keeps.require _ _).bind fun _ => below.stmt body _
  | list stmts => exact Keeps.foldlM (fun v s' => below.stmt s' v) v
  | conditional conditions ifTrue ifFalse =>
    refine (Keeps.require _ _).bind fun _ => ?_
    split
    · refine (Keeps.require _ _).bind fun _ => (below.rhs _ _).bind fun _ => Keeps.emit.bind
        fun _ => (branch_keeps (below.stmt _) _).bind fun _ => ?_
      split
      · exact (branch_keeps (below.stmt _) _).bind fun _ => (finish_keeps _ _).bind fun _ => .pure _
      · exact (Keeps.pure _).bind fun _ => (finish_keeps _ _).bind fun _ => .pure _
    · exact Keeps.unimplemented
  | case condition check expr items defaultCase =>
    refine (Keeps.require _ _).bind fun _ => (below.rhs _ _).bind fun _ =>
      (Keeps.foldlM (fun _ item => ?_) _).bind fun _ => ?_
    · exact (Keeps.mapM fun e => (below.rhs e _).bind fun _ =>
        (Keeps.logAssert _ _).bind fun _ => .pure _).bind fun _ =>
          (Keeps.require _ _).bind fun _ => branch_keeps (below.stmt _) _
    · split
      · exact (branch_keeps (below.stmt _) _).bind fun _ => (finish_keeps _ _).bind fun _ => .pure _
      · exact (Keeps.pure _).bind fun _ => (finish_keeps _ _).bind fun _ => .pure _
  | empty | variableDecl => exact .pure v
  | invalid => exact .throw
  | other => exact Keeps.unimplemented

end Steps

/-! ## Every run grows the module -/

/-- No run of the lowering, with any fuel, lowers the counter of fresh wires or drops a process
or a connection. -/
theorem keepsAll (subroutines : Subroutines) : ∀ fuel, KeepsAll subroutines fuel
  | 0 => by constructor <;> intros <;> exact Keeps.throw
  | fuel + 1 =>
    have below := keepsAll subroutines fuel
    ⟨evaluateRhs_keeps below, translateIndex_keeps below, evaluateFunction_keeps below,
      etch_keeps below, handleExpression_keeps below, visitStmt_keeps below⟩

end Frontend

end SlangFrontend
