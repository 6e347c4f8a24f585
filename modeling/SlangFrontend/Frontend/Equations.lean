import SlangFrontend.Frontend.Populate

/-! # Equations of the lowering

One lemma per case of the lowering functions that a proof goes through: the case run on an
expression or statement with no folded constant, once its sub-computations have run. A proof
about the lowering cites these and never unfolds the mutual recursion itself.
-/

namespace SlangFrontend.Frontend

open Rtlil Ast

section Equations

variable {subroutines : Subroutines} {fuel : Nat} {ctx : Option ProcedureContext}
  {mod mod1 mod2 : Module}

/-- `handle(UnaryExpression)`: the cell of the operator on the lowered operand, and the
inverting cell when the operator asks for one. -/
theorem evaluateRhs_unaryOp {type : SvType} {op : UnaryOperator} {operand : Expr}
    {left : SigSpec} {cellType : CellType} {invert : Bool}
    (lowered : evaluateRhs subroutines fuel operand ctx mod = .ok (left, mod1))
    (cell : unaryCellType op = some (cellType, invert)) :
    evaluateRhs subroutines (fuel + 1) (.unaryOp type none op operand) ctx mod =
      (do
        let ret ← modifyGet (Module.emit cellType left [] [] operand.type.isSigned false
          type.bitstreamWidth)
        if invert then
          let newRet ← modifyGet (Module.addWire 1)
          modify (Module.addCell { type := .logicNot, a := ret, y := newRet })
        checkWidth type ret : LowerM SigSpec) mod1 := by
  simp only [evaluateRhs, Expr.constant]
  simp [bind, StateT.bind, lowered, Except.bind, cell, pure, StateT.pure, Except.pure]

/-- A binary operator: the cell of the operator on the two operands, lowered left first. -/
theorem evaluateRhs_binaryOp {type : SvType} {op : BinaryOperator} {leftExpr rightExpr : Expr}
    {left right y : SigSpec} {cellType : CellType} {aSigned bSigned : Bool} {mod3 : Module}
    (loweredL : evaluateRhs subroutines fuel leftExpr ctx mod = .ok (left, mod1))
    (loweredR : evaluateRhs subroutines fuel rightExpr ctx mod1 = .ok (right, mod2))
    (cell : binaryCellType op = some cellType)
    (signs : binarySignedness cellType leftExpr.type.isSigned rightExpr.type.isSigned =
      (aSigned, bSigned))
    (emitted : Module.emit cellType left right [] aSigned bSigned type.bitstreamWidth mod2 =
      (y, mod3))
    (checked : checkWidth type y = .ok y) :
    evaluateRhs subroutines (fuel + 1) (.binaryOp type none op leftExpr rightExpr) ctx mod =
      .ok (y, mod3) := by
  simp [evaluateRhs, Expr.constant, bind, StateT.bind, loweredL, loweredR, Except.bind, cell, signs,
    emitted, checked, pure, StateT.pure, Except.pure, liftM, monadLift, MonadLift.monadLift,
    StateT.lift]

/-- A conversion between integral types: the lowered operand, extended with the target's
signedness to the target's width. -/
theorem evaluateRhs_conversion {type : SvType} {operand : Expr} {ret r : SigSpec}
    (fromIntegral : operand.type.isIntegral = true) (toIntegral : type.isIntegral = true)
    (signs : (operand.type.isSigned == type.isSigned || decide (type.bitWidth ≤ operand.type.bitWidth)) =
      true)
    (lowered : evaluateRhs subroutines fuel operand ctx mod = .ok (ret, mod1))
    (checked : checkWidth type (ret.extendU0 type.bitWidth type.isSigned) = .ok r) :
    evaluateRhs subroutines (fuel + 1) (.conversion type none operand) ctx mod = .ok (r, mod1) := by
  simp only [evaluateRhs, Expr.constant, fromIntegral, toIntegral, signs, require_true]
  simp [bind, StateT.bind, lowered, Except.bind, checked, pure, StateT.pure, Except.pure, liftM,
    monadLift, MonadLift.monadLift, StateT.lift]

/-- `c ? a : b`: the false value, the true value and the condition are lowered in this order,
then a `$reduce_bool` of the condition selects between them in a `$mux`. -/
theorem evaluateRhs_conditionalOp {type : SvType} {condition left right : Expr}
    {falseValue trueValue c select y : SigSpec} {mod3 mod4 mod5 : Module}
    (loweredF : evaluateRhs subroutines fuel right ctx mod = .ok (falseValue, mod1))
    (loweredT : evaluateRhs subroutines fuel left ctx mod1 = .ok (trueValue, mod2))
    (loweredC : evaluateRhs subroutines fuel condition ctx mod2 = .ok (c, mod3))
    (selected : Module.reduceBool c mod3 = (select, mod4))
    (muxed : Module.mux falseValue trueValue select mod4 = (y, mod5))
    (checked : checkWidth type y = .ok y) :
    evaluateRhs subroutines (fuel + 1) (.conditionalOp type none [(condition, false)] left right) ctx
      mod = .ok (y, mod5) := by
  simp [evaluateRhs, Expr.constant, bind, StateT.bind, loweredF, loweredT, loweredC, Except.bind,
    selected, muxed, checked, pure, StateT.pure, Except.pure, liftM, monadLift, MonadLift.monadLift,
    StateT.lift]

/-- A replication: the lowered concatenation repeated as often as the folded count says. -/
theorem evaluateRhs_replication {type : SvType} {count concat : Expr} {reps : Int}
    {ret r : SigSpec} (counted : constantInt count.constant = .ok reps)
    (lowered : evaluateRhs subroutines fuel concat ctx mod = .ok (ret, mod1))
    (checked : checkWidth type (ret.repeat reps.toNat) = .ok r) :
    evaluateRhs subroutines (fuel + 1) (.replication type none count concat) ctx mod =
      .ok (r, mod1) := by
  simp only [evaluateRhs]
  generalize count.constant = constant at counted ⊢
  cases constant with
  | none => cases counted
  | some c =>
    simp [Expr.constant, bind, StateT.bind, counted, lowered, Except.bind, checked, pure, StateT.pure,
      Except.pure, liftM, monadLift, MonadLift.monadLift, StateT.lift]

/-- An element-select layer of an lvalue: the mask goes through a `$demux` cell whose select is
the translated index, and the rvalue is repeated once per element. The valid bit of the index
is not read. -/
theorem etch_elementSelect {type : SvType} {constant : Option ConstantValue}
    {value selector : Expr} {rawMask rawRvalue rawIdx : SigSpec} {valid : SigBit}
    {ctx : ProcedureContext}
    (arrayed : (value.type.isArray && value.type.hasFixedRange) = true)
    (translated : translateIndex subroutines fuel selector value.type.fixedRange (some ctx) mod =
      .ok ((rawIdx, valid), mod1)) :
    etch subroutines (fuel + 1) (.elementSelect type constant value selector) rawMask rawRvalue
        ctx mod =
      (do
        let mask ← modifyGet (Module.demux rawMask rawIdx)
        let mask := mask.extendU0 (type.bitstreamWidth * value.type.fixedRange.width)
        let rvalue := rawRvalue.repeat value.type.fixedRange.width
        etchCheck value mask rvalue
        etch subroutines fuel value mask rvalue ctx : LowerM _) mod1 := by
  simp only [etch]
  simp [bind, StateT.bind, Except.bind, arrayed, translated, pure, StateT.pure, Except.pure]

/-- An expression slang folded to an integer is its `svint_const`, and no cell is added. -/
theorem evaluateRhs_constant {expr : Expr} {v : SVInt} {ret : SigSpec}
    (folded : expr.constant = some (.integer v))
    (checked : checkWidth expr.type (svintConst v).toSig = .ok ret) :
    evaluateRhs subroutines (fuel + 1) expr ctx mod = .ok (ret, mod) := by
  simp only [evaluateRhs, folded, constantInteger]
  rw [show (pure v : Except Failure SVInt) = .ok v from rfl, BuildM.liftExcept_ok_bind, checked]
  rfl

/-- A net or variable of the instance body, read outside a procedure, is its wire. -/
theorem evaluateRhs_namedValue {type : SvType} {symbol : Symbol} {ret : SigSpec}
    (kind : symbol.kind = .net ∨ symbol.kind = .variable) (body : symbol.inInstanceBody = true)
    (checked : checkWidth type (Module.wire symbol.id symbol.type.bitstreamWidth) = .ok ret) :
    evaluateRhs subroutines (fuel + 1) (.namedValue type none symbol) none mod =
      .ok (ret, mod) := by
  rcases kind with kind | kind <;>
  simp [evaluateRhs, Expr.constant, kind, body, checked, bind,
    StateT.bind, Except.bind, pure, StateT.pure, Except.pure, liftM, monadLift, MonadLift.monadLift,
    StateT.lift]

/-- A formal argument, read inside a function, is the signal the call bound it to. -/
theorem evaluateRhs_formalArgument {type : SvType} {symbol : Symbol} {ctx : ProcedureContext}
    {ret : SigSpec} (kind : symbol.kind = .formalArgument) (bound : ctx.arg? symbol = some ret)
    (checked : checkWidth type ret = .ok ret) :
    evaluateRhs subroutines (fuel + 1) (.namedValue type none symbol) (some ctx) mod =
      .ok (ret, mod) := by
  simp [evaluateRhs, Expr.constant, kind, bound, checked, bind, StateT.bind, Except.bind, pure,
    StateT.pure, Except.pure, liftM, monadLift, MonadLift.monadLift, StateT.lift]

/-- A call of a function of the design: the function inlined by `evaluate_function`. -/
theorem evaluateRhs_call {type : SvType} {name : String} {index : Nat} {arguments : List Expr}
    {subr : Subroutine} (found : subroutines index = some subr) (function : subr.kind = .function) :
    evaluateRhs subroutines (fuel + 1) (.call type none (.subroutine name index) arguments) ctx =
      evaluateFunction subroutines fuel subr arguments ctx := by
  simp [evaluateRhs, Expr.constant, found, function]

/-- `evaluate_function`: the arguments lowered in the caller's context, the body visited by a
function-mode visitor that binds the formal arguments to them, and its process added. -/
theorem evaluateFunction_succ {subr : Subroutine} {arguments : List Expr}
    (function : subr.kind = .function) (arity : arguments.length = subr.arguments.length) :
    evaluateFunction subroutines (fuel + 1) subr arguments ctx = (do
      let args ← (subr.arguments.zip arguments).mapM fun (formal, actual) => do
        pure (formal.id, ← evaluateRhs subroutines fuel actual ctx)
      let visitor ← visitStmt subroutines fuel subr.body
        { mode := .function, ctx := { rvalueSubs := .empty, args } }
      modify (Module.addProcess visitor.process)
      pure ((Module.wire subr.returnValVar.id subr.returnValVar.type.bitstreamWidth).replace
        visitor.staging) : LowerM SigSpec) := by
  simp [evaluateFunction, function, arity]

/-- A call of a function of one argument fails when lowering the argument fails. -/
theorem evaluateFunction_argument_error {subr : Subroutine} {formal : Symbol} {argument : Expr}
    {e : Failure} (function : subr.kind = .function) (unary : subr.arguments = [formal])
    (failed : evaluateRhs subroutines fuel argument ctx mod = .error e) :
    evaluateFunction subroutines (fuel + 1) subr [argument] ctx mod = .error e := by
  rw [evaluateFunction_succ function (by simp [unary]), unary]
  simp only [List.zip_cons_cons, List.zip_nil_right, List.mapM_cons, List.mapM_nil, bind_assoc]
  rw [BuildM.bind_of_error failed]

/-- A call of a function of one argument fails when visiting its body, with the formal argument
bound to the lowered argument, fails. -/
theorem evaluateFunction_body_error {subr : Subroutine} {formal : Symbol} {argument : Expr}
    {sig : SigSpec} {e : Failure} (function : subr.kind = .function) (unary : subr.arguments = [formal])
    (lowered : evaluateRhs subroutines fuel argument ctx mod = .ok (sig, mod1))
    (failed : visitStmt subroutines fuel subr.body
      { mode := .function, ctx := { rvalueSubs := .empty, args := [(formal.id, sig)] } } mod1 =
        .error e) :
    evaluateFunction subroutines (fuel + 1) subr [argument] ctx mod = .error e := by
  rw [evaluateFunction_succ function (by simp [unary]), unary]
  simp only [List.zip_cons_cons, List.zip_nil_right, List.mapM_cons, List.mapM_nil, bind_assoc]
  rw [BuildM.bind_of_ok lowered]
  simp only [BuildM.pure_bind_apply]
  rw [BuildM.bind_of_error failed]

/-- `c ? a : b` fails as soon as its false value, which it lowers first, fails. -/
theorem evaluateRhs_conditionalOp_error {type : SvType} {condition left right : Expr} {e : Failure}
    (failed : evaluateRhs subroutines fuel right ctx mod = .error e) :
    evaluateRhs subroutines (fuel + 1) (.conditionalOp type none [(condition, false)] left right) ctx
      mod = .error e := by
  simp [evaluateRhs, Expr.constant, bind, StateT.bind, failed, Except.bind, pure, StateT.pure,
    Except.pure]

/-- A net or variable of the instance body is its wire, read inside a procedure through the
blocking substitutions. -/
theorem evaluateRhs_namedValue_ctx {type : SvType} {symbol : Symbol} {ret : SigSpec}
    (kind : symbol.kind = .net ∨ symbol.kind = .variable) (body : symbol.inInstanceBody = true)
    (checked : checkWidth type ((ctx.elim (Module.wire symbol.id symbol.type.bitstreamWidth)
      fun ctx => (Module.wire symbol.id symbol.type.bitstreamWidth).replace ctx.rvalueSubs)) =
        .ok ret) :
    evaluateRhs subroutines (fuel + 1) (.namedValue type none symbol) ctx mod =
      .ok (ret, mod) := by
  cases ctx <;> simp only [Option.elim] at checked <;> rcases kind with kind | kind <;>
  simp [evaluateRhs, Expr.constant, kind, body, checked, bind,
    StateT.bind, Except.bind, pure, StateT.pure, Except.pure, liftM, monadLift, MonadLift.monadLift,
    StateT.lift]

/-- A simple range select is the slice of the lowered value at the right bound's offset. -/
theorem evaluateRhs_rangeSelect {type : SvType} {value left right : Expr} {rawLeft rawRight : Int}
    {stride : Nat} {base ret : SigSpec}
    (bounds : rangeSelectBounds value left right = .ok (rawLeft, rawRight, stride))
    (lowered : evaluateRhs subroutines fuel value ctx mod = .ok (base, mod1))
    (extracted :
      extractChecked base (rawRight * stride) (stride * (rawLeft - rawRight + 1)) = .ok ret)
    (checked : checkWidth type ret = .ok ret) :
    evaluateRhs subroutines (fuel + 1) (.rangeSelect type none .simple value left right) ctx mod =
      .ok (ret, mod1) := by
  simp [evaluateRhs, Expr.constant, bounds, lowered, extracted, checked, bind,
    StateT.bind, Except.bind, pure, StateT.pure, Except.pure, liftM, monadLift, MonadLift.monadLift,
    StateT.lift]

/-- A member access is the slice of the lowered value at the field's offset. -/
theorem evaluateRhs_memberAccess {type : SvType} {value : Expr} {member : Member}
    {base ret : SigSpec}
    (field : member.isField = true) (randMode : member.randModeNone = true)
    (lowered : evaluateRhs subroutines fuel value ctx mod = .ok (base, mod1))
    (extracted : extractChecked base member.bitOffset type.bitstreamWidth = .ok ret) :
    evaluateRhs subroutines (fuel + 1) (.memberAccess type none value member) ctx mod =
      .ok (ret, mod1) := by
  simp [evaluateRhs, Expr.constant, field, randMode, lowered, extracted, bind,
    StateT.bind, Except.bind, pure, StateT.pure, Except.pure, liftM, monadLift, MonadLift.monadLift,
    StateT.lift]

/-- An element select: the lowered value padded with `x` to a power of two elements, an `$bmux`
on the translated index, and a `$mux` that gives `x` unless the valid bit is set. -/
theorem evaluateRhs_elementSelect {type : SvType} {value selector : Expr}
    {base rawIdx : SigSpec} {valid : SigBit}
    (arrayed : (value.type.isArray && value.type.hasFixedRange) = true)
    (lowered : evaluateRhs subroutines fuel value ctx mod = .ok (base, mod1))
    (divides : base.length % type.bitstreamWidth = 0)
    (translated : translateIndex subroutines fuel selector value.type.fixedRange ctx mod1 =
      .ok ((rawIdx, valid), mod2))
    (fits : base.length ≤ type.bitstreamWidth * 2 ^ rawIdx.length) :
    evaluateRhs subroutines (fuel + 1) (.elementSelect type none value selector) ctx mod =
      (do
        let selected ← modifyGet (Module.bmux (base ++ SigSpec.ofState .Sx
          (type.bitstreamWidth * 2 ^ rawIdx.length - base.length)) rawIdx)
        checkWidth type (← modifyGet
          (Module.mux (SigSpec.ofState .Sx type.bitstreamWidth) selected [valid])) : LowerM SigSpec)
        mod2 := by
  simp [evaluateRhs, Expr.constant, arrayed, lowered, divides, translated, fits, bind, StateT.bind,
    Except.bind, pure, StateT.pure, Except.pure]

/-- A concatenation lowers its operands from the first, each in front of the ones before it. -/
theorem evaluateRhs_concatenation {type : SvType} {operands : List Expr} :
    evaluateRhs subroutines (fuel + 1) (.concatenation type none operands) ctx mod =
      (do
        let ret ← operands.foldlM (fun ret operand => do
          pure ((← evaluateRhs subroutines fuel operand ctx) ++ ret)) []
        checkWidth type ret : LowerM SigSpec) mod := by
  simp [evaluateRhs, Expr.constant]

/-- `translate_index` once the index is lowered: the bound comparisons, their `$logic_and` and
the `$sub` from the right bound, on the index with a zero on top when it is unsigned. -/
theorem translateIndex_succ {idxexpr : Expr} {range : ConstantRange} {idx : SigSpec}
    (lowered : evaluateRhs subroutines fuel idxexpr ctx mod = .ok (idx, mod1)) :
    translateIndex subroutines (fuel + 1) idxexpr range ctx mod =
      (do
        let idx := if idxexpr.type.isSigned then idx else idx ++ [.const .S0]
        let le ← modifyGet (Module.le idx (constInt32 range.upper) true)
        let ge ← modifyGet (Module.ge idx (constInt32 range.lower) true)
        let valid ← modifyGet (Module.logicAnd le ge)
        let rawIdx ← if range.right < range.left then
            modifyGet (Module.sub idx (constInt32 range.right) true)
          else modifyGet (Module.sub (constInt32 range.right) idx true)
        pure (rawIdx.extendU0 (ceilLog2 range.width), valid.headD (.const .Sx)) : LowerM _) mod1 := by
  simp [translateIndex, lowered, bind, StateT.bind, Except.bind]

/-- `assign left = right;` fails when lowering `right` fails. -/
theorem populateMember_continuousAssign_error {type : SvType} {constant : Option ConstantValue}
    {nonBlocking : Bool} {left right : Expr} {lhs : SigSpec} {e : Failure}
    (accepted : evaluateLhs left = .ok lhs)
    (failed : evaluateRhs subroutines fuel right none mod = .error e) :
    populateMember subroutines fuel
        (.continuousAssign (.assignment type constant nonBlocking left right)) mod = .error e := by
  simp [populateMember, bind, StateT.bind, accepted, failed, Except.bind, liftM, monadLift,
    MonadLift.monadLift, StateT.lift, pure, Except.pure]

/-- An assignment statement: the rvalue lowered in the procedure's context, the target etched down
to the part that `evaluate_lhs` reads, and the masked rvalue assigned. -/
theorem handleExpression_assignment {type : SvType} {constant : Option ConstantValue}
    {nonBlocking : Bool} {left right : Expr} {v : Visitor} :
    handleExpression subroutines (fuel + 1) (.assignment type constant nonBlocking left right) v =
      (do
        let rvalue ← evaluateRhs subroutines fuel right (some v.ctx)
        let (rawLexpr, rawMask, rawRvalue) ←
          etch subroutines fuel left (SigSpec.ofState .S1 rvalue.length) rvalue v.ctx
        let lvalue := cropZeroMask rawMask (← evaluateLhs rawLexpr)
        let maskedRvalue ← maskRvalue lvalue (cropZeroMask rawMask rawRvalue)
          (cropZeroMask rawMask rawMask) v.ctx.rvalueSubs
        assign (!nonBlocking) lvalue maskedRvalue v : LowerM Visitor) := rfl

theorem visitStmt_expression {expr : Expr} {v : Visitor} :
    visitStmt subroutines (fuel + 1) (.expression expr) v = handleExpression subroutines fuel expr v :=
  rfl

theorem visitStmt_list {stmts : List Stmt} {v : Visitor} :
    visitStmt subroutines (fuel + 1) (.list stmts) v =
      stmts.foldlM (fun v stmt => visitStmt subroutines fuel stmt v) v := rfl

theorem visitStmt_empty {v : Visitor} : visitStmt subroutines (fuel + 1) .empty v = pure v := rfl

end Equations

end SlangFrontend.Frontend
