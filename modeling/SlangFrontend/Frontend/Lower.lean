import SlangFrontend.Frontend.Procedure

/-! # Expression and procedural lowering

The mutual recursion at the heart of the frontend: `evaluate_rhs`, `translate_index`,
`evaluate_function` and the handlers of `ProceduralVisitor`. A call of a function is lowered by
lowering the function's body in a new process, and the body may call again, so nothing bounds
the depth of this recursion; the model gives every function a `fuel` argument, one unit per
nested call, and fails with `Failure.outOfFuel` when it runs out.

Where the C++ code passes the results of two cell constructors as arguments of a third, whose
evaluation order is unspecified, the model creates them from left to right; that order only
decides the numbering of fresh wires. Source attributes (`transfer_attrs`) are not modelled.
-/

namespace SlangFrontend.Frontend

open Rtlil Ast

/-- The cell type of a unary operator, and whether `handle` inverts the result afterwards. -/
def unaryCellType : UnaryOperator → Option (CellType × Bool)
  | .logicalNot => some (.logicNot, false)
  | .bitwiseNot => some (.not, false)
  | .bitwiseOr => some (.reduceOr, false)
  | .bitwiseAnd => some (.reduceAnd, false)
  | .bitwiseNand => some (.reduceAnd, true)
  | .bitwiseNor => some (.reduceOr, true)
  | _ => none

/-- The cell type of a binary operator. -/
def binaryCellType : BinaryOperator → Option CellType
  | .add => some .add
  | .subtract => some .sub
  | .multiply => some .mul
  | .divide => some .divfloor
  | .mod => some .mod
  | .binaryAnd => some .and
  | .binaryOr => some .or
  | .binaryXor => some .xor
  | .binaryXnor => some .xnor
  | .equality => some .eq
  | .inequality => some .ne
  | .greaterThanEqual => some .ge
  | .greaterThan => some .gt
  | .lessThanEqual => some .le
  | .lessThan => some .lt
  | .logicalAnd => some .logicAnd
  | .logicalOr => some .logicOr
  | .logicalShiftLeft => some .sshl
  | .logicalShiftRight => some .sshr
  | .arithmeticShiftLeft => some .shl
  | .arithmeticShiftRight => some .shr
  | .power => some .pow
  | _ => none

/-- The signedness of a binary cell after the fixups: `$shr` gets an unsigned `B`, `$sshr` and
`$sshl` an unsigned `A` and `B`. -/
def binarySignedness (type : CellType) (aSigned bSigned : Bool) : Bool × Bool :=
  if type == .shr then (aSigned, false)
  else if type == .sshr || type == .sshl then (false, false)
  else (aSigned, bSigned)

/-- The signal bound to a formal argument. -/
def ProcedureContext.arg? (ctx : ProcedureContext) (symbol : Symbol) : Option SigSpec :=
  ctx.args.lookup symbol.id

/-- `set_cell_trigger`'s reading of the sync rules: the edge triggers with their polarities,
and whether the process has an implicit event. -/
def cellTrigger (syncs : List SyncRule) : LowerM (SigSpec × Const × Bool) := do
  let (triggers, polarity, implicit) ← syncs.foldlM (fun (triggers, polarity, implicit) sync =>
    match sync.type with
    | .STn | .STp => do
      logAssert (sync.signal.length == 1) "sync->signal.size() == 1"
      pure (triggers ++ sync.signal, polarity ++ [State.ofBool (sync.type == .STp)], implicit)
    | .STa => pure (triggers, polarity, true)
    | _ => throw (.assertion "log_abort()")) ([], [], false)
  logAssert (!triggers.isEmpty || implicit) "!triggers.empty() || implicit"
  logAssert (!(!triggers.isEmpty && implicit)) "!(!triggers.empty() && implicit)"
  pure (triggers, polarity, implicit)

/-- The checks that end every round of the etching loop: the mask and the padded rvalue have the
width of what is left of the lvalue. -/
def etchCheck (lexpr : Expr) (mask rvalue : SigSpec) : LowerM Unit := do
  if mask.length != lexpr.type.bitstreamWidth then unimplemented
  logAssert (mask.length == lexpr.type.bitstreamWidth)
    "raw_mask.size() == raw_lexpr->type->getBitstreamWidth()"
  logAssert (rvalue.length == lexpr.type.bitstreamWidth)
    "raw_rvalue.size() == raw_lexpr->type->getBitstreamWidth()"

section Lowering

variable (subroutines : Subroutines)

mutual
/-- `translate_index`: the index made signed (with a zero bit on top when it was unsigned),
a valid bit from signed comparisons against the range's bounds, and the offset from the right
bound, cut to `ceil_log2(width)` bits. -/
def translateIndex : Nat → Expr → ConstantRange → Option ProcedureContext →
    LowerM (SigSpec × SigBit)
  | 0, _, _, _ => throw .outOfFuel
  | fuel + 1, idxexpr, range, ctx => do
    let idx ← evaluateRhs fuel idxexpr ctx
    let idx := if idxexpr.type.isSigned then idx else idx ++ [.const .S0]
    let le ← modifyGet (Module.le idx (constInt32 range.upper) true)
    let ge ← modifyGet (Module.ge idx (constInt32 range.lower) true)
    let valid ← modifyGet (Module.logicAnd le ge)
    let rawIdx ← if range.right < range.left then
        modifyGet (Module.sub idx (constInt32 range.right) true)
      else modifyGet (Module.sub (constInt32 range.right) idx true)
    pure (rawIdx.extendU0 (ceilLog2 range.width), valid.headD (.const .Sx))

/-- `evaluate_rhs`. -/
def evaluateRhs : Nat → Expr → Option ProcedureContext → LowerM SigSpec
  | 0, _, _ => throw .outOfFuel
  | fuel + 1, expr, ctx => do
    if let some constant := expr.constant then
      let v ← constantInteger constant
      return ← checkWidth expr.type (svintConst v).toSig
    match expr with
    | .namedValue type _ symbol =>
      match symbol.kind with
      | .net | .variable => do
        require symbol.inInstanceBody
          "valsym.getParentScope()->asSymbol().kind == ast::SymbolKind::InstanceBody"
        let ret := Module.wire symbol.id symbol.type.bitstreamWidth
        checkWidth type (match ctx with
          | some ctx => ret.replace ctx.rvalueSubs
          | none => ret)
      | .parameter => do
        let some init := symbol.initializer | require false "valsym.getInitializer()"; unimplemented
        let some exprconst := init | require false "exprconst && exprconst->isInteger()"; unimplemented
        let ConstantValue.integer v := exprconst
          | require false "exprconst && exprconst->isInteger()"; unimplemented
        checkWidth type (svintConst v).toSig
      | .formalArgument => do
        let some ret := ctx.bind (·.arg? symbol) | require false "ctx && ctx->args.count(&sym)"; unimplemented
        checkWidth type ret
      | .other => unimplemented
    | .unaryOp type _ op operand => do
      let left ← evaluateRhs fuel operand ctx
      let some (cellType, invert) := unaryCellType op | unimplemented
      let ret ← modifyGet (Module.emit cellType left [] [] operand.type.isSigned false
        type.bitstreamWidth)
      if invert then
        let newRet ← modifyGet (Module.addWire 1)
        modify (Module.addCell { type := .logicNot, a := ret, y := newRet })
      checkWidth type ret
    | .binaryOp type _ op leftExpr rightExpr => do
      let left ← evaluateRhs fuel leftExpr ctx
      let right ← evaluateRhs fuel rightExpr ctx
      let some cellType := binaryCellType op | unimplemented
      let (aSigned, bSigned) :=
        binarySignedness cellType leftExpr.type.isSigned rightExpr.type.isSigned
      checkWidth type (← modifyGet (Module.emit cellType left right [] aSigned bSigned
        type.bitstreamWidth))
    | .conversion type _ operand => do
      let source := operand.type
      require source.isIntegral "from.isIntegral()"
      require type.isIntegral "to.isIntegral()"
      require (source.isSigned == type.isSigned || type.bitWidth ≤ source.bitWidth)
        "from.isSigned() == to.isSigned() || to.getBitWidth() <= from.getBitWidth()"
      let ret ← evaluateRhs fuel operand ctx
      checkWidth type (ret.extendU0 type.bitWidth type.isSigned)
    | .integerLiteral type _ value => checkWidth type (svintConst value).toSig
    | .rangeSelect type _ kind value left right => do
      require (kind == .simple) "sel.getSelectionKind() == ast::RangeSelectionKind::Simple"
      let (rawLeft, rawRight, stride) ← rangeSelectBounds value left right
      let base ← evaluateRhs fuel value ctx
      checkWidth type (← extractChecked base (rawRight * stride) (stride * (rawLeft - rawRight + 1)))
    | .elementSelect type _ value selector => do
      require (value.type.isArray && value.type.hasFixedRange)
        "elemsel.value().type->isArray() && elemsel.value().type->hasFixedRange()"
      let stride := type.bitstreamWidth
      let baseValue ← evaluateRhs fuel value ctx
      logAssert (baseValue.length % stride == 0) "base_value.size() % stride == 0"
      let range := value.type.fixedRange
      let (rawIdx, valid) ← translateIndex fuel selector range ctx
      logAssert (baseValue.length ≤ stride * 2 ^ rawIdx.length)
        "stride * (1 << raw_idx.size()) >= base_value.size()"
      let baseValue := baseValue ++ SigSpec.ofState .Sx (stride * 2 ^ rawIdx.length - baseValue.length)
      let selected ← modifyGet (Module.bmux baseValue rawIdx)
      checkWidth type (← modifyGet (Module.mux (SigSpec.ofState .Sx stride) selected [valid]))
    | .concatenation type _ operands => do
      let ret ← operands.foldlM (fun ret operand => do
        pure ((← evaluateRhs fuel operand ctx) ++ ret)) []
      checkWidth type ret
    | .conditionalOp type _ conditions left right => do
      require (conditions.length == 1) "ternary.conditions.size() == 1"
      let some (condition, hasPattern) := conditions.head? | unimplemented
      require (!hasPattern) "!ternary.conditions[0].pattern"
      let falseValue ← evaluateRhs fuel right ctx
      let trueValue ← evaluateRhs fuel left ctx
      let select ← modifyGet (Module.reduceBool (← evaluateRhs fuel condition ctx))
      checkWidth type (← modifyGet (Module.mux falseValue trueValue select))
    | .replication type _ count concat => do
      require count.constant.isSome "repl.count().constant"
      let reps ← constantInt count.constant
      let concat ← evaluateRhs fuel concat ctx
      checkWidth type (concat.repeat reps.toNat)
    | .memberAccess type _ value member => do
      require member.isField "acc.member.kind == ast::SymbolKind::Field"
      require member.randModeNone "member.randMode == ast::RandMode::None"
      let base ← evaluateRhs fuel value ctx
      extractChecked base member.bitOffset type.bitstreamWidth
    | .call type _ target arguments =>
      match target with
      | .system name => do
        require (name == "$signed") "call.getSubroutineName() == \"$signed\""
        require (arguments.length == 1) "call.arguments().size() == 1"
        let some argument := arguments.head? | unimplemented
        checkWidth type (← evaluateRhs fuel argument ctx)
      | .subroutine _ index => do
        let some subr := subroutines index | throw (.assertion "std::get<0>(call.subroutine)")
        require (subr.kind == .function) "subr.subroutineKind == ast::SubroutineKind::Function"
        evaluateFunction fuel subr arguments ctx
    | _ => unimplemented

/-- `evaluate_function`: the arguments are evaluated in the caller's context, the body is
lowered into a new process, and the result is the return-value variable through the staging
map of that process. -/
def evaluateFunction : Nat → Subroutine → List Expr → Option ProcedureContext → LowerM SigSpec
  | 0, _, _, _ => throw .outOfFuel
  | fuel + 1, subr, arguments, ctx => do
    logAssert (subr.kind == .function) "subr.subroutineKind == ast::SubroutineKind::Function"
    logAssert (arguments.length == subr.arguments.length)
      "call.arguments().size() == subr.getArguments().size()"
    let args ← (subr.arguments.zip arguments).mapM fun (formal, actual) => do
      pure (formal.id, ← evaluateRhs fuel actual ctx)
    let visitor ← visitStmt fuel subr.body { mode := .function, ctx := { rvalueSubs := .empty, args } }
    modify (Module.addProcess visitor.process)
    pure ((Module.wire subr.returnValVar.id subr.returnValVar.type.bitstreamWidth).replace
      visitor.staging)

/-- The etching loop of `handle(ExpressionStatement)`: the selects and member accesses around
the assignment target are peeled off one by one, the mask of written bits and the padded
rvalue growing to the width of what is left; every round ends by checking that width. -/
def etch : Nat → Expr → SigSpec → SigSpec → ProcedureContext → LowerM (Expr × SigSpec × SigSpec)
  | 0, _, _, _, _ => throw .outOfFuel
  | fuel + 1, rawLexpr, rawMask, rawRvalue, ctx => do
    match rawLexpr with
    | .rangeSelect _ _ kind value left right => do
      require (kind == .simple) "sel.getSelectionKind() == ast::RangeSelectionKind::Simple"
      let (rawLeft, rawRight, stride) ← rangeSelectBounds value left right
      let width := value.type.fixedRange.width
      let elem0 := SigSpec.ofState .S0 stride
      let elemX := SigSpec.ofState .Sx stride
      let mask := SigSpec.concat [elem0.repeat (width - rawLeft - 1).toNat, rawMask,
        elem0.repeat rawRight.toNat]
      let rvalue := SigSpec.concat [elemX.repeat (width - rawLeft - 1).toNat, rawRvalue,
        elemX.repeat rawRight.toNat]
      etchCheck value mask rvalue
      etch fuel value mask rvalue ctx
    | .elementSelect type _ value selector => do
      require (value.type.isArray && value.type.hasFixedRange)
        "elemsel.value().type->isArray() && elemsel.value().type->hasFixedRange()"
      let stride := type.bitstreamWidth
      let range := value.type.fixedRange
      let (rawIdx, _valid) ← translateIndex fuel selector range (some ctx)
      let mask ← modifyGet (Module.demux rawMask rawIdx)
      let mask := mask.extendU0 (stride * range.width)
      let rvalue := rawRvalue.repeat range.width
      etchCheck value mask rvalue
      etch fuel value mask rvalue ctx
    | .memberAccess type _ value member => do
      require member.isField "acc.member.kind == ast::SymbolKind::Field"
      require member.randModeNone "member.randMode == ast::RandMode::None"
      let pad := (value.type.bitstreamWidth : Int) - type.bitstreamWidth - member.bitOffset
      let mask := SigSpec.concat [SigSpec.ofState .S0 pad.toNat, rawMask,
        SigSpec.ofState .S0 member.bitOffset]
      let rvalue := SigSpec.concat [SigSpec.ofState .Sx pad.toNat, rawRvalue,
        SigSpec.ofState .Sx member.bitOffset]
      etchCheck value mask rvalue
      etch fuel value mask rvalue ctx
    | _ => do
      etchCheck rawLexpr rawMask rawRvalue
      pure (rawLexpr, rawMask, rawRvalue)

/-- `handle(ExpressionStatement)`: `$display`, the `empty_statement` workaround, and
assignments. -/
def handleExpression : Nat → Expr → Visitor → LowerM Visitor
  | 0, _, _ => throw .outOfFuel
  | fuel + 1, expr, v =>
    match expr with
    | .call _ _ target arguments =>
      if target.name == "empty_statement" then pure v
      else if target.name == "$display" then do
        let (triggers, polarity, implicit) ← cellTrigger v.syncs
        let (enable, v) ← contextEnable v
        let priority := v.printPriority - 1
        let v := { v with printPriority := priority }
        let args ← arguments.mapM fun arg =>
          match arg with
          | .stringLiteral _ _ text => pure (FmtArg.string text)
          | .call _ _ callee _ =>
            if callee.name == "$time" then pure (FmtArg.time false)
            else if callee.name == "$realtime" then pure (FmtArg.time true)
            else do pure (FmtArg.integer (← evaluateRhs fuel arg (some v.ctx)) arg.type.isSigned)
          | _ => do pure (FmtArg.integer (← evaluateRhs fuel arg (some v.ctx)) arg.type.isSigned)
        modify (Module.addPrint { triggers, polarity, trgEnable := !implicit, enable, priority, args })
        pure v
      else unimplemented
    | .assignment _ _ nonBlocking left right => do
      let rvalue ← evaluateRhs fuel right (some v.ctx)
      let (rawLexpr, rawMask, rawRvalue) ←
        etch fuel left (SigSpec.ofState .S1 rvalue.length) rvalue v.ctx
      let lvalue := cropZeroMask rawMask (← evaluateLhs rawLexpr)
      let maskedRvalue ← maskRvalue lvalue (cropZeroMask rawMask rawRvalue)
        (cropZeroMask rawMask rawMask) v.ctx.rvalueSubs
      assign (!nonBlocking) lvalue maskedRvalue v
    | _ => unimplemented

/-- The handlers of `ProceduralVisitor` by statement kind. -/
def visitStmt : Nat → Stmt → Visitor → LowerM Visitor
  | 0, _, _ => throw .outOfFuel
  | fuel + 1, stmt, v =>
    match stmt with
    | .expression expr => handleExpression fuel expr v
    | .block kind body => do
      require (kind == .sequential) "blk.blockKind == ast::StatementBlockKind::Sequential"
      visitStmt fuel body v
    | .list stmts => stmts.foldlM (fun v stmt => visitStmt fuel stmt v) v
    | .conditional conditions ifTrue ifFalse => do
      require (conditions.length == 1) "cond.conditions.size() == 1"
      let some (condition, hasPattern) := conditions.head? | unimplemented
      require (!hasPattern) "cond.conditions[0].pattern == NULL"
      let caseSave := v.current
      let condition ← modifyGet (Module.reduceBool (← evaluateRhs fuel condition (some v.ctx)))
      let b := SwitchBuilder.new v.ctx.rvalueSubs condition
      let (b, v) ← b.branch [[.const .S1]] (visitStmt fuel ifTrue) v
      let (b, v) ← match ifFalse with
        | some ifFalse => b.branch [] (visitStmt fuel ifFalse) v
        | none => pure (b, v)
      let (sw, parentActions, v) ← b.finish v
      pure (v.descend caseSave sw parentActions)
    | .case condition _ dispatchExpr items defaultCase => do
      require (condition == .normal) "stmt.condition == ast::CaseStatementCondition::Normal"
      let caseSave := v.current
      let dispatch ← evaluateRhs fuel dispatchExpr (some v.ctx)
      let (b, v) ← items.foldlM (fun (b, v) (exprs, body) => do
        let compares ← exprs.mapM fun e => do
          let compare ← evaluateRhs fuel e (some v.ctx)
          logAssert (compare.length == dispatch.length) "compare.size() == dispatch.size()"
          pure compare
        require (!compares.isEmpty) "!compares.empty()"
        b.branch compares (visitStmt fuel body) v) (SwitchBuilder.new v.ctx.rvalueSubs dispatch, v)
      let (b, v) ← match defaultCase with
        | some body => b.branch [] (visitStmt fuel body) v
        | none => pure (b, v)
      let (sw, parentActions, v) ← b.finish v
      pure (v.descend caseSave sw parentActions)
    | .empty | .variableDecl => pure v
    | .invalid => throw (.assertion "log_abort()")
    | .other => unimplemented
end

end Lowering

end SlangFrontend.Frontend
