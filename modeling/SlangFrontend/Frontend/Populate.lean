import SlangFrontend.Frontend.Lower

/-! # Populating a module

`ModulePopulatingVisitor`: the sync rules of a procedural block (`populate_sync`), the
processes of `always`, `always_ff` and `always_comb` blocks, the `init` attributes of
variables, net initializers, continuous assignments, ports and submodule instances, visited in
the order of the instance body. `lowerModule` runs the wire-adding pass's check and then the
populating pass on an empty module, as `RTLILGenVisitor` does for each instance.
-/

namespace SlangFrontend.Frontend

open Rtlil Ast

section Populating

variable (subroutines : Subroutines)

mutual
/-- `populate_sync`: the sync rules a timing control adds, and whether it is one it handles. -/
def populateSync (fuel : Nat) : TimingControl → List SyncRule → LowerM (Bool × List SyncRule)
  | .signalEvent expr edge hasIffCondition, syncs => do
    let sig ← evaluateRhs subroutines fuel expr none
    require (!hasIffCondition) "sigevent.iffCondition == NULL"
    match edge with
    | .none => pure (true, syncs ++ [⟨.STa, [], []⟩])
    | .posEdge => do
      require (sig.length == 1) "sig.size() == 1"
      pure (true, syncs ++ [⟨.STp, sig, []⟩])
    | .negEdge => do
      require (sig.length == 1) "sig.size() == 1"
      pure (true, syncs ++ [⟨.STn, sig, []⟩])
    | .bothEdges => do
      require (sig.length == 1) "sig.size() == 1"
      pure (true, syncs ++ [⟨.STe, sig, []⟩])
  | .implicitEvent, syncs => pure (true, syncs ++ [⟨.STa, [], []⟩])
  | .eventList events, syncs => populateSyncList fuel events syncs
  | .other, syncs => pure (false, syncs)

/-- The loop of `populate_sync` over an event list, stopping at the first it does not handle. -/
def populateSyncList (fuel : Nat) : List TimingControl → List SyncRule →
    LowerM (Bool × List SyncRule)
  | [], syncs => pure (true, syncs)
  | event :: events, syncs => do
    let (handled, syncs) ← populateSync fuel event syncs
    if handled then populateSyncList fuel events syncs else pure (false, syncs)
end

/-- The process of a visitor whose body has been lowered, after `staging_done`. -/
def addProcess (v : Visitor) : LowerM Unit :=
  modify (Module.addProcess (stagingDone v).process)

/-- `handle(ProceduralBlockSymbol)`. -/
def handleProceduralBlock (fuel : Nat) (block : ProceduralBlock) : LowerM Unit :=
  match block.kind with
  | .always | .alwaysFF => do
    let .timed timing stmt := block.body
      | require false "sym.getBody().kind == ast::StatementKind::Timed"
    let (handled, syncs) ← populateSync subroutines fuel timing []
    if !handled then unimplemented
    addProcess (← visitStmt subroutines fuel stmt { mode := .always, syncs })
  | .alwaysComb => do
    let .plain stmt := block.body | unimplemented
    addProcess (← visitStmt subroutines fuel stmt { mode := .always, syncs := [⟨.STa, [], []⟩] })
  | .initial => unimplemented
  | .final => pure ()
  | .alwaysLatch => unimplemented

/-- `handle(VariableSymbol)`: the initializer's constant, or the type's default value, becomes
the `init` attribute unless it is entirely undefined. -/
def handleVariable (symbol : Symbol) : LowerM Unit := do
  let defvalue ← match symbol.initializer with
    | some init => do
      let some constant := init | require false "init->constant"; unimplemented
      pure constant
    | none => pure symbol.type.defaultValue
  let initval ← constConst defvalue
  if !SigSpec.isFullyUndef initval.toSig then
    modify (Module.addInit (.net symbol.id) initval)

/-- `handle(PortSymbol)`. -/
def handlePort (symbol : Symbol) (direction : ArgumentDirection) : LowerM Unit :=
  let (input, output) := match direction with
    | .input => (true, false)
    | .output => (false, true)
    | .inOut => (true, true)
    | .ref => (false, false)
  modify (Module.addPort (.net symbol.id) input output)

/-- `handle(InstanceSymbol)`: an output port bound with `.port(lhs)` is an lvalue, any other
connection an rvalue. -/
def handleInstance (fuel : Nat) (name : String) (isModule : Bool)
    (connections : List (Nat × Option Expr)) : LowerM Unit := do
  require isModule "sym.isModule()"
  let ports ← connections.filterMapM fun (port, expr) => do
    let some expr := expr | pure none
    match expr with
    | .assignment _ _ _ left right => do
      require (match right with | .emptyArgument .. => true | _ => false)
        "assign.right().kind == ast::ExpressionKind::EmptyArgument"
      pure (some (port, ← evaluateLhs left))
    | _ => pure (some (port, ← evaluateRhs subroutines fuel expr none))
  modify (Module.addInstance name ports)

mutual
/-- `ModulePopulatingVisitor` on one member of an instance body. -/
def populateMember (fuel : Nat) : BodyMember → LowerM Unit
  | .port symbol direction => handlePort symbol direction
  | .net symbol initializer =>
    if let some init := initializer then do
      let value ← evaluateRhs subroutines fuel init none
      modify (Module.connect (Module.wire symbol.id symbol.type.bitstreamWidth) value)
    else pure ()
  | .variable symbol => handleVariable symbol
  | .parameter _ | .subroutine _ | .ignored => pure ()
  | .continuousAssign assignment =>
    match assignment with
    | .assignment _ _ _ left right => do
      let lhs ← evaluateLhs left
      modify (Module.connect lhs (← evaluateRhs subroutines fuel right none))
    | _ => unimplemented
  | .proceduralBlock block => handleProceduralBlock subroutines fuel block
  | .instance name isModule connections => handleInstance subroutines fuel name isModule connections
  | .generateBlock isUninstantiated body =>
    if !isUninstantiated then populate fuel body else pure ()
  | .statementBlock body => populate fuel body
  | .other => unimplemented

/-- `ModulePopulatingVisitor` over the members of an instance body, in order. -/
def populate (fuel : Nat) : List BodyMember → LowerM Unit
  | [] => pure ()
  | member :: members => do
    populateMember fuel member
    populate fuel members
end

mutual
/-- The symbols of one member that the wire-adding pass makes wires for: it visits every value
symbol of the body, those declared in subroutines included. -/
def memberValueSymbols : BodyMember → List Symbol
  | .port symbol _ | .net symbol _ | .variable symbol | .parameter symbol => [symbol]
  | .subroutine symbols => symbols
  | .generateBlock _ body | .statementBlock body => valueSymbols body
  | _ => []

/-- The symbols of an instance body that the wire-adding pass makes wires for. -/
def valueSymbols : List BodyMember → List Symbol
  | [] => []
  | member :: members => memberValueSymbols member ++ valueSymbols members
end

/-- One module: the wire-adding pass requires every value symbol to be fixed-size, then the
populating pass fills the module. -/
def lowerModule (fuel : Nat) (body : List BodyMember) : Except Failure Module := do
  (valueSymbols body).forM fun symbol => require symbol.type.isFixedSize "sym.getType().isFixedSize()"
  let ((), mod) ← (populate subroutines fuel body).run {}
  pure mod

end Populating

end SlangFrontend.Frontend
