import SlangFrontend.Semantics.Expr

/-! # What a procedural body does

One execution of the body of an `always` block (IEEE 1800-2017, 9.2, 10.4, 12.4 and 12.5).
A blocking assignment changes the variables at once; a nonblocking one is scheduled, and the
scheduled writes take effect together once the body is done, in the order they were made, so
that the last write to a bit wins. An `if` whose condition is not one takes its `else` branch;
a `case` takes the first item with an expression identical (`===`) to the dispatched value.
Writes through an element select whose index is unknown or out of range are discarded (7.4.6).
A write stores the bits it is given, which is what a four-state variable holds after it; the
fragments the proofs cover write four-state variables only (a two-state one would turn `x` and
`z` into zero, 6.11.2).
-/

namespace SlangFrontend.Semantics

open Rtlil Ast

/-- The variable bit an lvalue bit designates, or `none` for a write that is discarded. -/
abbrev Target := Option (Nat × Nat)

mutual
/-- The bits an lvalue designates, from the least significant. -/
def target (env : Env) : Expr → Option (List Target)
  | .namedValue _ _ symbol =>
    match symbol.kind with
    | .net | .variable =>
      some ((List.range symbol.type.bitstreamWidth).map fun i => some (symbol.id, i))
    | _ => none
  | .rangeSelect type _ .simple array left right => do
    let base ← target env array
    let l ← indexValue (← value env left) left.type.isSigned
    let r ← indexValue (← value env right) right.type.isSigned
    let range := array.type.fixedRange
    let stride := array.type.bitstreamWidth / range.width
    let low := min (range.translateIndex l) (range.translateIndex r)
    pure ((base.drop (stride * low.toNat)).take type.bitstreamWidth)
  | .elementSelect type _ array selector => do
    let base ← target env array
    let index := indexValue (← value env selector) selector.type.isSigned
    pure (selectElement base none array.type.fixedRange type.bitstreamWidth index)
  | .memberAccess type _ whole member => do
    pure (((← target env whole).drop member.bitOffset).take type.bitstreamWidth)
  | .concatenation _ _ operands => targets env operands
  | _ => none

/-- The bits of a concatenation of lvalues: the first operand is the most significant. -/
def targets (env : Env) : List Expr → Option (List Target)
  | [] => some []
  | operand :: operands => do
    let rest ← targets env operands
    pure (rest ++ (← target env operand))
end

/-- `env` with bit `i` of variable `s` set to `v`. -/
def Env.write (env : Env) (s i : Nat) (v : State) : Env :=
  fun s' i' => if s' = s ∧ i' = i then v else env s' i'

/-- The writes of an assignment: each designated bit gets the matching bit of the value. -/
def writes : List Target → Const → List ((Nat × Nat) × State)
  | some bit :: targets, v :: vs => (bit, v) :: writes targets vs
  | none :: targets, _ :: vs => writes targets vs
  | _, _ => []

/-- `env` after the writes, in order. -/
def Env.writeAll (env : Env) (ws : List ((Nat × Nat) × State)) : Env :=
  ws.foldl (fun env ((s, i), v) => env.write s i v) env

/-- The state of one execution of a body: the variables, with the blocking writes made so far,
and the nonblocking writes scheduled so far, in order. -/
structure Exec where
  env : Env
  scheduled : List ((Nat × Nat) × State)

mutual
/-- One statement. -/
def exec : Stmt → Exec → Option Exec
  | .list stmts, e => execList stmts e
  | .block .sequential body, e => exec body e
  | .expression (.assignment _ _ nonBlocking left right), e => do
    let ws := writes (← target e.env left) (← value e.env right)
    if nonBlocking then pure ⟨e.env, e.scheduled ++ ws⟩ else pure ⟨e.env.writeAll ws, e.scheduled⟩
  | .conditional [(condition, false)] ifTrue ifFalse, e => do
    if truth (← value e.env condition) == .S1 then exec ifTrue e else execOptional ifFalse e
  | .case .normal _ dispatch items defaultCase, e => do
    match ← execItems (← value e.env dispatch) items e with
    | some e => pure e
    | none => execOptional defaultCase e
  | .empty, e | .variableDecl, e => pure e
  | _, _ => none

/-- Statements in order. -/
def execList : List Stmt → Exec → Option Exec
  | [], e => pure e
  | stmt :: stmts, e => do execList stmts (← exec stmt e)

/-- An `else` branch or a default case, if there is one. -/
def execOptional : Option Stmt → Exec → Option Exec
  | some stmt, e => exec stmt e
  | none, e => pure e

/-- The first case item with an expression identical to `dispatched`: `some none` when there
is none. -/
def execItems (dispatched : Const) : List (List Expr × Stmt) → Exec → Option (Option Exec)
  | [], _ => pure none
  | item :: items, e => do
    match ← execItem dispatched item e with
    | some e => pure (some e)
    | none => execItems dispatched items e

/-- One case item: its body when one of its expressions is identical to `dispatched`. -/
def execItem (dispatched : Const) : List Expr × Stmt → Exec → Option (Option Exec)
  | (exprs, body), e => do
    if (← exprs.mapM (value e.env)).contains dispatched then pure (some (← exec body e))
    else pure none
end

/-- The variables once the body is done and its scheduled writes have taken effect. -/
def Exec.commit (e : Exec) : Env := e.env.writeAll e.scheduled

/-- One execution of a body from the values `env`: the values at the end of the time step. -/
def run (body : Stmt) (env : Env) : Option Env := (exec body ⟨env, []⟩).map Exec.commit

end SlangFrontend.Semantics
