import SlangFrontend.Frontend.Equations

/-! # Inlining a recursive function

`evaluate_rhs` lowers a call of a function by inlining it: `evaluate_function` lowers the
arguments and then visits the function's body, which lowers every expression in it, the calls
among them, and both alternatives of every `?:`. Nothing stops this at a call the function makes
of itself. Slang folds a call only when its arguments are constant, so a recursive call with an
argument that depends on a signal is inlined again, and again, and the recursion of the frontend
never ends, even where the recursion of the design ends for every value of the signal.

`recursive_function_never_lowered` shows it on
`function automatic logic [7:0] down(input logic [7:0] n); down = n == 8'd0 ? 8'd0 : down(n - 8'd1); endfunction`
called as `assign y = down(x);`. In SystemVerilog every call ends after at most 256 nested calls,
with `0`. The model counts nested calls with fuel, and no fuel is enough: every run of the
lowering runs out of it, which is the unbounded recursion of the C++ code.

The proof follows the recursion: lowering the body of `down` lowers the false alternative of its
`?:` first, which inlines `down` again with `n - 8'd1` bound to `n`, five units of fuel further
down (`downBody_runs_out`); the argument `n - 8'd1` lowers to eight bits or runs out of fuel on the
way (`predecessor_lowers`).
-/

namespace SlangFrontend.Verified.Inlining

open Rtlil Ast Frontend

/-! ## The function `down` -/

/-- `logic [7:0]`. -/
def byteType : SvType := .packedArray (.scalar true false) ⟨7, 0⟩ false

/-- `logic`, the type of a comparison. -/
def bitType : SvType := .scalar true false

/-- The formal argument `input logic [7:0] n`. -/
def n : Symbol := { id := 0, kind := .formalArgument, type := byteType, inInstanceBody := false }

/-- The return-value variable of `down`. -/
def result : Symbol := { id := 1, kind := .variable, type := byteType, inInstanceBody := false }

/-- `8'dk`, which slang folds to itself. -/
def byte (k : Nat) : Expr :=
  let value : SVInt := ⟨(Const.ofNat 8 k).map fun s => if s = .S1 then .one else .zero, false⟩
  .integerLiteral byteType (some (.integer value)) value

/-- `down(argument)`: a call of the design's function number `0` with an argument slang does not
fold. -/
def callDown (argument : Expr) : Expr := .call byteType none (.subroutine "down" 0) [argument]

def formal : Expr := .namedValue byteType none n

/-- `n - 8'd1`. -/
def predecessor : Expr := .binaryOp byteType none .subtract formal (byte 1)

/-- `down = n == 8'd0 ? 8'd0 : down(n - 8'd1);` -/
def downBody : Stmt :=
  .expression (.assignment byteType none false (.namedValue byteType none result)
    (.conditionalOp byteType none [(.binaryOp bitType none .equality formal (byte 0), false)]
      (byte 0) (callDown predecessor)))

def down : Subroutine :=
  { kind := .function, arguments := [n], body := downBody, returnValVar := result }

/-- The functions of the design: `down` alone. -/
def countdown : Subroutines
  | 0 => some down
  | _ => none

/-- The visitor `evaluate_function` visits the body of `down` with, `n` bound to `sig`. -/
def entry (sig : SigSpec) : Visitor :=
  { mode := .function, ctx := { rvalueSubs := .empty, args := [(n.id, sig)] } }

/-! ## No fuel is enough -/

/-- `n - 8'd1` lowers to eight bits, or runs out of fuel. -/
theorem predecessor_lowers {fuel : Nat} {sig : SigSpec} (width : sig.length = 8) (mod : Module) :
    evaluateRhs countdown fuel predecessor (some (entry sig).ctx) mod = .error .outOfFuel ∨
      ∃ sig' mod', evaluateRhs countdown fuel predecessor (some (entry sig).ctx) mod =
        .ok (sig', mod') ∧ sig'.length = 8 := by
  match fuel with
  | 0 | 1 => exact .inl rfl
  | fuel + 2 =>
    refine .inr ⟨_, _, evaluateRhs_binaryOp (evaluateRhs_formalArgument rfl rfl (checkWidth_of rfl width))
      (evaluateRhs_constant rfl (checkWidth_of rfl rfl)) rfl rfl rfl (checkWidth_of rfl ?_), ?_⟩ <;>
    simp [Module.emit_eq, Module.wireBits, byteType, SvType.bitstreamWidth, ConstantRange.width]

/-- Visiting the body of `down` runs out of fuel, whatever the fuel: the call it lowers first
inlines the body again, five units of fuel down. -/
theorem downBody_runs_out : ∀ fuel {sig : SigSpec}, sig.length = 8 → ∀ mod,
    visitStmt countdown fuel downBody (entry sig) mod = .error .outOfFuel
  | 0, _, _, _ | 1, _, _, _ | 2, _, _, _ | 3, _, _, _ | 4, _, _, _ => rfl
  | fuel + 5, sig, width, mod => by
    rw [downBody, visitStmt_expression, handleExpression_assignment,
      BuildM.bind_of_error (evaluateRhs_conditionalOp_error ?_)]
    rw [callDown, evaluateRhs_call rfl rfl]
    rcases @predecessor_lowers fuel sig width mod with failed | ⟨sig', mod', ran, width'⟩
    · exact evaluateFunction_argument_error rfl rfl failed
    · exact evaluateFunction_body_error rfl rfl ran (downBody_runs_out fuel width' mod')

/-! ## The design -/

def x : Symbol := { id := 2, kind := .variable, type := byteType }

def y : Symbol := { id := 3, kind := .variable, type := byteType }

def ref (symbol : Symbol) : Expr := .namedValue symbol.type none symbol

/-- `logic [7:0] x, y; assign y = down(x);`, with `down` declared in the module. -/
def countdownDesign : List BodyMember :=
  [.variable x, .variable y, .subroutine [n, result],
    .continuousAssign (.assignment byteType none false (ref y) (callDown (ref x)))]

theorem callDown_runs_out : ∀ fuel mod,
    evaluateRhs countdown fuel (callDown (ref x)) none mod = .error .outOfFuel
  | 0, _ | 1, _ | 2, _ => rfl
  | fuel + 3, mod => by
    have lowered : evaluateRhs countdown (fuel + 1) (ref x) none mod = .ok (Module.wire x.id 8, mod) :=
      evaluateRhs_namedValue (.inr rfl) rfl (checkWidth_of rfl rfl)
    rw [callDown, evaluateRhs_call rfl rfl]
    exact evaluateFunction_body_error rfl rfl lowered
      (@downBody_runs_out (fuel + 1) _ (by simp [Module.wire, Module.wireBits]) _)

/-- Lowering `assign y = down(x);` never ends: with any fuel, the module runs out of it, so the
C++ recursion through `evaluate_rhs` and `evaluate_function` has no bound. -/
theorem recursive_function_never_lowered (fuel : Nat) :
    lowerModule countdown fuel countdownDesign = .error .outOfFuel := by
  have assigned : populateMember countdown fuel
      (.continuousAssign (.assignment byteType none false (ref y) (callDown (ref x)))) {} =
      .error .outOfFuel :=
    populateMember_continuousAssign_error rfl (callDown_runs_out fuel _)
  show (Prod.snd <$> populate countdown fuel countdownDesign {}) = _
  rw [show populate countdown fuel countdownDesign {} = (populateMember countdown fuel
      (.continuousAssign (.assignment byteType none false (ref y) (callDown (ref x)))) >>= fun _ =>
        populate countdown fuel []) {} from rfl, BuildM.bind_of_error assigned]
  rfl

end SlangFrontend.Verified.Inlining
