import SlangFrontend.Verified.Lowering

/-! # Signed division

`evaluate_rhs` lowers `/` to a `$divfloor` cell (`// TODO: check`). Yosys' `$divfloor` rounds a
quotient toward minus infinity; SystemVerilog's `/` truncates it toward zero (11.4.2). The two
agree where the operands are unsigned, or where the divisor divides the dividend, or where both
have one sign, and disagree otherwise.

`signed_division_rounds_down` says what the lowered signal reads for any signed operands of the
lowered fragment: the floor of the quotient of their values, where the expression means the
truncated one. With `a = -13` and `b = 4`, `a / b` is lowered to `-4` where SystemVerilog gives
`-3`. (`%` is lowered to `$mod`, which takes the dividend's sign as `%` does, and is in the
fragment of `Lowering`.)
-/

namespace SlangFrontend.Verified.Division

open Rtlil Ast Frontend Semantics Lowering

variable (subroutines : Subroutines)

/-- Signed `a / b` is lowered to floor division: with enough fuel, from any module, for every
valuation under which no variable is `z` and the operands read as numbers `a` and `b ≠ 0`, the
lowered signal reads `⌊a / b⌋` modulo `2 ^ width`, and the expression means `a / b` rounded
toward zero. -/
theorem signed_division_rounds_down {type : SvType} {left right : Expr}
    (signedL : left.type.isSigned = true) (signedR : right.type.isSigned = true)
    (fixed : type.isFixedSize)
    (innerL : Rvalue left) (innerR : Rvalue right) :
    ∃ enough, ∀ fuel ≥ enough, ∀ mod, ∃ rhs mod',
      evaluateRhs subroutines fuel (.binaryOp type none .divide left right) none mod =
        .ok (rhs, mod') ∧
      ∀ σ, Driven (inputs mod σ) → ∀ a b : Int,
        (value (inputs mod σ) left).bind (Const.toInt? true) = some a →
        (value (inputs mod σ) right).bind (Const.toInt? true) = some b → b ≠ 0 →
        rhs.eval (Module.evalCells mod'.cells σ) = Const.ofInt type.bitstreamWidth (a.fdiv b) ∧
        value (inputs mod σ) (.binaryOp type none .divide left right) =
          some (Const.ofInt type.bitstreamWidth (a.tdiv b)) := by
  obtain ⟨enough, lowers⟩ := @lowers_binaryCell subroutines type .divide left right .divfloor rfl
    (by rw [signedL, signedR]; rfl) (fun _ _ _ _ => length_constArith _ _ _ _ _ _) fixed
    (lowers_of_rvalue innerL) (lowers_of_rvalue innerR)
  refine ⟨enough, fun fuel more mod => ?_⟩
  obtain ⟨rhs, mod', readL, readR, run, -, -, reads, -, means⟩ :=
    lowers fuel more none mod (settled_none mod)
  refine ⟨rhs, mod', run, fun σ driven a b readA readB nonzero => ?_⟩
  obtain ⟨valueL, valueR⟩ := means σ driven
  rw [current_none] at valueL valueR
  rw [valueL, Option.some_bind] at readA
  rw [valueR, Option.some_bind] at readB
  refine ⟨?_, ?_⟩
  · rw [reads.eval_eq mod' (.refl mod') σ, signedL, signedR]
    simp [CellType.eval, constDivfloor, constArith, readA, readB, nonzero]
  · rw [value_binaryOp, valueL, valueR]
    simp [binaryValue, divide, signedL, signedR, readA, readB, nonzero]

/-! ## `-13 / 4` -/

/-- `logic signed [7:0]`. -/
def signedByte : SvType := .packedArray (.scalar true false) ⟨7, 0⟩ true

def dividend : Symbol := { id := 0, kind := .variable, type := signedByte }

def divisor : Symbol := { id := 1, kind := .variable, type := signedByte }

def quotient : Expr := .binaryOp signedByte none .divide (.namedValue signedByte none dividend)
  (.namedValue signedByte none divisor)

theorem quotient_rounds_down :
    ∃ enough, ∀ fuel ≥ enough, ∀ mod, ∃ rhs mod',
      evaluateRhs Masking.noSubroutines fuel quotient none mod = .ok (rhs, mod') ∧
      ∀ σ, Driven (inputs mod σ) → ∀ a b : Int,
        (value (inputs mod σ) (.namedValue signedByte none dividend)).bind (Const.toInt? true) =
          some a →
        (value (inputs mod σ) (.namedValue signedByte none divisor)).bind (Const.toInt? true) =
          some b → b ≠ 0 →
        rhs.eval (Module.evalCells mod'.cells σ) = Const.ofInt 8 (a.fdiv b) ∧
        value (inputs mod σ) quotient = some (Const.ofInt 8 (a.tdiv b)) :=
  signed_division_rounds_down Masking.noSubroutines rfl rfl rfl
    (.named (.inr rfl) rfl rfl rfl) (.named (.inr rfl) rfl rfl rfl)

/-- `dividend = -13`, `divisor = 4`. -/
def thirteenByFour : Env := fun s i => (Const.ofInt 8 (if s = dividend.id then -13 else 4)).getD i .S0

example :
    (evaluateRhs Masking.noSubroutines 2 quotient none {}).map
        (fun (y, mod) => y.eval (Module.evalCells mod.cells thirteenByFour.toValuation)) =
      .ok (Const.ofInt 8 (-4)) ∧
    value thirteenByFour quotient = some (Const.ofInt 8 (-3)) := by
  decide

end SlangFrontend.Verified.Division
