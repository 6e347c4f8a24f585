import SlangFrontend.Frontend.Equations
import SlangFrontend.Semantics.Expr

/-! # Inverted reductions

`evaluate_rhs` lowers `~&e` and `~|e` to a `$reduce_and` or `$reduce_or` cell on the lowered
operand, and then adds a wire and a `$logic_not` cell to invert it. The value it returns,
though, is `ret`, the reduction's output: the inverting cell's wire `new_ret` is never read.
So the lowered signal carries `&e` where SystemVerilog gives `~&e`, and `|e` for `~|e`:
`nand_of_ones_lowered_to_one` evaluates both on `~&a` with `a = 2'b11`.
-/

namespace SlangFrontend.Verified.Reduction

open Rtlil Ast Frontend

/-! ## `~&a` with `a = 2'b11` -/

/-- `logic [1:0]`. -/
def pairType : SvType := .packedArray (.scalar true false) ⟨1, 0⟩ false

/-- `logic a`: a one-bit result. -/
def bitType : SvType := .scalar true false

/-- A variable `logic [1:0] a`. -/
def pair : Symbol := { id := 0, kind := .variable, type := pairType }

def pairRef : Expr := .namedValue pairType none pair

/-- `~&a`. -/
def nandOfPair : Expr := .unaryOp bitType none .bitwiseNand pairRef

/-- A design with no functions. -/
def noSubroutines : Subroutines := fun _ => none

/-- Every variable bit is one. -/
def allOnes : Semantics.Env := fun _ _ => .S1

/-- With both bits of `a` one, the lowered `~&a` evaluates to one, where SystemVerilog gives
zero. -/
theorem nand_of_ones_lowered_to_one :
    (evaluateRhs noSubroutines 2 nandOfPair none {}).map
        (fun (y, mod) => y.eval (Module.evalCells mod.cells allOnes.toValuation)) = .ok [.S1] ∧
      Semantics.value allOnes nandOfPair = some [.S0] :=
  ⟨by decide, by decide⟩

end SlangFrontend.Verified.Reduction
