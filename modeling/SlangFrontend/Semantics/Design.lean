import SlangFrontend.Semantics.Stmt

/-! # The steady states of an instance body

The members of an instance body that run whenever what they read changes: a continuous
assignment, and a net's declaration assignment, drive their left-hand side with the value of
their right-hand side (IEEE 1800-2017, 10.3 and 6.7.1), and `always_comb` and `always @*` run
their body (9.2.2.2 and 9.4.2.2). The design is steady in `env` when none of them, run from `env`,
changes a variable. Blocks triggered by an edge, declarations, ports, parameters and `final`
blocks put no constraint on a steady state, and neither do the members of a generate block that
is not instantiated.
-/

namespace SlangFrontend.Semantics

open Ast

/-- `wire w = init;` as the continuous assignment it stands for. -/
def netAssignment (symbol : Symbol) (init : Expr) : Expr :=
  .assignment symbol.type none false (.namedValue symbol.type none symbol) init

mutual
/-- Running the member from `env` leaves `env` as it is. -/
def Steady (env : Env) : BodyMember → Prop
  | .net symbol (some init) => run (.expression (netAssignment symbol init)) env = some env
  | .continuousAssign assignment => run (.expression assignment) env = some env
  | .proceduralBlock ⟨.alwaysComb, .plain body⟩
  | .proceduralBlock ⟨.always, .timed .implicitEvent body⟩ => run body env = some env
  | .generateBlock false members | .statementBlock members => SteadyAll env members
  | _ => True

/-- Every member is steady in `env`. -/
def SteadyAll (env : Env) : List BodyMember → Prop
  | [] => True
  | member :: members => Steady env member ∧ SteadyAll env members
end

end SlangFrontend.Semantics
