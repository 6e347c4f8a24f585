import SlangFrontend.Rtlil.Signal
import SlangFrontend.Rtlil.Const
import SlangFrontend.Rtlil.Cell
import SlangFrontend.Rtlil.Process
import SlangFrontend.Rtlil.Module
import SlangFrontend.Builder
import SlangFrontend.Ast
import SlangFrontend.Frontend.Lhs
import SlangFrontend.Frontend.Procedure
import SlangFrontend.Frontend.Lower
import SlangFrontend.Frontend.Populate
import SlangFrontend.Frontend.Equations
import SlangFrontend.Frontend.Index
import SlangFrontend.Frontend.Runs
import SlangFrontend.Semantics.Expr
import SlangFrontend.Semantics.Stmt
import SlangFrontend.Semantics.Design
import SlangFrontend.Verified.BuilderShortcuts
import SlangFrontend.Verified.Reduction
import SlangFrontend.Verified.Masking
import SlangFrontend.Verified.InitLayout
import SlangFrontend.Verified.ReadWrite
import SlangFrontend.Verified.IndexTranslation
import SlangFrontend.Verified.Operators
import SlangFrontend.Verified.Lowering
import SlangFrontend.Verified.ContinuousAssign
import SlangFrontend.Verified.StraightLine
import SlangFrontend.Verified.AlwaysComb
import SlangFrontend.Verified.AlwaysFF
import SlangFrontend.Verified.SteadyState
import SlangFrontend.Verified.Inlining
import SlangFrontend.Verified.Division
import SlangFrontend.Verified.Switch
