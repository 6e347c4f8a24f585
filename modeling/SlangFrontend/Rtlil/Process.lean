import SlangFrontend.Rtlil.Cell

/-! # Processes and their case trees

`RTLIL::Process`: a root case rule and a list of sync rules. A case rule holds actions
(`lhs ← rhs` pairs) and nested switches; a switch holds a signal and case rules, each with a
list of values to compare the signal against (none for a default case).

The meaning of a case tree (`CaseRule.eval`) is the one `proc_mux` implements: a case's
actions run before its switches and in order, later writes to a bit override earlier ones,
the switches run in order, and in a switch the first case whose compare list matches the
signal (or is empty) is taken. The right-hand sides are read from a valuation of all wires;
the result says, for every wire bit, the last value written to it, if any.
-/

namespace SlangFrontend.Rtlil

/-- `RTLIL::SigSig`. -/
abbrev SigSig := SigSpec × SigSpec

mutual
/-- `RTLIL::CaseRule`. -/
inductive CaseRule where
  | mk (compare : List SigSpec) (actions : List SigSig) (switches : List SwitchRule)
/-- `RTLIL::SwitchRule`. -/
inductive SwitchRule where
  | mk (signal : SigSpec) (cases : List CaseRule)
end

namespace CaseRule

def compare : CaseRule → List SigSpec
  | mk compare _ _ => compare

def actions : CaseRule → List SigSig
  | mk _ actions _ => actions

def switches : CaseRule → List SwitchRule
  | mk _ _ switches => switches

/-- `case_rule->actions.push_back(action)`. -/
def pushAction : CaseRule → SigSig → CaseRule
  | mk compare actions switches, action => mk compare (actions ++ [action]) switches

/-- `case_rule->switches.push_back(sw)`. -/
def pushSwitch : CaseRule → SwitchRule → CaseRule
  | mk compare actions switches, sw => mk compare actions (switches ++ [sw])

end CaseRule

namespace SwitchRule

def signal : SwitchRule → SigSpec
  | mk signal _ => signal

def cases : SwitchRule → List CaseRule
  | mk _ cases => cases

end SwitchRule

/-- `RTLIL::SyncType`. -/
inductive SyncType where
  | ST0 | ST1 | STp | STn | STe | STa | STg | STi
  deriving DecidableEq, Repr

/-- `RTLIL::SyncRule`. -/
structure SyncRule where
  type : SyncType
  signal : SigSpec
  actions : List SigSig

/-- `RTLIL::Process`. -/
structure Process where
  rootCase : CaseRule
  syncs : List SyncRule

/-! ## Evaluation -/

/-- The values written so far to each wire bit by a process. -/
def Assignment := WireId → Nat → Option State

namespace Assignment

def empty : Assignment := fun _ _ => none

/-- The assignment with the wire bits of `lhs` given `value`, bit by bit. -/
def write : Assignment → SigSpec → Const → Assignment
  | m, .wire w offset :: lhs, v :: vs =>
    write (fun w' offset' => if w' = w ∧ offset' = offset then some v else m w' offset') lhs vs
  | m, .const _ :: lhs, _ :: vs => write m lhs vs
  | m, _, _ => m

/-- The actions of a case, in order, with right-hand sides read from `σ`. -/
def applyActions (σ : Valuation) (m : Assignment) (actions : List SigSig) : Assignment :=
  actions.foldl (fun m action => m.write action.1 (action.2.eval σ)) m

end Assignment

/-- Whether a case with compare list `compare` is taken for a switch on `signal`. -/
def caseMatches (σ : Valuation) (signal : SigSpec) (compare : List SigSpec) : Bool :=
  compare.isEmpty || compare.any fun value => value.eval σ == signal.eval σ

mutual
/-- A case rule: its actions, then its switches. -/
def CaseRule.eval (σ : Valuation) : CaseRule → Assignment → Assignment
  | .mk _ actions switches, m => SwitchRule.evalAll σ switches (m.applyActions σ actions)

/-- Switches in order. -/
def SwitchRule.evalAll (σ : Valuation) : List SwitchRule → Assignment → Assignment
  | [], m => m
  | sw :: rest, m => SwitchRule.evalAll σ rest (SwitchRule.eval σ sw m)

/-- A switch: its first matching case. -/
def SwitchRule.eval (σ : Valuation) : SwitchRule → Assignment → Assignment
  | .mk signal cases, m => SwitchRule.evalCases σ signal cases m

/-- The first case of `cases` whose compare list matches `signal`. -/
def SwitchRule.evalCases (σ : Valuation) (signal : SigSpec) :
    List CaseRule → Assignment → Assignment
  | [], m => m
  | .mk compare actions switches :: rest, m =>
    if caseMatches σ signal compare then CaseRule.eval σ (.mk compare actions switches) m
    else SwitchRule.evalCases σ signal rest m
end

/-- What a process assigns in one evaluation of its case tree. -/
def Process.eval (σ : Valuation) (p : Process) : Assignment := p.rootCase.eval σ .empty

/-- The valuation once the wires an assignment gives a value hold that value. -/
def Assignment.override (m : Assignment) (σ : Valuation) : Valuation :=
  fun w offset => (m w offset).getD (σ w offset)

/-- The values an assignment gives the bits of a signal. -/
def Assignment.read (m : Assignment) (s : SigSpec) : List (Option State) :=
  s.map fun
    | .wire w offset => m w offset
    | .const _ => none

/-- What a sync rule of process `p` writes when its event occurs: its actions, with right-hand
sides read once the case tree has driven its wires. -/
def SyncRule.eval (σ : Valuation) (p : Process) (sync : SyncRule) : Assignment :=
  Assignment.empty.applyActions ((p.eval σ).override σ) sync.actions

end SlangFrontend.Rtlil
