import SlangFrontend.Frontend.Lhs

/-! # The state of procedural lowering

`ProcedureContext` (the blocking substitutions and the bound arguments), the state of a
`ProceduralVisitor`, `SwitchBuilder`, `crop_zero_mask` and the staging of lvalues.

The visitor's `current_case` pointer is a zipper: `current` is the case that statements are
being added to, and `frames` are the cases around it, innermost first, each waiting for `current`
(or the frame below it) as the only case of its last switch, the dummy switch that
`handle(ConditionalStatement)` and `handle(CaseStatement)` descend into. A branch body starts
from its own case with no frames, and `Visitor.closed` folds the frames back up once it is done.
-/

namespace SlangFrontend.Frontend

open Rtlil Ast

/-- The frontend's monad: the module under construction, and failure. -/
abbrev LowerM := BuildM

/-- `ProcedureContext`. -/
structure ProcedureContext where
  /-- rvalue substitutions from blocking assignments -/
  rvalueSubs : Dict
  /-- the formal arguments, by symbol -/
  args : List (Nat × SigSpec)

def ProcedureContext.empty : ProcedureContext := ⟨.empty, []⟩

/-- `Yosys::SigPool::check_any`. -/
def checkAny (pool lvalue : SigSpec) : Bool := lvalue.any (· ∈ pool)

inductive Mode where
  | always | function
  deriving DecidableEq, Repr

/-- The state of a `ProceduralVisitor`, together with the parts of its process that it writes:
the actions of the root case and the sync rules. -/
structure Visitor where
  mode : Mode
  ctx : ProcedureContext := .empty
  staging : Dict := .empty
  assignedBlocking : SigSpec := []
  assignedNonblocking : SigSpec := []
  printPriority : Int := 0
  syncs : List SyncRule := []
  rootActions : List SigSig := []
  current : CaseRule := .mk [] [] []
  frames : List CaseRule := []

namespace Visitor

/-- The case a visitor started from, with everything added below it. -/
def closed (v : Visitor) : CaseRule :=
  v.frames.foldl (fun child parent => parent.pushSwitch (.mk [] [child])) v.current

/-- The process: the root case, whose only switch holds the visitor's top case, and the syncs. -/
def process (v : Visitor) : Process :=
  ⟨.mk [] v.rootActions [.mk [] [v.closed]], v.syncs⟩

/-- `current_case->actions.push_back(action)`. -/
def pushAction (v : Visitor) (action : SigSig) : Visitor :=
  { v with current := v.current.pushAction action }

end Visitor

/-- `Yosys::ceil_log2(int x)` of an unsigned 32-bit count such as `range.width()`: the least `i`
with `x ≤ 2 ^ i`. From `2 ^ 31` on the count arrives as a negative `int`, and the result is `0`. -/
def ceilLog2 (x : Nat) : Nat :=
  if x < 2 ^ 31 then ((List.range 32).find? fun i => x ≤ 2 ^ i).getD 0 else 0

theorem ceilLog2_lt (x : Nat) : ceilLog2 x < 32 := by
  unfold ceilLog2
  split
  · cases found : (List.range 32).find? fun i => decide (x ≤ 2 ^ i) with
    | none => decide
    | some i => simpa using List.mem_range.mp (List.mem_of_find?_eq_some found)
  · decide

theorem le_two_pow_ceilLog2 {x : Nat} (small : x < 2 ^ 31) : x ≤ 2 ^ ceilLog2 x := by
  rw [ceilLog2, if_pos small]
  cases found : (List.range 32).find? fun i => decide (x ≤ 2 ^ i) with
  | none =>
    have beyond := List.find?_eq_none.mp found 31 (List.mem_range.mpr (by decide))
    simp at beyond
    omega
  | some i => simpa using List.find?_some found

/-- `RTLIL::Const(int)`: 32 bits. -/
def constInt32 (v : Int) : SigSpec := (Const.ofInt 32 v).toSig

/-- `crop_zero_mask(mask, target)`: the bits of `target` where `mask` is a constant zero are
removed. `mask` and `target` have equal widths at every call. -/
def cropZeroMask : SigSpec → SigSpec → SigSpec
  | m :: mask, t :: target =>
    if m == .const .S0 then cropZeroMask mask target else t :: cropZeroMask mask target
  | [], target => target
  | _ :: _, [] => []

/-- Fresh wires for the chunks of `bits`, entered into `d`: bit `i` of a chunk maps to bit `i`
of its wire. -/
def allocateChunks (bits : SigSpec) (d : Dict) : LowerM Dict :=
  bits.chunks.foldlM (fun d chunk => do
    let w ← modifyGet (Module.addWire chunk.length)
    pure (d.setAll chunk w)) d

/-- `staging_signal`: a staging wire for each bit of `lvalue` that has none yet, and `lvalue`
with its bits replaced by their staging bits. -/
def stagingSignal (lvalue : SigSpec) (v : Visitor) : LowerM (SigSpec × Visitor) := do
  logAssert (lvalue.all fun | .wire .. => true | .const _ => false) "bit.wire"
  let toCreate := SigSpec.sortAndUnify (lvalue.filter fun bit => (v.staging.get? bit).isNone)
  let staging ← allocateChunks toCreate v.staging
  pure (lvalue.replace staging, { v with staging })

theorem stagingSignal_ok {lvalue : SigSpec} {v : Visitor} {mod mod' : Module}
    {r : SigSpec × Visitor} (staged : stagingSignal lvalue v mod = .ok (r, mod')) :
    r.2 = { v with staging := r.2.staging } ∧ r.1 = lvalue.replace r.2.staging := by
  simp only [stagingSignal] at staged
  obtain ⟨_, mod1, -, staged⟩ := BuildM.ok_of_bind_ok staged
  obtain ⟨staging, mod2, -, staged⟩ := BuildM.ok_of_bind_ok staged
  cases staged
  exact ⟨rfl, rfl⟩

/-- `staging_done`: for every staged chunk, each sync rule copies the staging wire to the
variable, and the root case first copies the variable to the staging wire. -/
def stagingDone (v : Visitor) : Visitor :=
  let allDriven := SigSpec.sortAndUnify v.staging.keys
  (SigSpec.chunks allDriven).foldl (fun v chunk =>
    let mapped := chunk.replace v.staging
    { v with
      syncs := v.syncs.map fun sync => { sync with actions := sync.actions ++ [(chunk, mapped)] }
      rootActions := v.rootActions ++ [(mapped, chunk)] }) v

/-- The masked rvalue of an assignment: the rvalue where the mask is one and, where it is zero,
the lvalue as it reads now, through the blocking substitutions. -/
def maskRvalue (lvalue rawRvalue rawMask : SigSpec) (rvalueSubs : Dict) : LowerM SigSpec :=
  if rawMask.isFullyOnes then pure rawRvalue
  else modifyGet (Module.bwmux (lvalue.replace rvalueSubs) rawRvalue rawMask)

/-- A blocking assignment enters the lvalue's new value into the substitutions; a nonblocking
one only records its bits. Either kind must not write bits the other kind has written. -/
def recordAssignment (blocking : Bool) (lvalue maskedRvalue : SigSpec) (v : Visitor) :
    LowerM Visitor :=
  if blocking then do
    let v := { v with ctx := { v.ctx with rvalueSubs := v.ctx.rvalueSubs.setAll lvalue maskedRvalue } }
    logAssert (!checkAny v.assignedNonblocking lvalue) "!assigned_nonblocking.check_any(lvalue)"
    pure { v with assignedBlocking := v.assignedBlocking ++ lvalue }
  else do
    logAssert (!checkAny v.assignedBlocking lvalue) "!assigned_blocking.check_any(lvalue)"
    pure { v with assignedNonblocking := v.assignedNonblocking ++ lvalue }

theorem recordAssignment_ok {blocking : Bool} {lvalue masked : SigSpec} {v v' : Visitor}
    {mod mod' : Module} (recorded : recordAssignment blocking lvalue masked v mod = .ok (v', mod')) :
    v'.ctx = (if blocking then { v.ctx with rvalueSubs := v.ctx.rvalueSubs.setAll lvalue masked }
      else v.ctx) ∧ v'.staging = v.staging ∧ v'.current = v.current ∧ v'.frames = v.frames := by
  cases blocking <;>
  · simp only [recordAssignment] at recorded
    obtain ⟨_, mod1, -, recorded⟩ := BuildM.ok_of_bind_ok recorded
    cases recorded
    exact ⟨rfl, rfl, rfl, rfl⟩

/-- The end of `handle(ExpressionStatement)` for an assignment: the assignment is recorded,
and the current case drives the lvalue's staging bits with the masked rvalue. -/
def assign (blocking : Bool) (lvalue maskedRvalue : SigSpec) (v : Visitor) : LowerM Visitor := do
  logAssert (lvalue.length == maskedRvalue.length) "lvalue.size() == masked_rvalue.size()"
  let v ← recordAssignment blocking lvalue maskedRvalue v
  let (staged, v) ← stagingSignal lvalue v
  pure (v.pushAction (staged, maskedRvalue))

/-- What an assignment does to the visitor: the substitutions change for a blocking one only,
and the current case gets one action, driving the lvalue's staging bits with the masked
rvalue. -/
theorem assign_ok {blocking : Bool} {lvalue masked : SigSpec} {v v' : Visitor} {mod mod' : Module}
    (assigned : assign blocking lvalue masked v mod = .ok (v', mod')) :
    v'.ctx = (if blocking then { v.ctx with rvalueSubs := v.ctx.rvalueSubs.setAll lvalue masked }
      else v.ctx) ∧
    v'.current = v.current.pushAction (lvalue.replace v'.staging, masked) ∧ v'.frames = v.frames := by
  simp only [assign] at assigned
  obtain ⟨_, mod1, -, assigned⟩ := BuildM.ok_of_bind_ok assigned
  obtain ⟨v1, mod2, recorded, assigned⟩ := BuildM.ok_of_bind_ok assigned
  obtain ⟨r, mod3, staged, assigned⟩ := BuildM.ok_of_bind_ok assigned
  cases assigned
  obtain ⟨hv, hs⟩ := stagingSignal_ok staged
  obtain ⟨hctx, -, hcur, hframes⟩ := recordAssignment_ok recorded
  rw [hv, hs]
  exact ⟨hctx, by rw [Visitor.pushAction, hcur], hframes⟩

/-- `context_enable`: a wire that the root case clears and the current case sets. -/
def contextEnable (v : Visitor) : LowerM (SigBit × Visitor) := do
  let ret ← modifyGet (Module.addWire 1)
  let bit := ret.headD (.const .Sx)
  pure (bit, { v with rootActions := v.rootActions ++ [([bit], [.const .S0])],
                      current := v.current.pushAction ([bit], [.const .S1]) })

/-! ## `SwitchBuilder` -/

/-- `SwitchBuilder`: the switch's signal, the substitutions saved when it was opened, and for
each branch so far its case and its update (the bits it changed, and what it mapped them to). -/
structure SwitchBuilder where
  signal : SigSpec
  rvalueSubsSave : Dict
  cases : List CaseRule := []
  branchUpdates : List SigSig := []

namespace SwitchBuilder

def new (rvalueSubs : Dict) (signal : SigSpec) : SwitchBuilder := ⟨signal, rvalueSubs, [], []⟩

/-- The bits whose substitution differs from the saved one, sorted. -/
def updateOf (save subs : Dict) : SigSpec :=
  SigSpec.sort ((subs.pairs.filter fun pair => save.get? pair.1 != some pair.2).map Prod.fst)

/-- `branch`: the body is lowered into a new case with the given compare values, its update
is recorded, and the substitutions are restored. -/
def branch (b : SwitchBuilder) (compare : List SigSpec) (body : Visitor → LowerM Visitor)
    (v : Visitor) : LowerM (SwitchBuilder × Visitor) := do
  let after ← body { v with current := .mk compare [] [], frames := [] }
  let update := updateOf b.rvalueSubsSave after.ctx.rvalueSubs
  let updateMap := update.replace after.ctx.rvalueSubs
  pure ({ b with cases := b.cases ++ [after.closed],
                 branchUpdates := b.branchUpdates ++ [(update, updateMap)] },
        { after with ctx := { after.ctx with rvalueSubs := b.rvalueSubsSave },
                     current := v.current, frames := v.frames })

/-- The actions `finish` adds to a branch: each chunk of its update, renamed to the fresh
wires, is driven by the matching part of the values the branch left. -/
def branchActions (subs : Dict) (update : SigSig) : List SigSig :=
  (update.1.chunks.foldl (fun (acts, done) chunk =>
    (acts ++ [(chunk.replace subs, update.2.extract done chunk.length)], done + chunk.length))
    ([], 0)).1

/-- `finish`: a fresh wire for every bit some branch updated, a default action in the parent
case giving it the value from before the switch, an action in each branch giving it the
branch's value, and the substitutions pointed at the fresh wires. Returns the switch and the
parent's new actions. -/
def finish (b : SwitchBuilder) (v : Visitor) : LowerM (SwitchRule × List SigSig × Visitor) := do
  let updatedAnybranch := SigSpec.sortAndUnify (b.branchUpdates.map Prod.fst).flatten
  let (parentActions, subs) ← (SigSpec.chunks updatedAnybranch).foldlM (fun (acts, subs) chunk => do
    let w ← modifyGet (Module.addWire chunk.length)
    pure (acts ++ [(w, chunk.replace subs)], subs.setAll chunk w)) ([], v.ctx.rvalueSubs)
  let cases := (b.cases.zip b.branchUpdates).map fun (rule, update) =>
    (branchActions subs update).foldl CaseRule.pushAction rule
  pure (.mk b.signal cases, parentActions, { v with ctx := { v.ctx with rvalueSubs := subs } })

end SwitchBuilder

/-- The end of `handle(ConditionalStatement)` and `handle(CaseStatement)`: the parent case
gets the switch and the default actions, and lowering descends into a new case under a dummy
switch of the parent. -/
def Visitor.descend (v : Visitor) (parent : CaseRule) (sw : SwitchRule)
    (parentActions : List SigSig) : Visitor :=
  { v with frames := (parentActions.foldl CaseRule.pushAction (parent.pushSwitch sw)) :: v.frames,
           current := .mk [] [] [] }

end SlangFrontend.Frontend
