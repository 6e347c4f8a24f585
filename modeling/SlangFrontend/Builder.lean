import SlangFrontend.Rtlil.Module

/-! # `RTLILBuilder`

The cell constructors of `builder.cc`. Each folds its operands when they are fully constant
and otherwise adds a cell to the canvas, except for the partial-constant shortcuts: `Sub` with
an all-ones `b`, `Demux`, `Mux`, `Bwmux` and `Bmux` with a known selector, `LogicAnd` and
`LogicOr` with a decided side, `Shift` with a constant amount, the three-valued evaluation of
`Biop`'s comparisons and `Biop`'s `$logic_and`/`$logic_or` shortcuts.

The builder runs in the state of the canvas; a failed `log_assert` stops it, like every failure
of the frontend (`Failure`).
-/

namespace SlangFrontend

open Rtlil

/-- How lowering stops: a `require` or `unimplemented` of the frontend (with the condition it
printed, if any), a failed `log_assert`, a C++ exception that the frontend turns into
`log_error` (a missing value of an optional, a non-integer constant), or, in the model only, the
recursion running out of fuel. -/
inductive Failure where
  | unimplemented (condition : Option String)
  | assertion (condition : String)
  | exception (what : String)
  | outOfFuel
  deriving DecidableEq, Repr

/-- Results of runs are compared by `decide`. -/
instance instDecidableEqExcept {ε α : Type} [DecidableEq ε] [DecidableEq α] :
    DecidableEq (Except ε α)
  | .error a, .error b => decidable_of_iff (a = b) (by simp)
  | .ok a, .ok b => decidable_of_iff (a = b) (by simp)
  | .error _, .ok _ => isFalse nofun
  | .ok _, .error _ => isFalse nofun

/-- The canvas, and failure. -/
abbrev BuildM := StateT Module (Except Failure)

/-- `log_assert(cond)`. -/
def logAssert {m : Type → Type} [Monad m] [MonadExceptOf Failure m] (cond : Bool)
    (condition : String) : m Unit :=
  if cond then pure () else throwThe Failure (.assertion condition)

/-- The frontend's `require(obj, cond)`. -/
def require {m : Type → Type} [Monad m] [MonadExceptOf Failure m] (cond : Bool)
    (condition : String) : m Unit :=
  if cond then pure () else throwThe Failure (.unimplemented (some condition))

/-- The frontend's `unimplemented(obj)`. -/
def unimplemented {m : Type → Type} [Monad m] [MonadExceptOf Failure m] {α : Type} : m α :=
  throwThe Failure (.unimplemented none)

/-! ## Running a `BuildM` computation

A computation applied to a module either fails or gives a value and the next module. These
lemmas run one step of a `do` block at a time, so that a proof about a lowering function follows
its code without unfolding the monad. -/

namespace BuildM

variable {α β : Type} {x : BuildM α} {f : α → BuildM β} {mod mod1 : Module} {a : α}

theorem bind_of_ok (ran : x mod = .ok (a, mod1)) : (x >>= f) mod = f a mod1 := by
  simp only [bind, StateT.bind, ran]
  rfl

theorem bind_of_error {e : Failure} (failed : x mod = .error e) : (x >>= f) mod = .error e := by
  simp only [bind, StateT.bind, failed]
  rfl

/-- The inversion lemma of bind: a composite that succeeds ran both parts. -/
theorem ok_of_bind_ok {b : β} {mod2 : Module} (ran : (x >>= f) mod = .ok (b, mod2)) :
    ∃ a mod1, x mod = .ok (a, mod1) ∧ f a mod1 = .ok (b, mod2) := by
  simp only [bind, StateT.bind] at ran
  cases h : x mod with
  | error e => rw [h] at ran; cases ran
  | ok p => rw [h] at ran; exact ⟨p.1, p.2, rfl, ran⟩

@[simp] theorem pure_apply : (pure a : BuildM α) mod = .ok (a, mod) := rfl

@[simp] theorem modifyGet_apply (g : Module → α × Module) :
    (modifyGet g : BuildM α) mod = .ok (g mod) := rfl

@[simp] theorem modify_apply (g : Module → Module) :
    (modify g : BuildM Unit) mod = .ok ((), g mod) := rfl

@[simp] theorem liftExcept_ok (v : α) :
    (liftM (Except.ok v : Except Failure α) : BuildM α) mod = .ok (v, mod) := rfl

@[simp] theorem liftExcept_error (e : Failure) :
    (liftM (Except.error e : Except Failure α) : BuildM α) mod = .error e := rfl

@[simp] theorem throw_apply (e : Failure) : (throw e : BuildM α) mod = .error e := rfl

@[simp] theorem modifyGet_bind (g : Module → α × Module) :
    (modifyGet g >>= f) mod = f (g mod).1 (g mod).2 := rfl

@[simp] theorem modify_bind (g : Module → Module) (k : Unit → BuildM β) :
    (modify g >>= k) mod = k () (g mod) := rfl

@[simp] theorem pure_bind_apply : (pure a >>= f) mod = f a mod := rfl

@[simp] theorem liftExcept_ok_bind (v : α) :
    (liftM (Except.ok v : Except Failure α) >>= f) mod = f v mod := rfl

end BuildM

section Checks

variable {m : Type → Type} [Monad m] [MonadExceptOf Failure m] (condition : String)

@[simp] theorem logAssert_true : (logAssert true condition : m Unit) = pure () := rfl

@[simp] theorem require_true : (require true condition : m Unit) = pure () := rfl

end Checks

/-! ## Running an `Except Failure` computation -/

section ExceptRuns

variable {α β : Type} {x : Except Failure α} {f : α → Except Failure β} {b : β}

/-- The inversion lemma of bind in `Except`. -/
theorem except_ok_of_bind_ok (ran : (x >>= f) = .ok b) : ∃ a, x = .ok a ∧ f a = .ok b := by
  cases x with
  | error e => cases ran
  | ok a => exact ⟨a, rfl, ran⟩

theorem logAssert_ok {cond : Bool} {condition : String} {u : Unit}
    (passed : (logAssert cond condition : Except Failure Unit) = .ok u) : cond = true := by
  cases cond
  · cases passed
  · rfl

theorem require_ok {cond : Bool} {condition : String} {u : Unit}
    (passed : (require cond condition : Except Failure Unit) = .ok u) : cond = true := by
  cases cond
  · cases passed
  · rfl

end ExceptRuns

namespace Builder

def reduceBool (a : SigSpec) : BuildM SigSpec :=
  if a.isFullyConst then pure (constReduceBool a.asConst 1).toSig
  else modifyGet (Module.reduceBool a)

def sub (a b : SigSpec) (isSigned : Bool) : BuildM SigSpec :=
  if b.isFullyOnes then pure a
  else if a.isFullyConst && b.isFullyConst then
    pure (constSub a.asConst b.asConst isSigned isSigned (max a.length b.length + 1)).toSig
  else modifyGet (Module.sub a b isSigned)

def demux (a s : SigSpec) : BuildM SigSpec := do
  logAssert (s.length < 24) "s.size() < 24"
  let zeropad := SigSpec.ofState .S0 a.length
  if s.isFullyConst then
    let idxConst := Const.asInt false s.asConst
    pure (SigSpec.concat [zeropad.repeat (2 ^ s.length - 1 - idxConst).toNat, a,
      zeropad.repeat idxConst.toNat])
  else modifyGet (Module.demux a s)

/-- The shape of `Le`, `Ge`, `Lt`: a one-bit fold, or a cell. -/
def compare (fold : Const → Const → Bool → Bool → Nat → Const)
    (cell : SigSpec → SigSpec → Bool → Module → SigSpec × Module)
    (a b : SigSpec) (isSigned : Bool) : BuildM SigSpec :=
  if a.isFullyConst && b.isFullyConst then pure (fold a.asConst b.asConst isSigned isSigned 1).toSig
  else modifyGet (cell a b isSigned)

def le := compare constLe Module.le
def ge := compare constGe Module.ge
def lt := compare constLt Module.lt

def eq (a b : SigSpec) : BuildM SigSpec :=
  if a.isFullyConst && b.isFullyConst then pure (constEq a.asConst b.asConst false false 1).toSig
  else modifyGet (Module.eq a b)

/-- Whether a bit of a wildcard pattern matches anything. -/
def isWildcard (bit : SigBit) : Bool := bit == .const .Sx || bit == .const .Sz

/-- `EqWildcard`: the positions where the constant `b` is `x` or `z` are removed from both
sides, from the top down, before comparing. -/
def eqWildcard (a b : SigSpec) : BuildM SigSpec := do
  logAssert (a.length == b.length) "a.size() == b.size()"
  logAssert b.isFullyConst "b.is_fully_const()"
  let kept := (a.zip b).filter fun pair => !isWildcard pair.2
  eq (kept.map Prod.fst) (kept.map Prod.snd)

def logicAnd (a b : SigSpec) : BuildM SigSpec :=
  if a.isFullyZero || b.isFullyZero then pure [.const .S0]
  else if a.isFullyDef && b.length == 1 then pure b
  else if b.isFullyDef && a.length == 1 then pure a
  else modifyGet (Module.logicAnd a b)

def logicOr (a b : SigSpec) : BuildM SigSpec :=
  if a.isFullyOnes || b.isFullyOnes then pure [.const .S1]
  else if a.isFullyZero && b.isFullyZero then pure [.const .S0]
  else modifyGet (Module.logicOr a b)

/-- `LogicNot`; the fold's width `-1` gives one bit. -/
def logicNot (a : SigSpec) : BuildM SigSpec :=
  if a.isFullyConst then pure (constLogicNot a.asConst 1).toSig
  else modifyGet (Module.logicNot a)

def mux (a b s : SigSpec) : BuildM SigSpec := do
  logAssert (a.length == b.length) "a.size() == b.size()"
  logAssert (s.length == 1) "s.size() == 1"
  if s.head? == some (.const .S0) then pure a
  else if s.head? == some (.const .S1) then pure b
  else modifyGet (Module.mux a b s)

def bwmux (a b s : SigSpec) : BuildM SigSpec := do
  logAssert (a.length == b.length) "a.size() == b.size()"
  logAssert (a.length == s.length) "a.size() == s.size()"
  if s.isFullyConst then
    pure (List.zipWith3 (fun x y sel =>
      if sel == .const .S0 then x else if sel == .const .S1 then y else .const .Sx) a b s)
  else modifyGet (Module.bwmux a b s)

/-- `Shift`: a fold, the rewired slice for a constant amount of fewer than 24 bits, or a
`$shift` cell. -/
def shift (a : SigSpec) (aSigned : Bool) (b : SigSpec) (bSigned : Bool) (resultWidth : Nat) :
    BuildM SigSpec := do
  if a.isFullyConst && b.isFullyConst then
    return (constShift a.asConst b.asConst aSigned bSigned resultWidth).toSig
  if b.isFullyConst && b.length < 24 then
    logAssert (!a.isEmpty) "!a.empty()"
    let shiftAmount := Const.asInt bSigned b.asConst
    return (List.range resultWidth).map fun j =>
      let i := shiftAmount + j
      if aSigned && (a.length : Int) ≤ i then a.msb
      else if (a.length : Int) ≤ i || i < 0 then .const .S0
      else a.getD i.toNat (.const .Sx)
  modifyGet (Module.emit .shift a b [] aSigned bSigned resultWidth)

def shiftx (a s : SigSpec) (sSigned : Bool) (resultWidth : Nat) : BuildM SigSpec :=
  if a.isFullyConst && s.isFullyConst then
    pure (constShiftx a.asConst s.asConst sSigned resultWidth).toSig
  else modifyGet (Module.emit .shiftx a s [] sSigned sSigned resultWidth)

def neg (a : SigSpec) (signed : Bool) : BuildM SigSpec :=
  if a.isFullyConst then pure (constSub [.S0] a.asConst true signed (a.length + 1)).toSig
  else modifyGet (Module.emit .neg a [] [] signed false (a.length + 1))

def bmux (a s : SigSpec) : BuildM SigSpec := do
  logAssert (a.length % 2 ^ s.length == 0) "a.size() % (1 << s.size()) == 0"
  logAssert (2 ^ s.length ≤ a.length) "a.size() >= 1 << s.size()"
  let stride := a.length / 2 ^ s.length
  if s.isFullyDef then pure (a.extract ((Const.asInt false s.asConst).toNat * stride) stride)
  else modifyGet (Module.bmux a s)

/-- `Not`; the fold's width `-1` keeps the width of `a`. -/
def «not» (a : SigSpec) : BuildM SigSpec :=
  if a.isFullyConst then pure (constNot a.asConst false a.length).toSig
  else modifyGet (Module.not a)

end Builder

/-! ## Three-valued logic

Literals are `1` (true), `-1` (false) and `0` (unknown), as in `namespace ThreeValued`. -/

namespace ThreeValued

def AND (a b : Int) : Int := if a < 0 || b < 0 then -1 else if 0 < a && 0 < b then 1 else 0

def NOT (lit : Int) : Int := -lit

def OR (a b : Int) : Int := NOT (AND (NOT a) (NOT b))

def XOR (a b : Int) : Int := OR (AND a (NOT b)) (AND (NOT a) b)

def XNOR (a b : Int) : Int := NOT (OR (AND a (NOT b)) (AND (NOT a) b))

def CARRY (a b c : Int) : Int :=
  if 0 < c then OR a b
  else if c < -1 then AND a b
  else OR (AND a b) (AND c (OR a b))

def convert (bit : SigBit) : Int :=
  if bit == .const .S1 then 1 else if bit == .const .S0 then -1 else 0

end ThreeValued

namespace Builder

open ThreeValued in
/-- The carry chain of `Biop` for `$le`, `$lt`, `$gt`, `$ge`: the operands are extended to
the wider width by their signedness, swapped for `$gt` and `$ge`, and the carry of `a + ~b`
(plus one for `$lt` and `$gt`) is taken over all bits but the top one, whose sum bit is the
result. The loop keeps `carry`, `al` and `bl`. -/
def compareChain (op : CellType) (a b : SigSpec) (aSigned bSigned : Bool) : Int :=
  let width := max a.length b.length
  let init : Int × Int × Int := (if op == .le || op == .ge then -1 else 1, 0, 0)
  let (carry, al, bl) := (List.range width).foldl (fun (carry, _, _) i =>
    let abit := if i < a.length then a.getD i (.const .Sx)
      else if aSigned then a.msb else .const .S0
    let bbit := if i < b.length then b.getD i (.const .Sx)
      else if bSigned then b.msb else .const .S0
    let (al, bl) := if op == .gt || op == .ge then (convert bbit, convert abit)
      else (convert abit, convert bbit)
    (if i != width - 1 then CARRY al (NOT bl) carry else carry, al, bl)) init
  XOR carry (XNOR al bl)

/-- The fold of `Biop` for two fully constant operands, for the operators it lists. -/
def biopFold : CellType → Option (Const → Const → Bool → Bool → Nat → Const)
  | .add => some constAdd
  | .sub => some constSub
  | .mul => some constMul
  | .divfloor => some constDivfloor
  | .div => some constDiv
  | .mod => some constMod
  | .and => some constAnd
  | .or => some constOr
  | .xor => some constXor
  | .xnor => some constXnor
  | .eq => some constEq
  | .ne => some constNe
  | .nex => some constNex
  | .eqx => some constEqx
  | .ge => some constGe
  | .gt => some constGt
  | .le => some constLe
  | .lt => some constLt
  | .logicAnd => some fun a b _ _ len => constLogicAnd a b len
  | .logicOr => some fun a b _ _ len => constLogicOr a b len
  | .sshl => some fun a b s _ len => constSshl a b s len
  | .sshr => some fun a b s _ len => constSshr a b s len
  | .shl => some fun a b s _ len => constShl a b s len
  | .shr => some fun a b s _ len => constShr a b s len
  | .pow => some constPow
  | _ => none

/-- `SigSpec::as_bool()`: some bit is one. -/
def asBool (a : SigSpec) : Bool := a.any (· == .const .S1)

/-- `Biop`: the constant fold, the comparison chain, the `$logic_and`/`$logic_or`
shortcuts, or a cell. -/
def biop (op : CellType) (a b : SigSpec) (aSigned bSigned : Bool) (yWidth : Nat) :
    BuildM SigSpec := do
  if a.isFullyConst && b.isFullyConst then
    if let some fold := biopFold op then
      return (fold a.asConst b.asConst aSigned bSigned yWidth).toSig
  if (op == .le || op == .lt || op == .gt || op == .ge) && !a.isEmpty && !b.isEmpty then
    let result := compareChain op a b aSigned bSigned
    if result < 0 then return SigSpec.ofState .S0 yWidth
    if 0 < result then return SigSpec.extendU0 [.const .S1] yWidth
  if op == .logicAnd && (a.isFullyZero || b.isFullyZero) then
    return SigSpec.ofState .S0 yWidth
  if op == .logicOr && ((a.isFullyConst && asBool a) || (b.isFullyConst && asBool b)) then
    return SigSpec.extendU0 [.const .S1] yWidth
  modifyGet (Module.emit op a b [] aSigned bSigned yWidth)

end Builder

end SlangFrontend
