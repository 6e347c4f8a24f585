import SlangFrontend.Ast
import Mathlib.Algebra.BigOperators.Group.List

/-! # Constants and lvalues

`svint_const` and `const_const`, which turn slang's constants into RTLIL constants,
`evaluate_lhs`, which turns an assignment target into the wire bits it designates, and the
helpers the lowering shares: reading a constant as an `int` the way
`constant->integer().as<int>().value()` does, and `SigSpec::extract` with the assertions it
makes on its arguments.
-/

namespace SlangFrontend.Frontend

open Rtlil Ast

/-- `svint_const`. -/
def svintConst (v : SVInt) : Const :=
  v.bits.map fun
    | .zero => .S0
    | .one => .S1
    | .x => .Sx
    | .z => .Sz

@[simp] theorem length_svintConst (v : SVInt) : (svintConst v).length = v.bits.length :=
  List.length_map _ _

theorem toInt?_svintConst (v : SVInt) : Const.toInt? v.signed (svintConst v) = v.toInt? := by
  obtain ⟨bits, signed⟩ := v
  have digits : Const.toNat? (svintConst ⟨bits, signed⟩) =
      bits.foldr (fun b acc => match b, acc with
        | .zero, some n => some (2 * n)
        | .one, some n => some (2 * n + 1)
        | _, _ => none) (some 0) := by
    induction bits with
    | nil => rfl
    | cons b bits ih =>
      simp only [svintConst, List.map_cons, List.foldr_cons] at ih ⊢
      rw [← ih]
      cases b <;> simp [Const.toNat?] <;> cases Const.toNat? _ <;> rfl
  have top : ((svintConst ⟨bits, signed⟩).getLast? == some .S1) = (bits.getLast? == some .one) := by
    simp only [svintConst, List.getLast?_map]
    cases bits.getLast? with
    | none => rfl
    | some b => cases b <;> rfl
  rw [Const.toInt?, digits, top, length_svintConst]
  rfl

/-- The bits of a string constant (`convertToInt()`): eight per character, the last character
least significant. -/
def stringBits (s : String) : Const :=
  (s.toList.reverse.map fun c => Const.ofNat 8 c.toNat).flatten

theorem length_stringBits (s : String) : (stringBits s).length = 8 * s.length := by
  simp only [stringBits, List.length_flatten, List.map_map, Function.comp_def, Const.length_ofNat,
    List.map_const', List.sum_const_nat, List.length_reverse, String.length,
    String.toList, Nat.mul_comm]

mutual
/-- `const_const`: an unpacked value puts each element in front of (below) the ones before
it, so that the element of the left bound ends up most significant. -/
def constConst : ConstantValue → Except Failure Const
  | .integer v => pure (svintConst v)
  | .unpacked elements => do
    let ret ← constConstElements [] elements
    logAssert (ret.length == (ConstantValue.unpacked elements).bitstreamWidth)
      "ret.size() == constval.getBitstreamWidth()"
    pure ret
  | .string s => pure (stringBits s)
  | .other => throw (.assertion "!constval.isReal()")

/-- The loop of `const_const` over the elements, `ret.bits.insert(ret.bits.begin(), ...)`. -/
def constConstElements (ret : Const) : List ConstantValue → Except Failure Const
  | [] => pure ret
  | element :: elements => do
    let piece ← constConst element
    constConstElements (piece ++ ret) elements
end

/-- `constant->integer()`: the integer of a constant, an exception for any other value. -/
def constantInteger : ConstantValue → Except Failure SVInt
  | .integer v => pure v
  | _ => throw (.exception "bad_variant_access")

/-- `constant->integer().as<int>().value()`. -/
def constantInt (constant : Option ConstantValue) : Except Failure Int := do
  let some c := constant | throw (.exception "bad_optional_access")
  let v ← constantInteger c
  match v.asInt with
  | some n => pure n
  | none => throw (.exception "bad_optional_access")

theorem constantInt_ok {v : SVInt} {n : Int} (read : constantInt (some (.integer v)) = .ok n) :
    v.toInt? = some n := by
  simp only [constantInt, constantInteger, SVInt.asInt] at read
  cases known : v.toInt? with
  | none => simp [known] at read
  | some m =>
    simp only [pure_bind, known, Option.some_bind] at read
    by_cases fits : -2 ^ 31 ≤ m ∧ m < 2 ^ 31
    · rw [if_pos fits] at read
      exact congrArg some (Except.ok.inj read)
    · rw [if_neg fits] at read
      cases read

/-- `SigSpec::extract(offset, length)` with its assertions. -/
def extractChecked (s : SigSpec) (offset length : Int) : Except Failure SigSpec := do
  logAssert (0 ≤ offset) "offset >= 0"
  logAssert (0 ≤ length) "length >= 0"
  logAssert (offset + length ≤ s.length) "offset + length <= width_"
  pure (s.extract offset.toNat length.toNat)

theorem extractChecked_ok {s r : SigSpec} {offset length : Int}
    (extracted : extractChecked s offset length = .ok r) :
    r = s.extract offset.toNat length.toNat ∧ 0 ≤ offset ∧ 0 ≤ length ∧ offset + length ≤ s.length := by
  simp only [extractChecked] at extracted
  obtain ⟨_, first, extracted⟩ := except_ok_of_bind_ok extracted
  obtain ⟨_, second, extracted⟩ := except_ok_of_bind_ok extracted
  obtain ⟨_, third, extracted⟩ := except_ok_of_bind_ok extracted
  cases extracted
  exact ⟨rfl, by simpa using logAssert_ok first, by simpa using logAssert_ok second,
    by simpa using logAssert_ok third⟩

theorem extractChecked_of_le {s : SigSpec} {offset length : Int} (nonneg : 0 ≤ offset)
    (positive : 0 ≤ length) (fits : offset + length ≤ s.length) :
    extractChecked s offset length = .ok (s.extract offset.toNat length.toNat) := by
  simp [extractChecked, nonneg, positive, fits]
  rfl

/-- The checks of `extract` read only the width of the signal. -/
theorem extractChecked_of_length {s s' r : SigSpec} {offset length : Int}
    (extracted : extractChecked s offset length = .ok r) (same : s'.length = s.length) :
    extractChecked s' offset length = .ok (s'.extract offset.toNat length.toNat) := by
  obtain ⟨-, first, second, third⟩ := extractChecked_ok extracted
  simp [extractChecked, first, second, same, third]
  rfl

/-- The assertions every case of `evaluate_lhs` and `evaluate_rhs` ends with. -/
def checkWidth (type : SvType) (ret : SigSpec) : Except Failure SigSpec := do
  logAssert type.isFixedSize "expr.type->isFixedSize()"
  logAssert (ret.length == type.bitstreamWidth)
    "ret.size() == (int) expr.type->getBitstreamWidth()"
  pure ret

theorem checkWidth_of {type : SvType} {ret : SigSpec} (fixed : type.isFixedSize)
    (width : ret.length = type.bitstreamWidth) : checkWidth type ret = .ok ret := by
  simp [checkWidth, fixed, width]
  rfl

theorem checkWidth_ok {type : SvType} {ret r : SigSpec} (checked : checkWidth type ret = .ok r) :
    r = ret ∧ type.isFixedSize ∧ ret.length = type.bitstreamWidth := by
  simp only [checkWidth] at checked
  obtain ⟨_, fixed, checked⟩ := except_ok_of_bind_ok checked
  obtain ⟨_, width, checked⟩ := except_ok_of_bind_ok checked
  cases checked
  exact ⟨rfl, logAssert_ok fixed, by simpa using logAssert_ok width⟩

/-- The stride and translated bounds of a simple range select `value[left:right]`. -/
def rangeSelectBounds (value left right : Expr) : Except Failure (Int × Int × Nat) := do
  require (left.constant.isSome && right.constant.isSome)
    "sel.left().constant && sel.right().constant"
  let l ← constantInt left.constant
  let r ← constantInt right.constant
  require value.type.hasFixedRange "sel.value().type->hasFixedRange()"
  let range := value.type.fixedRange
  logAssert (value.type.bitstreamWidth % range.width == 0)
    "sel.value().type->getBitstreamWidth() % range.width() == 0"
  pure (range.translateIndex l, range.translateIndex r, value.type.bitstreamWidth / range.width)

mutual
/-- `evaluate_lhs`. -/
def evaluateLhs : Expr → Except Failure SigSpec
  | .namedValue type _ symbol =>
    checkWidth type (Module.wire symbol.id symbol.type.bitstreamWidth)
  | .rangeSelect type _ kind value left right => do
    require (kind == .simple) "sel.getSelectionKind() == ast::RangeSelectionKind::Simple"
    let (rawLeft, rawRight, stride) ← rangeSelectBounds value left right
    let base ← evaluateLhs value
    checkWidth type (← extractChecked base (rawRight * stride) (stride * (rawLeft - rawRight + 1)))
  | .concatenation type _ operands => do checkWidth type (← evaluateLhsConcat [] operands)
  | .elementSelect type _ value selector => do
    require selector.constant.isSome "elemsel.selector().constant"
    require (value.type.isArray && value.type.hasFixedRange)
      "elemsel.value().type->isArray() && elemsel.value().type->hasFixedRange()"
    let idx ← constantInt selector.constant
    let stride := type.bitstreamWidth
    let rawIdx := value.type.fixedRange.translateIndex idx
    let base ← evaluateLhs value
    checkWidth type (← extractChecked base (stride * rawIdx) stride)
  | .memberAccess type _ value member => do
    require member.isField "acc.member.kind == ast::SymbolKind::Field"
    require member.randModeNone "member.randMode == ast::RandMode::None"
    let base ← evaluateLhs value
    extractChecked base member.bitOffset type.bitstreamWidth
  | _ => unimplemented

/-- The loop of a concatenation: each operand goes below the ones before it. -/
def evaluateLhsConcat (ret : SigSpec) : List Expr → Except Failure SigSpec
  | [] => pure ret
  | operand :: operands => do
    let bits ← evaluateLhs operand
    evaluateLhsConcat (bits ++ ret) operands
end

section Equations

variable {type : SvType} {value : Expr}

theorem evaluateLhs_namedValue {symbol : Symbol} :
    evaluateLhs (.namedValue type none symbol) =
      checkWidth type (Module.wire symbol.id symbol.type.bitstreamWidth) := rfl

theorem evaluateLhs_rangeSelect {kind : RangeSelectionKind} {left right : Expr} :
    evaluateLhs (.rangeSelect type none kind value left right) = (do
      require (kind == .simple) "sel.getSelectionKind() == ast::RangeSelectionKind::Simple"
      let (rawLeft, rawRight, stride) ← rangeSelectBounds value left right
      let base ← evaluateLhs value
      checkWidth type (← extractChecked base (rawRight * stride) (stride * (rawLeft - rawRight + 1)))) :=
  rfl

theorem evaluateLhs_elementSelect {selector : Expr} :
    evaluateLhs (.elementSelect type none value selector) = (do
      require selector.constant.isSome "elemsel.selector().constant"
      require (value.type.isArray && value.type.hasFixedRange)
        "elemsel.value().type->isArray() && elemsel.value().type->hasFixedRange()"
      let idx ← constantInt selector.constant
      let base ← evaluateLhs value
      checkWidth type (← extractChecked base
        (type.bitstreamWidth * value.type.fixedRange.translateIndex idx) type.bitstreamWidth)) :=
  rfl

theorem evaluateLhs_memberAccess {member : Member} :
    evaluateLhs (.memberAccess type none value member) = (do
      require member.isField "acc.member.kind == ast::SymbolKind::Field"
      require member.randModeNone "member.randMode == ast::RandMode::None"
      let base ← evaluateLhs value
      extractChecked base member.bitOffset type.bitstreamWidth) := rfl

theorem evaluateLhs_concatenation {operands : List Expr} :
    evaluateLhs (.concatenation type none operands) =
      (do checkWidth type (← evaluateLhsConcat [] operands)) := rfl

end Equations

end SlangFrontend.Frontend
