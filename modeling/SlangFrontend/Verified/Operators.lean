import SlangFrontend.Semantics.Expr
import SlangFrontend.Frontend.Lower

/-! # The cells of the operators

`evaluate_rhs` lowers an operator to the cell `unaryCellType` or `binaryCellType` names, with
the result width of the expression's type and the operands' signedness. On operands of the widths
slang gives them, that cell computes the operator's meaning of clause 11
(`SlangFrontend.Semantics`): `unaryCell_eval` and `binaryCell_eval`, for the operators that
`UnaryFits` and `BinaryFits` list with their widths. The folds of Yosys read a bit `z` as `x`,
as clause 11 does, so the cells agree on every four-state operand.

The conditional operator is a `$reduce_bool` of the condition and a `$mux`. Where the condition is
unknown the `$mux` keeps the bits on which both alternatives agree, a `z` included, while
clause 11.4.11 turns an agreeing `z` into `x`; the two agree on values without `z`
(`constMux_truth`). A conversion is `extend_u0` with the target's signedness, which is the
source's wherever it pads (`resize_eq_extendU0`).
-/

namespace SlangFrontend.Verified.Operators

open Rtlil Ast Frontend Semantics

/-! ## Reductions and truth values -/

private theorem land_flags (b : State) (p q : Bool) :
    (if (b == .S0 || p) = true then State.S0
      else if (decide (b ∈ [State.S1]) && q) = true then .S1 else .Sx) =
      State.land b (if p = true then .S0 else if q = true then .S1 else .Sx) := by
  cases b <;> cases p <;> cases q <;> rfl

private theorem lor_flags (b : State) (p q : Bool) :
    (if (b == .S1 || p) = true then State.S1
      else if (decide (b ∈ [State.S0]) && q) = true then .S0 else .Sx) =
      State.lor b (if p = true then .S1 else if q = true then .S0 else .Sx) := by
  cases b <;> cases p <;> cases q <;> rfl

theorem reduceAnd_cons (b : State) (v : Const) : reduceAnd (b :: v) = State.land b (reduceAnd v) := by
  simp only [reduceAnd, allIn, List.any_cons, List.all_cons]
  exact land_flags b _ _

theorem reduceOr_cons (b : State) (v : Const) : reduceOr (b :: v) = State.lor b (reduceOr v) := by
  simp only [reduceOr, allIn, List.any_cons, List.all_cons]
  exact lor_flags b _ _

/-- `logic_reduce_wrapper` folding `&` from any accumulator that is not `z`. -/
theorem foldl_land {acc : State} (v : Const) (driven : acc ≠ .Sz) :
    v.foldl State.land acc = State.land acc (reduceAnd v) := by
  induction v generalizing acc with
  | nil => cases acc <;> first | rfl | exact absurd rfl driven
  | cons b v ih =>
    rw [List.foldl_cons, ih (by cases acc <;> cases b <;> decide), reduceAnd_cons]
    generalize reduceAnd v = r
    cases acc <;> cases b <;> cases r <;> rfl

theorem foldl_lor {acc : State} (v : Const) (driven : acc ≠ .Sz) :
    v.foldl State.lor acc = State.lor acc (reduceOr v) := by
  induction v generalizing acc with
  | nil => cases acc <;> first | rfl | exact absurd rfl driven
  | cons b v ih =>
    rw [List.foldl_cons, ih (by cases acc <;> cases b <;> decide), reduceOr_cons]
    generalize reduceOr v = r
    cases acc <;> cases b <;> cases r <;> rfl

theorem reduceOr_ne (v : Const) : reduceOr v ≠ .Sz := by
  unfold reduceOr; split_ifs <;> decide

theorem reduceAnd_ne (v : Const) : reduceAnd v ≠ .Sz := by
  unfold reduceAnd; split_ifs <;> decide

/-- `const_reduce_and` folds from one. -/
theorem foldl_land_one (v : Const) : v.foldl State.land .S1 = reduceAnd v := by
  rw [foldl_land v (by decide)]
  have := reduceAnd_ne v
  generalize reduceAnd v = r at this ⊢
  cases r <;> first | rfl | exact absurd rfl this

/-- `const_reduce_or` folds from zero. -/
theorem foldl_lor_zero (v : Const) : v.foldl State.lor .S0 = reduceOr v := by
  rw [foldl_lor v (by decide)]
  have := reduceOr_ne v
  generalize reduceOr v = r at this ⊢
  cases r <;> first | rfl | exact absurd rfl this

/-- The truth value `const_logic_*` reads is that of 11.4.7. -/
theorem truth_eq (a : Const) : Const.truth a = truth a := foldl_lor_zero a

/-! ## Equality -/

private theorem eq_flags (x y : State) (p q r : Bool) :
    (if (x.isDef && y.isDef && x != y || p) = true then State.S0
      else if ((decide (x ∈ [State.S0, State.S1]) && q) && (decide (y ∈ [State.S0, State.S1]) && r)) = true
        then .S1 else .Sx) =
    if (x.isDef && y.isDef && x != y) = true then .S0
    else if (x.isDef && y.isDef) = true then (if p = true then .S0 else if (q && r) = true then .S1 else .Sx)
    else if (if p = true then State.S0 else if (q && r) = true then .S1 else .Sx) = .S0 then .S0 else .Sx := by
  cases x <;> cases y <;> cases p <;> cases q <;> cases r <;> rfl

theorem logicEq_cons (x y : State) (a b : Const) : logicEq (x :: a) (y :: b) =
    if x.isDef && y.isDef && x != y then .S0
    else if x.isDef && y.isDef then logicEq a b
    else if logicEq a b = .S0 then .S0 else .Sx := by
  simp only [logicEq, allIn, List.zip_cons_cons, List.any_cons, List.all_cons]
  exact eq_flags x y _ _ _

/-- The bit-serial verdict of `const_eq` is the equality of 11.4.5. -/
theorem eqBits_eq_logicEq : ∀ {a b : Const}, a.length = b.length → eqBits a b = logicEq a b
  | [], [], _ => rfl
  | x :: a, y :: b, same => by
    rw [logicEq_cons, eqBits, eqBits_eq_logicEq (Nat.succ.inj same)]
    generalize logicEq a b = r
    cases x <;> cases y <;> cases r <;> rfl

/-! ## Operands of the result width -/

@[simp] theorem extendU0_length_self (c : Const) (signed : Bool) :
    Const.extendU0 c c.length signed = c := by
  simp [Const.extendU0]

theorem extendU0_of_length {c : Const} {width : Nat} (length : c.length = width) (signed : Bool) :
    Const.extendU0 c width signed = c :=
  length ▸ extendU0_length_self c signed

theorem constBitwise_of_length (f : State → State → State) {a b : Const} {width : Nat}
    (lenA : a.length = width) (lenB : b.length = width) (signed1 signed2 : Bool) :
    constBitwise f a b signed1 signed2 width = List.zipWith f a b := by
  rw [constBitwise, extendU0_of_length lenA, extendU0_of_length lenB]

theorem ofInt_emod {width : Nat} {v v' : Int} (same : v % 2 ^ width = v' % 2 ^ width) :
    Const.ofInt width v = Const.ofInt width v' := by
  rw [Const.ofInt, Const.ofInt, same]

/-- Read signed or not, a defined value is its unsigned value modulo `2 ^ width`. -/
theorem toInt?_emod (signed : Bool) {c : Const} {n : Nat} (read : Const.toNat? c = some n) :
    ∃ v, Const.toInt? signed c = some v ∧ v % 2 ^ c.length = n % 2 ^ c.length := by
  refine ⟨_, by rw [Const.toInt?, read]; rfl, ?_⟩
  dsimp only
  split
  · rw [Int.sub_emod, Int.emod_self, Int.sub_zero, Int.emod_emod]
  · rfl

/-- An arithmetic fold on operands of the result width: the operation on the two's complement
readings and on the unsigned ones agree modulo `2 ^ width`, as long as it respects congruence. -/
theorem constArith_eq_arith (g : Int → Int → Int)
    (respects : ∀ {m x x' y y' : Int}, x % m = x' % m → y % m = y' % m → g x y % m = g x' y' % m)
    {a b : Const} {width : Nat} (lenA : a.length = width) (lenB : b.length = width) (signed : Bool) :
    constArith (fun x y => some (g x y)) a b signed signed width = arith (fun x y => g x y) width a b := by
  unfold constArith arith
  cases readA : Const.toNat? a with
  | none => simp [Const.toInt?, readA]
  | some n =>
    cases readB : Const.toNat? b with
    | none => simp [Const.toInt?, readA, readB]
    | some m =>
      obtain ⟨x, hx, ex⟩ := toInt?_emod signed readA
      obtain ⟨y, hy, ey⟩ := toInt?_emod signed readB
      rw [hx, hy, lenA] at *
      rw [lenB] at ey
      exact ofInt_emod (respects ex ey)

/-! ## The operators -/

/-- The unary operators `evaluate_rhs` lowers to a single cell, with the result width slang
gives them: `~` keeps its operand's width, `&`, `|` and `!` give one bit. (`~&` and `~|` are
lowered through an inverting cell whose output is never read.) -/
def UnaryFits : UnaryOperator → Nat → Nat → Prop
  | .bitwiseNot, result, operand => result = operand
  | .bitwiseAnd, result, _ | .bitwiseOr, result, _ | .logicalNot, result, _ => result = 1
  | _, _, _ => False

/-- The binary operators `evaluate_rhs` lowers to a cell with the meaning of clause 11, with the
widths slang gives them: the arithmetic and bitwise operators work on operands of the result's
width, the equalities compare operands of one width and give one bit, and the logical
operators give one bit. Division is not among them: `$divfloor` rounds a signed quotient down,
where `/` rounds it toward zero. -/
def BinaryFits : BinaryOperator → Nat → Nat → Nat → Prop
  | .add, result, left, right | .subtract, result, left, right | .multiply, result, left, right
  | .mod, result, left, right | .binaryAnd, result, left, right | .binaryOr, result, left, right
  | .binaryXor, result, left, right | .binaryXnor, result, left, right =>
    left = result ∧ right = result
  | .equality, result, left, right | .inequality, result, left, right => result = 1 ∧ left = right
  | .logicalAnd, result, _, _ | .logicalOr, result, _, _ => result = 1
  | _, _, _, _ => False

theorem lnot_ne (b : State) : State.lnot b ≠ .Sz := by cases b <;> decide

theorem zipWith_ne {f : State → State → State} (never : ∀ x y, f x y ≠ .Sz) (a b : Const) :
    State.Sz ∉ List.zipWith f a b := by
  rw [← List.map_uncurry_zip_eq_zipWith, List.mem_map]
  rintro ⟨⟨x, y⟩, -, made⟩
  exact never x y made

theorem ofInt_ne (width : Nat) (v : Int) : State.Sz ∉ Const.ofInt width v := by
  suffices ∀ width n, State.Sz ∉ Const.ofNat width n from this _ _
  intro width
  induction width with
  | zero => simp [Const.ofNat]
  | succ width ih => intro n; simp [Const.ofNat, State.ofBool, ih]; split <;> decide

theorem arith_ne (f : Nat → Nat → Int) (width : Nat) (a b : Const) : State.Sz ∉ arith f width a b := by
  unfold arith
  split
  · exact ofInt_ne _ _
  · simp

@[simp] theorem length_arith (f : Nat → Nat → Int) (width : Nat) (a b : Const) :
    (arith f width a b).length = width := by
  unfold arith; split <;> simp

theorem divide_ne (f : Int → Int → Int) (width : Nat) (signed : Bool) (a b : Const) :
    State.Sz ∉ divide f width signed a b := by
  unfold divide
  split
  · split
    · simp
    · exact ofInt_ne _ _
  · simp

/-- `%` is `$mod`: both take the remainder of the operands, read with the signedness they share,
with the dividend's sign, and give `x` for a zero divisor. -/
theorem divide_tmod_eq_constMod (width : Nat) (signed : Bool) (a b : Const) :
    divide Int.tmod width signed a b = constMod a b signed signed width := by
  unfold divide constMod constArith
  cases Const.toInt? signed a <;> cases Const.toInt? signed b <;> try rfl
  dsimp only
  split <;> rfl

/-- The cell of a unary operator computes the operator on an operand of the width slang gives
it. -/
theorem unaryCell_eval {op : UnaryOperator} {width operandWidth : Nat}
    (fits : UnaryFits op width operandWidth) :
    ∃ cellType, unaryCellType op = some (cellType, false) ∧
      ∀ (a : Const) (signed : Bool), a.length = operandWidth →
        unaryValue op a = some (cellType.eval a [] [] signed false width) ∧
        (cellType.eval a [] [] signed false width).length = width := by
  cases op <;> simp only [UnaryFits] at fits <;> subst fits
  case bitwiseNot =>
    exact ⟨.not, rfl, fun a signed length =>
      ⟨by rw [CellType.eval, constNot, extendU0_of_length length]; rfl, by simp [CellType.eval, constNot]⟩⟩
  case bitwiseAnd =>
    exact ⟨.reduceAnd, rfl, fun a _ _ =>
      ⟨by simp [unaryValue, CellType.eval, constReduceAnd, constReduce, Const.bitResult, foldl_land_one],
        by simp [CellType.eval, constReduceAnd, constReduce]⟩⟩
  case bitwiseOr =>
    exact ⟨.reduceOr, rfl, fun a _ _ =>
      ⟨by simp [unaryValue, CellType.eval, constReduceOr, constReduce, Const.bitResult, foldl_lor_zero],
        by simp [CellType.eval, constReduceOr, constReduce]⟩⟩
  case logicalNot =>
    exact ⟨.logicNot, rfl, fun a _ _ =>
      ⟨by simp [unaryValue, CellType.eval, constLogicNot, Const.bitResult, truth_eq],
        by simp [CellType.eval, constLogicNot]⟩⟩

/-- No operator of `UnaryFits` gives a bit `z`, whatever its operand. -/
theorem unaryValue_ne {op : UnaryOperator} {width operandWidth : Nat}
    (fits : UnaryFits op width operandWidth) {a v : Const} (computes : unaryValue op a = some v) :
    State.Sz ∉ v := by
  cases op <;> simp only [UnaryFits] at fits <;>
    simp only [unaryValue, Option.some.injEq] at computes <;> subst computes
  case bitwiseNot => simp [lnot_ne]
  case bitwiseAnd => simp [(reduceAnd_ne a).symm]
  case bitwiseOr => simp [(reduceOr_ne a).symm]
  case logicalNot => simp [(lnot_ne _).symm]

theorem logicEq_ne (a b : Const) : logicEq a b ≠ .Sz := by
  simp only [logicEq]; split_ifs <;> decide

theorem land_ne (x y : State) : State.land x y ≠ .Sz := by cases x <;> cases y <;> decide

theorem lor_ne (x y : State) : State.lor x y ≠ .Sz := by cases x <;> cases y <;> decide

theorem lxor_ne (x y : State) : State.lxor x y ≠ .Sz := by cases x <;> cases y <;> decide

theorem lxnor_ne (x y : State) : State.lxnor x y ≠ .Sz := by cases x <;> cases y <;> decide

section Congruence

variable {m x x' y y' : Int} (hx : x % m = x' % m) (hy : y % m = y' % m)
include hx hy

theorem add_emod_congr : (x + y) % m = (x' + y') % m := by
  rw [Int.add_emod, hx, hy, ← Int.add_emod]

theorem sub_emod_congr : (x - y) % m = (x' - y') % m := by
  rw [Int.sub_emod, hx, hy, ← Int.sub_emod]

theorem mul_emod_congr : (x * y) % m = (x' * y') % m := by
  rw [Int.mul_emod, hx, hy, ← Int.mul_emod]

end Congruence

/-- The cell of a binary operator, with the signedness `evaluate_rhs` gives it, computes the
operator on operands of the widths slang gives them. -/
theorem binaryCell_eval {op : BinaryOperator} {width leftWidth rightWidth : Nat}
    (fits : BinaryFits op width leftWidth rightWidth) :
    ∃ cellType, binaryCellType op = some cellType ∧
      (∀ aSigned bSigned, binarySignedness cellType aSigned bSigned = (aSigned, bSigned)) ∧
      ∀ (a b : Const) (aSigned bSigned : Bool), a.length = leftWidth → b.length = rightWidth →
        binaryValue width (aSigned && bSigned) op a b = some (cellType.eval a b [] aSigned bSigned width) ∧
        (cellType.eval a b [] aSigned bSigned width).length = width := by
  cases op <;> simp only [BinaryFits] at fits
  case add =>
    obtain ⟨rfl, rfl⟩ := fits
    refine ⟨.add, rfl, fun _ _ => rfl, fun a b aSigned bSigned lenA lenB => ?_⟩
    rw [CellType.eval, constAdd, constArith_eq_arith (· + ·) add_emod_congr lenA lenB]
    exact ⟨rfl, length_arith _ _ _ _⟩
  case subtract =>
    obtain ⟨rfl, rfl⟩ := fits
    refine ⟨.sub, rfl, fun _ _ => rfl, fun a b aSigned bSigned lenA lenB => ?_⟩
    rw [CellType.eval, constSub, constArith_eq_arith (· - ·) sub_emod_congr lenA lenB]
    exact ⟨rfl, length_arith _ _ _ _⟩
  case multiply =>
    obtain ⟨rfl, rfl⟩ := fits
    refine ⟨.mul, rfl, fun _ _ => rfl, fun a b aSigned bSigned lenA lenB => ?_⟩
    rw [CellType.eval, constMul, constArith_eq_arith (· * ·) mul_emod_congr lenA lenB]
    exact ⟨rfl, length_arith _ _ _ _⟩
  case mod =>
    obtain ⟨rfl, rfl⟩ := fits
    exact ⟨.mod, rfl, fun _ _ => rfl, fun a b aSigned bSigned _ _ =>
      ⟨congrArg some (divide_tmod_eq_constMod _ _ a b), length_constArith _ _ _ _ _ _⟩⟩
  case binaryAnd =>
    obtain ⟨rfl, rfl⟩ := fits
    refine ⟨.and, rfl, fun _ _ => rfl, fun a b aSigned bSigned lenA lenB => ?_⟩
    rw [CellType.eval, constAnd, constBitwise_of_length _ lenA lenB]
    exact ⟨rfl, by simp [lenA, lenB]⟩
  case binaryOr =>
    obtain ⟨rfl, rfl⟩ := fits
    refine ⟨.or, rfl, fun _ _ => rfl, fun a b aSigned bSigned lenA lenB => ?_⟩
    rw [CellType.eval, constOr, constBitwise_of_length _ lenA lenB]
    exact ⟨rfl, by simp [lenA, lenB]⟩
  case binaryXor =>
    obtain ⟨rfl, rfl⟩ := fits
    refine ⟨.xor, rfl, fun _ _ => rfl, fun a b aSigned bSigned lenA lenB => ?_⟩
    rw [CellType.eval, constXor, constBitwise_of_length _ lenA lenB]
    exact ⟨rfl, by simp [lenA, lenB]⟩
  case binaryXnor =>
    obtain ⟨rfl, rfl⟩ := fits
    refine ⟨.xnor, rfl, fun _ _ => rfl, fun a b aSigned bSigned lenA lenB => ?_⟩
    rw [CellType.eval, constXnor, constBitwise_of_length _ lenA lenB]
    exact ⟨rfl, by simp [lenA, lenB]⟩
  case equality =>
    obtain ⟨rfl, rfl⟩ := fits
    refine ⟨.eq, rfl, fun _ _ => rfl, fun a b aSigned bSigned lenA lenB => ?_⟩
    have same : a.length = b.length := lenA.trans lenB.symm
    rw [CellType.eval, constEq, extendU0_of_length (by omega : a.length = max a.length b.length),
      extendU0_of_length (by omega : b.length = max a.length b.length), eqBits_eq_logicEq same]
    exact ⟨rfl, rfl⟩
  case inequality =>
    obtain ⟨rfl, rfl⟩ := fits
    refine ⟨.ne, rfl, fun _ _ => rfl, fun a b aSigned bSigned lenA lenB => ?_⟩
    have same : a.length = b.length := lenA.trans lenB.symm
    rw [CellType.eval, constNe, constEq, extendU0_of_length (by omega : a.length = max a.length b.length),
      extendU0_of_length (by omega : b.length = max a.length b.length), eqBits_eq_logicEq same]
    exact ⟨rfl, rfl⟩
  case logicalAnd =>
    subst fits
    exact ⟨.logicAnd, rfl, fun _ _ => rfl, fun a b _ _ _ _ =>
      ⟨by simp [binaryValue, CellType.eval, constLogicAnd, Const.bitResult, truth_eq], rfl⟩⟩
  case logicalOr =>
    subst fits
    exact ⟨.logicOr, rfl, fun _ _ => rfl, fun a b _ _ _ _ =>
      ⟨by simp [binaryValue, CellType.eval, constLogicOr, Const.bitResult, truth_eq], rfl⟩⟩

/-- No operator of `BinaryFits` gives a bit `z`, whatever its operands. -/
theorem binaryValue_ne {op : BinaryOperator} {width leftWidth rightWidth : Nat}
    (fits : BinaryFits op width leftWidth rightWidth) {a b v : Const}
    {signed : Bool} (computes : binaryValue width signed op a b = some v) : State.Sz ∉ v := by
  cases op <;> simp only [BinaryFits] at fits <;>
    simp only [binaryValue, Option.some.injEq] at computes <;> subst computes
  case add | subtract | multiply => exact arith_ne _ _ _ _
  case mod => exact divide_ne _ _ _ _ _
  case binaryAnd => exact zipWith_ne land_ne a b
  case binaryOr => exact zipWith_ne lor_ne a b
  case binaryXor => exact zipWith_ne lxor_ne a b
  case binaryXnor => exact zipWith_ne lxnor_ne a b
  case equality => simp [(logicEq_ne a b).symm]
  case inequality => simp [(lnot_ne _).symm]
  case logicalAnd => simp [(land_ne _ _).symm]
  case logicalOr => simp [(lor_ne _ _).symm]

/-! ## Conversions -/

/-- `SigSpec::extend_u0` of a non-empty signal reads as `extend_u0` of what the signal reads.
(An empty signal is padded with `x` when signed, an empty constant with zeros.) -/
theorem eval_extendU0 (σ : Valuation) {s : SigSpec} (nonempty : s ≠ []) (width : Nat) (signed : Bool) :
    (s.extendU0 width signed).eval σ = Const.extendU0 (s.eval σ) width signed := by
  unfold SigSpec.extendU0 Const.extendU0
  rw [SigSpec.length_eval]
  split
  · exact SigSpec.eval_take σ s width
  · have top : s.getLast? = some (s.getLast nonempty) := List.getLast?_eq_getLast s nonempty
    cases signed <;> simp [SigSpec.eval, List.map_replicate, List.getLast?_map, top, SigBit.eval]

/-- Where a conversion narrows, the signedness it extends with does not matter. -/
theorem extendU0_of_signs {v : Const} {width : Nat} {signed signed' : Bool}
    (signs : signed = signed' ∨ width ≤ v.length) :
    Const.extendU0 v width signed' = Const.extendU0 v width signed := by
  rcases signs with rfl | narrow
  · rfl
  · unfold Const.extendU0
    split
    · rfl
    · rw [show width - v.length = 0 by omega, List.replicate_zero, List.replicate_zero]

/-- A conversion's resizing (6.24.1) is `extend_u0` with the source's signedness. -/
theorem resize_eq_extendU0 (v : Const) (signed : Bool) (width : Nat) :
    resize v signed width = Const.extendU0 v width signed := by
  unfold resize Const.extendU0
  by_cases wide : width < v.length
  · rw [if_pos (by omega), if_pos wide]
  · by_cases equal : width = v.length
    · subst equal; simp
    · rw [if_neg (by omega), if_neg wide]

/-- A conversion to a four-state type only resizes. -/
theorem convert_of_fourState {type : SvType} (fourState : type.isFourState = true) (v : Const)
    (signed : Bool) : convert v signed type = resize v signed type.bitstreamWidth := by
  simp [convert, fourState]

/-! ## The conditional operator -/

/-- Where the condition is unknown, the `$mux` keeps the agreeing bits, which is the merge of
11.4.11 on alternatives without `z`. -/
theorem mergeX_eq_merge : ∀ {a b : Const}, State.Sz ∉ a → State.Sz ∉ b → mergeX b a = merge a b
  | [], _, _, _ => by cases ‹Const› <;> rfl
  | _ :: _, [], _, _ => rfl
  | x :: a, y :: b, drivenA, drivenB => by
    simp only [List.mem_cons, not_or] at drivenA drivenB
    simp only [mergeX, merge, List.zipWith_cons_cons] at mergeX_eq_merge ⊢
    rw [mergeX_eq_merge drivenA.2 drivenB.2]
    obtain ⟨hx, -⟩ := drivenA
    obtain ⟨hy, -⟩ := drivenB
    congr 1
    cases x <;> cases y <;> first | rfl | exact absurd rfl hx

/-- The `$mux` of `c ? a : b`, selecting on `$reduce_bool` of the condition, is the conditional
operator of 11.4.11 on alternatives without `z`. -/
theorem constMux_truth (a b c : Const) (drivenA : State.Sz ∉ a) (drivenB : State.Sz ∉ b) :
    constMux b a (constReduceBool c 1) = match truth c with
      | .S1 => a
      | .S0 => b
      | _ => merge a b := by
  have select : constReduceBool c 1 = [truth c] := by
    simp only [constReduceBool, constReduceOr, constReduce, Const.bitResult, foldl_lor_zero]
    rfl
  rw [select, constMux, List.headD_cons]
  cases truth c <;> first | rfl | exact mergeX_eq_merge drivenA drivenB

/-! ## Element selects -/

@[simp] theorem length_mergeX (a b : Const) : (mergeX a b).length = min a.length b.length :=
  List.length_zipWith _ _ _

/-- `const_bmux` over a base of `2 ^ |s|` slices gives one slice, whatever the select reads. -/
theorem length_constBmux (a s : Const) :
    ∀ stride, a.length = stride * 2 ^ s.length → (constBmux a s).length = stride := by
  induction s with
  | nil => intro stride width; simpa [constBmux] using width
  | cons b s ih =>
    intro stride width
    have inner := ih (2 * stride) (by rw [width, List.length_cons, Nat.pow_succ]; ac_rfl)
    unfold constBmux at inner ⊢
    rw [List.foldr_cons]
    generalize List.foldr _ a s = t at inner ⊢
    cases b <;> simp only [List.length_take, List.length_drop, length_mergeX, inner] <;> omega

theorem mergeX_replicate : ∀ (b : Const), mergeX (List.replicate b.length .Sx) b = List.replicate b.length .Sx
  | [] => rfl
  | y :: b => by
    simp only [mergeX, List.length_cons, List.replicate_succ, List.zipWith_cons_cons] at mergeX_replicate ⊢
    rw [mergeX_replicate b]
    cases y <;> rfl

@[simp] theorem length_constMux {a b : Const} (s : Const) (same : a.length = b.length) :
    (constMux a b s).length = a.length := by
  unfold constMux; split <;> simp [same]

/-! ## Values without `z` -/

theorem merge_ne (a b : Const) : State.Sz ∉ merge a b :=
  zipWith_ne (fun x y => by cases x <;> cases y <;> decide) a b

theorem resize_ne {v : Const} (driven : State.Sz ∉ v) (signed : Bool) (width : Nat) :
    State.Sz ∉ resize v signed width := by
  unfold resize
  split
  · exact fun mem => driven (List.mem_of_mem_take mem)
  · simp only [List.mem_append, List.mem_replicate, not_or, not_and]
    refine ⟨driven, fun _ pad => ?_⟩
    cases signed
    · simp at pad
    · cases top : v.getLast? with
      | none => simp [top] at pad
      | some b => exact driven (by simpa [top, pad] using List.mem_of_getLast?_eq_some top)

theorem convert_ne {v : Const} (driven : State.Sz ∉ v) (signed : Bool) (type : SvType) :
    State.Sz ∉ convert v signed type := by
  unfold convert
  split
  · exact resize_ne driven _ _
  · simp only [List.mem_map, not_exists, not_and]
    intro b _ two
    cases b <;> cases two

theorem selectElement_ne {v : Const} (driven : State.Sz ∉ v) (type : SvType) (range : ConstantRange)
    (stride : Nat) (index : Option Int) :
    State.Sz ∉ selectElement v (outOfRange type) range stride index := by
  have outside : outOfRange type ≠ .Sz := by unfold outOfRange; split <;> decide
  unfold selectElement
  split
  · split
    · exact fun mem => driven (List.mem_of_mem_drop (List.mem_of_mem_take mem))
    · simpa using fun _ => outside.symm
  · simpa using fun _ => outside.symm

end SlangFrontend.Verified.Operators
