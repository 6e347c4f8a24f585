import SlangFrontend.Rtlil.Signal
import Mathlib.Tactic.Zify
import Mathlib.Tactic.Positivity

/-! # Constant evaluation of cells

The functions of Yosys' `kernel/calcfunc.cc` that the frontend and the builder call to fold
constants, and that the cell semantics of `SlangFrontend.Rtlil.Cell` reuses: a cell of type
`$t` computes `const_t` of its inputs. Numbers are read with `toInt?` (Yosys' `const2big`),
which fails on an `x` or `z` bit, and written back with `ofInt` (`big2const`), modulo
`2 ^ width`.
-/

namespace SlangFrontend.Rtlil

/-- The state of a Boolean. -/
def State.ofBool (b : Bool) : State := if b then .S1 else .S0

namespace Const

/-- The unsigned value of a fully defined constant. -/
def toNat? : Const → Option Nat
  | [] => some 0
  | .S0 :: rest => (toNat? rest).map (2 * ·)
  | .S1 :: rest => (toNat? rest).map (2 * · + 1)
  | _ :: _ => none

/-- `const2big`: the value, two's complement when `signed`; `none` when a bit is undefined. -/
def toInt? (signed : Bool) (c : Const) : Option Int :=
  (toNat? c).map fun n =>
    if signed && c.getLast? == some .S1 then (n : Int) - 2 ^ c.length else n

/-- The low `width` bits of a natural number. -/
def ofNat : Nat → Nat → Const
  | 0, _ => []
  | width + 1, n => State.ofBool (n % 2 == 1) :: ofNat width (n / 2)

@[simp] theorem length_ofNat (width n : Nat) : (ofNat width n).length = width := by
  induction width generalizing n <;> simp_all [ofNat]

/-- `big2const`: a number modulo `2 ^ width`. -/
def ofInt (width : Nat) (v : Int) : Const := ofNat width (v % 2 ^ width).toNat

@[simp] theorem length_ofInt (width : Nat) (v : Int) : (ofInt width v).length = width :=
  length_ofNat _ _

/-- `extend_u0` of `calcfunc.cc`: truncate, or pad with the top bit when signed and with zeros
otherwise; an empty constant is padded with zeros either way. -/
def extendU0 (c : Const) (width : Nat) (signed : Bool) : Const :=
  if width < c.length then c.take width
  else c ++ List.replicate (width - c.length)
    (if signed then c.getLast?.getD .S0 else .S0)

/-- `Const::as_int(is_signed)`: the low 32 bits, sign-extended from the top bit when signed
and shorter than 32 bits, read as a 32-bit two's complement number. Undefined bits read as 0. -/
def asInt (signed : Bool) (c : Const) : Int :=
  let low := (c.take 32).enum.foldl (fun acc (i, b) => if b = .S1 then acc + 2 ^ i else acc) 0
  let ext := if signed && c.getLast? == some .S1 && c.length < 32 then 2 ^ 32 - 2 ^ c.length else 0
  let u := low + ext
  if 2 ^ 31 ≤ u then (u : Int) - 2 ^ 32 else u

/-- A one-bit result zero-extended to `len` bits; Yosys never truncates it below one bit. -/
def bitResult (b : State) (len : Nat) : Const := b :: List.replicate (len - 1) .S0

@[simp] theorem length_bitResult (b : State) (len : Nat) : (bitResult b len).length = len - 1 + 1 := by
  simp [bitResult]


/-! ## Numbers read back from their bits -/

theorem toNat?_ofNat (width n : Nat) : toNat? (ofNat width n) = some (n % 2 ^ width) := by
  induction width generalizing n with
  | zero => simp [ofNat, toNat?, Nat.mod_one]
  | succ width ih =>
    have split : n % 2 ^ (width + 1) = n % 2 + 2 * (n / 2 % 2 ^ width) := by
      rw [Nat.pow_succ', Nat.mod_mul]
    rcases Nat.mod_two_eq_zero_or_one n with even | odd
    · simp [ofNat, State.ofBool, even, toNat?, ih, split]
    · simp [ofNat, State.ofBool, odd, toNat?, ih, split]; omega

theorem ofNat_mod (width n : Nat) : ofNat width (n % 2 ^ width) = ofNat width n := by
  induction width generalizing n with
  | zero => rfl
  | succ width ih =>
    have low : n % 2 ^ (width + 1) % 2 = n % 2 := by
      rw [Nat.pow_succ', Nat.mod_mul_right_mod]
    have high : n % 2 ^ (width + 1) / 2 = n / 2 % 2 ^ width := by
      rw [Nat.pow_succ', Nat.mod_mul_right_div_self]
    simp only [ofNat, low, high, ih]

theorem take_ofNat {k width : Nat} (n : Nat) (le : k ≤ width) : (ofNat width n).take k = ofNat k n := by
  induction k generalizing width n with
  | zero => simp [ofNat]
  | succ k ih =>
    obtain ⟨width, rfl⟩ : ∃ w, width = w + 1 := ⟨width - 1, by omega⟩
    simp [ofNat, ih (n / 2) (by omega : k ≤ width)]


theorem take_ofInt {k width : Nat} (v : Int) (le : k ≤ width) : (ofInt width v).take k = ofInt k v := by
  rw [ofInt, take_ofNat _ le, ofInt, ← ofNat_mod, ← ofNat_mod k (v % 2 ^ k).toNat]
  congr 1
  have dvd : (2 : Int) ^ k ∣ 2 ^ width := pow_dvd_pow 2 le
  have nonneg (m : Nat) : 0 ≤ v % 2 ^ m := Int.emod_nonneg v (by positivity)
  zify
  rw [Int.toNat_of_nonneg (nonneg width), Int.toNat_of_nonneg (nonneg k),
    Int.emod_emod_of_dvd v dvd, Int.emod_emod]

theorem ofInt_natCast (width n : Nat) : ofInt width n = ofNat width n := by
  have cast : ((n : Int) % 2 ^ width).toNat = n % 2 ^ width := by
    rw [show (2 : Int) ^ width = ((2 ^ width : Nat) : Int) by norm_cast, ← Int.ofNat_emod,
      Int.toNat_natCast]
  rw [ofInt, cast, ofNat_mod]

theorem getLast?_ofNat (width n : Nat) :
    (ofNat (width + 1) n).getLast? = some (State.ofBool (n / 2 ^ width % 2 == 1)) := by
  induction width generalizing n with
  | zero => simp [ofNat]
  | succ width ih =>
    rw [ofNat, List.getLast?_cons, ih, Nat.div_div_eq_div_mul, ← Nat.pow_succ']
    rfl

/-- A number that fits in `width + 1` bits as two's complement reads back from its bits. -/
theorem toInt?_ofInt {width : Nat} {v : Int} (low : -2 ^ width ≤ v) (high : v < 2 ^ width) :
    toInt? true (ofInt (width + 1) v) = some v := by
  have double : (2 : Int) ^ (width + 1) = 2 * 2 ^ width := Int.pow_succ' 2 width
  have bits : ofInt (width + 1) v = ofNat (width + 1) (if v < 0 then v + 2 ^ (width + 1) else v).toNat := by
    rw [ofInt]
    congr 2
    split
    · rw [← Int.add_mul_emod_self_left v (2 ^ (width + 1)) 1, Int.mul_one]
      exact Int.emod_eq_of_lt (by omega) (by omega)
    · exact Int.emod_eq_of_lt (by omega) (by omega)
  rw [bits, toInt?, toNat?_ofNat, getLast?_ofNat, length_ofNat]
  have P : ((2 ^ width : Nat) : Int) = 2 ^ width := Int.natCast_pow 2 width
  split
  · have top : (v + 2 ^ (width + 1)).toNat / 2 ^ width = 1 :=
      Nat.div_eq_of_lt_le (by omega) (by omega)
    simp [top, State.ofBool, Nat.mod_eq_of_lt (by omega : (v + 2 ^ (width + 1)).toNat < 2 ^ (width + 1))]
    omega
  · have top : v.toNat / 2 ^ width = 0 := Nat.div_eq_of_lt (by omega)
    simp [top, State.ofBool, Nat.mod_eq_of_lt (by omega : v.toNat < 2 ^ (width + 1))]
    omega

/-- A number in `[0, 2 ^ width)` reads back unsigned from its `width` bits. -/
theorem toInt?_ofInt_unsigned {width : Nat} {v : Int} (low : 0 ≤ v) (high : v < 2 ^ width) :
    toInt? false (ofInt width v) = some v := by
  obtain ⟨n, rfl⟩ := Int.eq_ofNat_of_zero_le low
  have fits : n < 2 ^ width := by exact_mod_cast high
  simp [ofInt_natCast, toInt?, toNat?_ofNat, Nat.mod_eq_of_lt fits]

theorem toNat?_lt : {c : Const} → {n : Nat} → toNat? c = some n → n < 2 ^ c.length
  | [], n, read => by cases read; simp
  | .S0 :: c, n, read | .S1 :: c, n, read => by
    simp only [toNat?, Option.map_eq_some'] at read
    obtain ⟨m, rest, rfl⟩ := read
    have := toNat?_lt rest
    simp only [List.length_cons, Nat.pow_succ]
    omega
  | .Sx :: _, _, read | .Sz :: _, _, read => by cases read

@[simp] theorem toNat?_append_zero (c : Const) : toNat? (c ++ [.S0]) = toNat? c := by
  induction c with
  | nil => rfl
  | cons b c ih => cases b <;> simp [toNat?, ih]

/-- A zero on top makes a signed reading unsigned. -/
theorem toInt?_append_zero (c : Const) : toInt? true (c ++ [.S0]) = toInt? false c := by
  simp [toInt?]

/-- The sum `as_int` accumulates over the bits numbered from `k` is `2 ^ k` times their value. -/
theorem foldl_enumFrom_of_toNat? {c : Const} {m : Nat} (read : toNat? c = some m) (k : Nat)
    (acc : Int) :
    (c.enumFrom k).foldl (fun acc (p : Nat × State) => if p.2 = .S1 then acc + 2 ^ p.1 else acc) acc =
      acc + 2 ^ k * m := by
  induction c generalizing m k acc with
  | nil => cases read; simp
  | cons b c ih =>
    match b, read with
    | .S0, read | .S1, read =>
      simp only [toNat?, Option.map_eq_some'] at read
      obtain ⟨m, rest, rfl⟩ := read
      simp only [List.enumFrom_cons, List.foldl_cons, ih rest, pow_succ, Nat.mul_assoc]
      push_cast
      simp [Int.mul_add, Int.add_assoc, Int.add_comm, Int.mul_assoc]

/-- A top bit of one carries half the unsigned range. -/
theorem le_of_getLast?_one : {c : Const} → {m : Nat} → toNat? c = some m →
    c.getLast? = some .S1 → 2 ^ (c.length - 1) ≤ m
  | [b], m, read, top => by cases top; cases read; simp
  | b :: b' :: c, m, read, top => by
    have rest : ∃ m', toNat? (b' :: c) = some m' ∧ 2 * m' ≤ m := by
      match b, read with
      | .S0, read | .S1, read =>
        simp only [toNat?, Option.map_eq_some'] at read
        obtain ⟨m', rest, rfl⟩ := read
        exact ⟨m', rest, by omega⟩
    obtain ⟨m', read', le⟩ := rest
    have := le_of_getLast?_one read' (by simpa [List.getLast?_cons_cons] using top)
    simp only [List.length_cons, Nat.add_sub_cancel] at this ⊢
    rw [pow_succ]
    omega

/-- `as_int` of a defined constant of fewer than 32 bits is the number `const2big` reads. -/
theorem asInt_of_toInt? {signed : Bool} {c : Const} {v : Int} (read : toInt? signed c = some v)
    (short : c.length < 32) : asInt signed c = v := by
  rcases value : toNat? c with _ | m
  · simp [toInt?, value] at read
  simp [toInt?, value] at read
  subst read
  have bound : (m : Int) < 2 ^ c.length := by exact_mod_cast toNat?_lt value
  have low := foldl_enumFrom_of_toNat? value 0 0
  simp only [asInt, List.take_of_length_le (by omega : c.length ≤ 32), List.enum, low]
  by_cases top : signed = true ∧ c.getLast? = some .S1
  · obtain ⟨rfl, top⟩ := top
    have half : (2 : Int) ^ (c.length - 1) ≤ m := by exact_mod_cast le_of_getLast?_one value top
    have double : (2 : Int) ^ c.length = 2 * 2 ^ (c.length - 1) := by
      rw [← pow_succ', Nat.sub_add_cancel (List.length_pos_of_ne_nil (by rintro rfl; cases top))]
    have small : (2 : Int) ^ (c.length - 1) ≤ 2 ^ 30 := pow_le_pow_right₀ (by omega) (by omega)
    simp [top, short]
    split_ifs <;> omega
  · have small : (2 : Int) ^ c.length ≤ 2 ^ 31 := pow_le_pow_right₀ (by omega) (by omega)
    have plain : (signed && c.getLast? == some .S1) = false := by
      cases signed <;> simp_all
    simp [plain, top]
    omega

@[simp] theorem length_extendU0 (c : Const) (width : Nat) (signed : Bool) :
    (extendU0 c width signed).length = width := by
  unfold extendU0; split <;> simp <;> omega

/-- Bit `p` of `extend_u0` to a wider `width`: the bit of `c`, or the padding above it. -/
theorem getD_extendU0 {c : Const} {width p : Nat} (wide : c.length ≤ width) (signed : Bool) :
    (extendU0 c width signed).getD p .Sx =
      if p < c.length then c.getD p .Sx
      else if p < width then (if signed then c.getLast?.getD .S0 else .S0) else .Sx := by
  rw [extendU0, if_neg (by omega), List.getD_eq_getElem?_getD, List.getD_eq_getElem?_getD]
  by_cases inside : p < c.length
  · rw [if_pos inside, List.getElem?_append_left inside]
  · rw [if_neg inside, List.getElem?_append_right (by omega), List.getElem?_replicate]
    by_cases padding : p < width
    · rw [if_pos (by omega), if_pos padding]; rfl
    · rw [if_neg (by omega), if_neg padding]; rfl

end Const

/-! ## Bit logic -/

namespace State

def isDef : State → Bool
  | .S0 | .S1 => true
  | _ => false

/-- `RTLIL::State logic_not`. -/
def lnot : State → State
  | .S0 => .S1
  | .S1 => .S0
  | _ => .Sx

/-- `logic_and`. -/
def land : State → State → State
  | .S0, _ | _, .S0 => .S0
  | .S1, .S1 => .S1
  | _, _ => .Sx

@[simp] theorem land_ofBool (a b : Bool) : land (ofBool a) (ofBool b) = ofBool (a && b) := by
  cases a <;> cases b <;> rfl

/-- `logic_or`. -/
def lor : State → State → State
  | .S1, _ | _, .S1 => .S1
  | .S0, .S0 => .S0
  | _, _ => .Sx

/-- `logic_xor`. -/
def lxor (a b : State) : State :=
  if a.isDef && b.isDef then State.ofBool (a != b) else .Sx

/-- `logic_xnor`. -/
def lxnor (a b : State) : State :=
  if a.isDef && b.isDef then State.ofBool (a == b) else .Sx

end State

/-! ## The folding functions -/

/-- The common shape of `const_and`, `const_or`, ...: both operands extended to `len` bits. -/
def constBitwise (f : State → State → State) (a b : Const) (signed1 signed2 : Bool)
    (len : Nat) : Const :=
  List.zipWith f (Const.extendU0 a len signed1) (Const.extendU0 b len signed2)

def constNot (a : Const) (signed1 : Bool) (len : Nat) : Const :=
  (Const.extendU0 a len signed1).map State.lnot

def constAnd := constBitwise State.land
def constOr := constBitwise State.lor
def constXor := constBitwise State.lxor
def constXnor := constBitwise State.lxnor

/-- `logic_reduce_wrapper`. -/
def constReduce (initial : State) (f : State → State → State) (a : Const) (len : Nat) : Const :=
  Const.bitResult (a.foldl f initial) len

def constReduceAnd (a : Const) (len : Nat) : Const := constReduce .S1 State.land a len
def constReduceOr (a : Const) (len : Nat) : Const := constReduce .S0 State.lor a len
def constReduceXor (a : Const) (len : Nat) : Const := constReduce .S0 State.lxor a len
def constReduceXnor (a : Const) (len : Nat) : Const :=
  Const.bitResult (State.lnot (a.foldl State.lxor .S0)) len
def constReduceBool (a : Const) (len : Nat) : Const := constReduceOr a len

/-- The truth value `const_logic_*` read from an operand: true when a defined bit is one,
undefined when no bit is one but some bit is undefined. -/
def Const.truth (a : Const) : State := a.foldl State.lor .S0

@[simp] theorem Const.truth_ofBool (b : Bool) : Const.truth [State.ofBool b] = State.ofBool b := by
  cases b <;> rfl

def constLogicNot (a : Const) (len : Nat) : Const := Const.bitResult (State.lnot a.truth) len

def constLogicAnd (a b : Const) (len : Nat) : Const :=
  Const.bitResult (State.land a.truth b.truth) len

def constLogicOr (a b : Const) (len : Nat) : Const :=
  Const.bitResult (State.lor a.truth b.truth) len

/-- The arithmetic folds: the exact result modulo `2 ^ len`, all `x` on an undefined bit. -/
def constArith (f : Int → Int → Option Int) (a b : Const) (signed1 signed2 : Bool)
    (len : Nat) : Const :=
  match Const.toInt? signed1 a, Const.toInt? signed2 b with
  | some x, some y => ((f x y).map (Const.ofInt len)).getD (List.replicate len .Sx)
  | _, _ => List.replicate len .Sx

@[simp] theorem length_constArith (f : Int → Int → Option Int) (a b : Const) (signed1 signed2 : Bool)
    (len : Nat) : (constArith f a b signed1 signed2 len).length = len := by
  unfold constArith
  split
  · cases f _ _ <;> simp
  · simp

def constAdd := constArith fun x y => some (x + y)
def constSub := constArith fun x y => some (x - y)
def constMul := constArith fun x y => some (x * y)
/-- `const_div`: rounding toward zero, `x` on a zero divisor. -/
def constDiv := constArith fun x y => if y = 0 then none else some (x.tdiv y)
/-- `const_divfloor`: rounding toward minus infinity. -/
def constDivfloor := constArith fun x y => if y = 0 then none else some (x.fdiv y)
/-- `const_mod`: the remainder of `const_div`, with the dividend's sign. -/
def constMod := constArith fun x y => if y = 0 then none else some (x.tmod y)
/-- `const_pow`: `0 ** -n` is undefined, a negative exponent leaves only `1` and `-1`. -/
def constPow := constArith fun x y =>
  if x = 0 && y < 0 then none
  else if y < 0 then some (if x = 1 then 1 else if x = -1 then (if y % 2 = 0 then 1 else -1) else 0)
  else some (x ^ y.toNat)

/-- The relational folds: a one-bit result, `x` on an undefined bit. -/
def constCompare (f : Int → Int → Bool) (a b : Const) (signed1 signed2 : Bool)
    (len : Nat) : Const :=
  match Const.toInt? signed1 a, Const.toInt? signed2 b with
  | some x, some y => Const.bitResult (State.ofBool (f x y)) len
  | _, _ => Const.bitResult .Sx len

@[simp] theorem length_constCompare (f : Int → Int → Bool) (a b : Const) (signed1 signed2 : Bool)
    (len : Nat) : (constCompare f a b signed1 signed2 len).length = len - 1 + 1 := by
  unfold constCompare
  split <;> simp

theorem constCompare_of_toInt? {f : Int → Int → Bool} {a b : Const} {signed1 signed2 : Bool}
    {x y : Int} (readA : Const.toInt? signed1 a = some x) (readB : Const.toInt? signed2 b = some y)
    (len : Nat) :
    constCompare f a b signed1 signed2 len = Const.bitResult (State.ofBool (f x y)) len := by
  simp [constCompare, readA, readB]

def constLt := constCompare fun x y => decide (x < y)
def constLe := constCompare fun x y => decide (x ≤ y)
def constGt := constCompare fun x y => decide (y < x)
def constGe := constCompare fun x y => decide (y ≤ x)

/-- The per-bit verdict of `const_eq`: a defined mismatch decides, an undefined bit makes the
match unknown. -/
def eqBits : List State → List State → State
  | a :: as, b :: bs =>
    if (a == .S0 && b == .S1) || (a == .S1 && b == .S0) then .S0
    else if a.isDef && b.isDef then eqBits as bs
    else match eqBits as bs with
      | .S0 => .S0
      | _ => .Sx
  | _, _ => .S1

/-- `const_eq`: both operands extended to the wider one, signed only when both are. -/
def constEq (a b : Const) (signed1 signed2 : Bool) (len : Nat) : Const :=
  let width := max a.length b.length
  Const.bitResult (eqBits (Const.extendU0 a width (signed1 && signed2))
    (Const.extendU0 b width (signed1 && signed2))) len

def constNe (a b : Const) (signed1 signed2 : Bool) (len : Nat) : Const :=
  Const.bitResult (State.lnot ((constEq a b signed1 signed2 1).headD .Sx)) len

/-- `const_eqx`: equality of the states themselves. -/
def constEqx (a b : Const) (signed1 signed2 : Bool) (len : Nat) : Const :=
  let width := max a.length b.length
  Const.bitResult (State.ofBool (Const.extendU0 a width (signed1 && signed2) ==
    Const.extendU0 b width (signed1 && signed2))) len

def constNex (a b : Const) (signed1 signed2 : Bool) (len : Nat) : Const :=
  Const.bitResult (State.lnot ((constEqx a b signed1 signed2 1).headD .Sx)) len

/-! ## Shifts -/

/-- `const_shift_worker`: output bit `i` reads input bit `i + offset`, with `vacant` below the
input and the top bit (when `signExt`) or `vacant` above it. -/
def shiftWorker (a : Const) (offset : Int) (signExt : Bool) (len : Nat) : Const :=
  (List.range len).map fun i =>
    let pos := (i : Int) + offset
    if pos < 0 then .S0
    else if a.length ≤ pos.toNat then (if signExt then a.getLast?.getD .Sx else .S0)
    else a.getD pos.toNat .Sx

/-- The shift distance read from `b`, unsigned or signed. -/
def shiftOffset (b : Const) (signed : Bool) : Option Int := Const.toInt? signed b

def constShl (a b : Const) (signed1 : Bool) (len : Nat) : Const :=
  match shiftOffset b false with
  | some n => shiftWorker (Const.extendU0 a len signed1) (-n) false len
  | none => List.replicate len .Sx

def constShr (a b : Const) (signed1 : Bool) (len : Nat) : Const :=
  match shiftOffset b false with
  | some n => shiftWorker (Const.extendU0 a (max len a.length) signed1) n false len
  | none => List.replicate len .Sx

def constSshl (a b : Const) (signed1 : Bool) (len : Nat) : Const :=
  if signed1 then
    match shiftOffset b false with
    | some n => shiftWorker a (-n) true len
    | none => List.replicate len .Sx
  else constShl a b signed1 len

def constSshr (a b : Const) (signed1 : Bool) (len : Nat) : Const :=
  if signed1 then
    match shiftOffset b false with
    | some n => shiftWorker a n true len
    | none => List.replicate len .Sx
  else constShr a b signed1 len

/-- `const_shift_shiftx`: output bit `i` reads input bit `i + b`, with `b` signed or unsigned,
and `other` wherever the position falls outside the input. -/
def shiftShiftx (a b : Const) (signed2 : Bool) (len : Nat) (other : State) : Const :=
  match shiftOffset b signed2 with
  | some n => (List.range len).map fun i =>
      let pos := (i : Int) + n
      if pos < 0 ∨ a.length ≤ pos.toNat then other else a.getD pos.toNat .Sx
  | none => List.replicate len .Sx

/-- `const_shift`: `a` extended to the output width, shifted right by `b` (left when `b` is
negative and signed), zeros wherever the position falls outside. -/
def constShift (a b : Const) (signed1 signed2 : Bool) (len : Nat) : Const :=
  shiftShiftx (Const.extendU0 a (max len a.length) signed1) b signed2 len .S0

/-- `const_shiftx`: the same with `x` outside. -/
def constShiftx (a b : Const) (signed2 : Bool) (len : Nat) : Const :=
  shiftShiftx a b signed2 len .Sx

/-- The positions `0, ..., len - 1` as integers, as the shift loops count them. -/
theorem getElem?_range_cast {len j : Nat} (below : j < len) :
    ((List.range len : List Nat) : List Int)[j]? = some (j : Int) := by
  simp [below, ← List.map_eq_flatMap]

/-- Bit `j` of `const_shift`: the bit of `a` at `j + n`, the padding of `extend_u0` between `a`
and the output width, and zero outside both. -/
theorem getElem?_constShift {a b : Const} {signed1 signed2 : Bool} {len j : Nat} {n : Int}
    (amount : Const.toInt? signed2 b = some n) (below : j < len) :
    (constShift a b signed1 signed2 len)[j]? = some
      (if j + n < 0 ∨ max len a.length ≤ j + n then .S0
      else if j + n < a.length then a.getD (j + n).toNat .Sx
      else if signed1 then a.getLast?.getD .S0 else .S0) := by
  simp only [constShift, shiftShiftx, shiftOffset, amount, List.getElem?_map, getElem?_range_cast below,
    Option.map_some', Const.length_extendU0, Const.getD_extendU0 (le_max_right len a.length),
    Option.some.injEq]
  by_cases outside : j + n < 0
  · simp only [outside, true_or, if_true]
  · have fits : ((j + n).toNat < a.length ↔ j + n < a.length) ∧
        (max len a.length ≤ (j + n).toNat ↔ max len a.length ≤ j + n) := by omega
    simp only [outside, false_or, fits]
    split_ifs <;> first | rfl | omega

/-! ## Multiplexers -/

/-- The merge of two undetermined alternatives: agreeing bits survive, the others are `x`. -/
def mergeX (a b : Const) : Const := List.zipWith (fun x y => if x = y then x else .Sx) a b

/-- `const_mux`. -/
def constMux (a b s : Const) : Const :=
  match s.headD .Sx with
  | .S0 => a
  | .S1 => b
  | _ => mergeX a b

/-- `const_bwmux`: a select bit of one picks `b`, an `x` picks the bit both inputs agree on and
`x` where they differ, and every other select bit picks `a`. -/
def constBwmux (a b s : Const) : Const :=
  List.zipWith3 (fun x y sel => match sel with
    | .S1 => y
    | .Sx => if x = y then x else .Sx
    | _ => x) a b s

/-- `const_bmux`: the select bits, most significant first, halve the input. -/
def constBmux (a s : Const) : Const :=
  s.foldr (fun sel t =>
    let half := t.length / 2
    match sel with
    | .S0 => t.take half
    | .S1 => t.drop half
    | _ => mergeX (t.take half) (t.drop half)) a

/-- `const_bmux` with a known select `t` picks the `t`-th of the `2 ^ s.length` slices of `a`. -/
theorem constBmux_of_toNat? {s : Const} {t stride : Nat} {a : Const} (read : Const.toNat? s = some t)
    (width : a.length = stride * 2 ^ s.length) : constBmux a s = (a.drop (stride * t)).take stride := by
  induction s generalizing t stride with
  | nil =>
    cases read
    simp only [List.length_nil, Nat.pow_zero, Nat.mul_one] at width
    simp [constBmux, ← width]
  | cons b s ih =>
    have halves : a.length = 2 * stride * 2 ^ s.length := by
      rw [width, List.length_cons, Nat.pow_succ]; ac_rfl
    cases b <;> simp only [Const.toNat?, Option.map_eq_some'] at read <;> obtain ⟨m, rest, rfl⟩ := read
    all_goals
      have room : 2 * stride * (m + 1) ≤ a.length :=
        halves ▸ Nat.mul_le_mul_left _ (Const.toNat?_lt rest)
      have inner := ih rest halves
      simp only [constBmux, List.foldr_cons] at inner ⊢
      have len : ((a.drop (2 * stride * m)).take (2 * stride)).length = 2 * stride := by
        simp only [List.length_take, List.length_drop]
        rw [Nat.mul_add, Nat.mul_one] at room
        omega
      simp only [inner, len, Nat.mul_div_cancel_left _ (by decide : 0 < 2)]
    · rw [List.take_take, Nat.min_eq_left (by omega), Nat.mul_assoc, Nat.mul_left_comm]
    · rw [List.drop_take, List.drop_drop, Nat.mul_add, Nat.mul_one, Nat.mul_assoc, Nat.mul_left_comm,
        Nat.two_mul stride, Nat.add_sub_cancel, Nat.add_comm]


/-- `const_demux`: slot `i` carries `a` when the select reads `i`, zeros when it cannot read
`i`, and `a` with its non-zero bits undefined when it may. -/
def constDemux (a s : Const) : Const :=
  ((List.range (2 ^ s.length)).map fun i =>
    let ne := (List.range s.length).any fun j =>
      s.getD j .Sx == State.ofBool (!(i.testBit j))
    let undef := s.any fun sel => !sel.isDef
    if ne then List.replicate a.length .S0
    else if undef then a.map fun x => if x = .S0 then .S0 else .Sx
    else a).flatten

end SlangFrontend.Rtlil
