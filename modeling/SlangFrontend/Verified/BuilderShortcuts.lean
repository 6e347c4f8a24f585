import SlangFrontend.Builder

/-! # The builder's shortcuts against its cells

`RTLILBuilder` answers some requests without a cell: the comparisons its three-valued carry
chain decides, `Sub` with an all-ones subtrahend, `Shift` by a constant amount. A shortcut is
right when, under every valuation of the wires, the signal it returns has the value the cell it
stands for would compute. The comparison chain and `Sub` are not on the inputs below. The `Shift` slice agrees with `$shift`
except past both `a` and the output width, where it repeats the sign of a signed `a` and the
cell, like the `const_shift` fold of the same function, has zeros
(`shift_slice_repeats_sign_past_cell`).
-/

namespace SlangFrontend.Verified.BuilderShortcuts

open Rtlil

variable (mod : Module)

/-! ## The comparison chain -/

/-- `$lt` of `a = {1'b1, w}` and `b = 2'b00`, unsigned, driving `y`. -/
def ltCell (w : WireId) (offset : Nat) (y : SigSpec) : Cell :=
  { type := .lt, a := [.wire w offset, .const .S1], b := [.const .S0, .const .S0], y }

/-- The chain reads the top bits of unsigned operands as signs: `{1'b1, w} < 2'b00` folds to
one, while the `$lt` cell it stands for is zero (or `x`) under every valuation. -/
theorem lt_chain_folds_to_one (w : WireId) (offset : Nat) :
    Builder.biop .lt [.wire w offset, .const .S1] [.const .S0, .const .S0] false false 1 mod =
        .ok ([.const .S1], mod) ∧
      ∀ σ, (ltCell w offset [.wire (.fresh mod.nextId) 0]).eval σ ≠ [.S1] := by
  refine ⟨rfl, fun σ => ?_⟩
  simp only [ltCell, Cell.eval, CellType.eval, SigSpec.eval, List.map, SigBit.eval, List.length_singleton]
  cases σ w offset <;> decide

/-! ## `Sub` -/

/-- `$sub` of a one-bit `a` and `b = 1'b1`, driving `y`. -/
def subCell (w : WireId) (offset : Nat) (isSigned : Bool) (y : SigSpec) : Cell :=
  { type := .sub, a := [.wire w offset], b := [.const .S1], y, aSigned := isSigned,
    bSigned := isSigned }

/-- `Sub(a, 1'b1)` returns `a`, while `$sub` computes `a - 1`, the complement of a one-bit `a`
under every valuation of zeros and ones; and `Sub` of two constants returns one bit more than
the cell would. -/
theorem sub_of_all_ones_keeps_minuend (w : WireId) (offset : Nat) (isSigned : Bool) :
    Builder.sub [.wire w offset] [.const .S1] isSigned mod = .ok ([.wire w offset], mod) ∧
      (∀ v : Bool, (subCell w offset isSigned [.wire (.fresh mod.nextId) 0]).eval
        (fun _ _ => State.ofBool v) = [State.ofBool !v]) ∧
      Builder.sub [.const .S0] [.const .S0] isSigned mod = .ok ([.const .S0, .const .S0], mod) := by
  refine ⟨rfl, fun v => ?_, by cases isSigned <;> rfl⟩
  cases v <;> cases isSigned <;> rfl

/-! ## `Shift` by a constant amount -/

/-- A signal of constant zeros and ones has the value of its constant under every valuation. -/
theorem eval_of_defined (σ : Valuation) {b : SigSpec}
    (defined : ∀ bit ∈ b, bit = .const .S0 ∨ bit = .const .S1) : b.eval σ = b.asConst := by
  induction b with
  | nil => rfl
  | cons bit b ih =>
    rcases defined bit (List.mem_cons_self _ _) with rfl | rfl <;>
      simp only [SigSpec.eval, SigSpec.asConst, List.map_cons, SigBit.eval, List.cons.injEq, true_and] <;>
      exact ih fun x mem => defined x (List.mem_cons_of_mem _ mem)

/-- `Shift` with a signal `a` that has a wire bit and a constant amount `b` of zeros and ones,
fewer than 24 of them, reading `n`: at every output position `j` the slice it returns has the
bit of the `$shift` cell with the same ports and parameters, except where a signed `a` is read
past both its own width and the output width. There the slice repeats `a`'s top bit and the
cell, which only sign-extends `a` to the output width, has a zero. -/
theorem shift_slice_repeats_sign_past_cell {a b : SigSpec} {aSigned bSigned : Bool} {n : Int}
    (wired : a.isFullyConst = false) (defined : ∀ bit ∈ b, bit = .const .S0 ∨ bit = .const .S1)
    (short : b.length < 24) (amount : Const.toInt? bSigned b.asConst = some n) (y : SigSpec) :
    ∃ r, Builder.shift a aSigned b bSigned y.length mod = .ok (r, mod) ∧ r.length = y.length ∧
      ∀ σ, ∀ j < y.length,
        if aSigned ∧ max y.length a.length ≤ j + n then
          (r.eval σ)[j]? = some (a.msb.eval σ) ∧
            (Cell.eval σ { type := .shift, a, b, y, aSigned, bSigned })[j]? = some .S0
        else (r.eval σ)[j]? = (Cell.eval σ { type := .shift, a, b, y, aSigned, bSigned })[j]? := by
  have empty : a.isEmpty = false := by cases a <;> simp_all [SigSpec.isFullyConst]
  have constant : b.isFullyConst = true := List.all_eq_true.mpr fun bit mem => by
    rcases defined bit mem with rfl | rfl <;> rfl
  have shiftAmount : Const.asInt bSigned b.asConst = n :=
    Const.asInt_of_toInt? amount (by simpa [SigSpec.asConst] using by omega)
  have run : Builder.shift a aSigned b bSigned y.length mod = .ok ((List.range y.length).map fun j =>
      let i := n + j
      if aSigned && (a.length : Int) ≤ i then a.msb
      else if (a.length : Int) ≤ i || i < 0 then .const .S0
      else a.getD i.toNat (.const .Sx), mod) := by
    simp only [Builder.shift, wired, constant, Bool.false_and, Bool.true_and, short, decide_True, empty,
      Bool.not_false, logAssert_true, shiftAmount, Bool.false_eq_true, if_false, if_true]
    rfl
  refine ⟨_, run, by simp [Function.comp_def], fun σ j below => ?_⟩
  have cell := @getElem?_constShift (a.eval σ) b.asConst aSigned bSigned y.length j n amount below
  simp only [Cell.eval, CellType.eval, eval_of_defined σ defined, SigSpec.length_eval] at cell ⊢
  rw [cell]
  have element (s : SigSpec) (k : Nat) : (s.eval σ)[k]? = s[k]?.map (SigBit.eval σ) :=
    List.getElem?_map _ _ _
  have msb : SigBit.eval σ a.msb = (a.eval σ).getLast?.getD .S0 := by
    rw [SigSpec.msb, SigSpec.eval, List.getLast?_map,
      List.getLast?_eq_getLast a (by cases a <;> simp_all)]
    rfl
  have getD (p : Nat) : SigBit.eval σ (a.getD p (.const .Sx)) = (a.eval σ).getD p .Sx := by
    simp only [List.getD_eq_getElem?_getD, element]; cases a[p]? <;> rfl
  have constEval (s : State) : SigBit.eval σ (.const s) = s := rfl
  simp only [element, List.getElem?_map, getElem?_range_cast below, Option.map_some',
    Option.some.injEq, Int.add_comm n, apply_ite (SigBit.eval σ), msb, getD, constEval, Nat.cast_max,
    max_le_iff]
  -- the positions below `0`, inside `a`, inside the padding, and past both
  cases aSigned <;>
    simp only [Bool.true_and, Bool.false_and, decide_eq_true_eq, Bool.or_eq_true, true_and, false_and,
      if_false, if_true, Bool.false_eq_true] <;>
    split_ifs <;> first | rfl | exact ⟨rfl, rfl⟩ | omega

theorem shift_slice_of_signed_bit :
    SigSpec.isFullyConst [.wire (.fresh 0) 0] = false ∧
      (∀ bit ∈ [SigBit.const .S1], bit = .const .S0 ∨ bit = .const .S1) ∧
      [SigBit.const .S1].length < 24 ∧ Const.toInt? false (SigSpec.asConst [.const .S1]) = some 1 ∧
      ∃ r, Builder.shift [.wire (.fresh 0) 0] true [.const .S1] false 1 {} = .ok (r, {}) ∧
        r.length = 1 ∧ ∀ σ, ∀ j : Nat, j < 1 →
          if true = true ∧ max 1 1 ≤ (j : Int) + 1 then
            (r.eval σ)[j]? = some ((SigSpec.msb [.wire (.fresh 0) 0]).eval σ) ∧
              (Cell.eval σ { type := .shift, a := [.wire (.fresh 0) 0], b := [.const .S1]
                             y := [.wire (.fresh 1) 0], aSigned := true, bSigned := false })[j]? =
                some .S0
          else (r.eval σ)[j]? = (Cell.eval σ { type := .shift, a := [.wire (.fresh 0) 0]
                                               b := [.const .S1], y := [.wire (.fresh 1) 0]
                                               aSigned := true, bSigned := false })[j]? :=
  ⟨rfl, by decide, by decide, rfl,
    @shift_slice_repeats_sign_past_cell {} [.wire (.fresh 0) 0] [.const .S1] true false 1 rfl (by decide)
      (by decide) rfl [.wire (.fresh 1) 0]⟩

end SlangFrontend.Verified.BuilderShortcuts
