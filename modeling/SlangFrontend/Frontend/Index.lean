import SlangFrontend.Frontend.Equations

/-! # What `translate_index` computes

`translate_index` turns a lowered index into a valid bit and a raw index: two comparison cells
against the bounds of the range, a `$logic_and` of them, and a `$sub` from the right bound, of
which the raw index keeps `ceil_log2(width)` bits. The comparisons and the subtraction are signed;
an unsigned index gets a zero on top first, so that it reads the same.

`translateIndex_spec` says what the two signals read, for any index expression, in the module
`translate_index` leaves and in every module grown from it. It assumes the bounds fit in 32 bits,
as slang's `ConstantRange` holds them.
-/

namespace SlangFrontend.Frontend

open Rtlil Ast

/-- The index as `translate_index` compares it reads as the index does. -/
theorem toInt?_signedIndex (signed : Bool) (c : Const) :
    Const.toInt? true (if signed then c else c ++ [.S0]) = Const.toInt? signed c := by
  cases signed
  · exact Const.toInt?_append_zero c
  · rfl

section Values

variable {range : ConstantRange} (bounds : -2 ^ 31 ≤ range.lower ∧ range.upper < 2 ^ 31)
include bounds

theorem toInt?_bound {v : Int} (within : range.lower ≤ v ∧ v ≤ range.upper) :
    Const.toInt? true (Const.ofInt 32 v) = some v :=
  Const.toInt?_ofInt (by omega) (by omega)

/-- The valid bit: one when the index is in the range, zero when it is outside, `x` when it has
an unknown bit. -/
theorem validBit_value (signed : Bool) (c : Const) :
    let i := if signed then c else c ++ [.S0]
    constLogicAnd (constLe i (Const.ofInt 32 range.upper) true true 1)
        (constGe i (Const.ofInt 32 range.lower) true true 1) 1 =
      [((Const.toInt? signed c).map fun x => State.ofBool (range.containsPoint x)).getD .Sx] := by
  have ordered : range.lower ≤ range.upper := by
    simp only [ConstantRange.lower, ConstantRange.upper]; omega
  have upper := toInt?_bound bounds ⟨ordered, Int.le_refl _⟩
  have lower := toInt?_bound bounds ⟨Int.le_refl _, ordered⟩
  intro i
  have read : Const.toInt? true i = Const.toInt? signed c := toInt?_signedIndex signed c
  cases known : Const.toInt? signed c with
  | none =>
    rw [known] at read
    simp [constLe, constGe, constCompare, read, constLogicAnd, Const.bitResult, Const.truth,
      State.lor, State.land]
  | some x =>
    rw [known] at read
    simp [constLe, constGe, constCompare_of_toInt? read upper, constCompare_of_toInt? read lower,
      constLogicAnd, Const.bitResult, ConstantRange.containsPoint, Bool.and_comm]

/-- The raw index: the distance from the right bound, modulo `2 ^ width`, or all `x` when the
index has an unknown bit. -/
theorem rawIndex_value (signed : Bool) (c : Const) {width : Nat} (short : width < 32) :
    let i := if signed then c else c ++ [.S0]
    (if range.right < range.left then
        constSub i (Const.ofInt 32 range.right) true true (max i.length 32)
      else constSub (Const.ofInt 32 range.right) i true true (max 32 i.length)).take width =
      ((Const.toInt? signed c).map fun x => Const.ofInt width
        (if range.right < range.left then x - range.right else range.right - x)).getD
        (List.replicate width .Sx) := by
  have right := toInt?_bound bounds (v := range.right)
    (by simp only [ConstantRange.lower, ConstantRange.upper]; omega)
  intro i
  have read : Const.toInt? true i = Const.toInt? signed c := toInt?_signedIndex signed c
  have long : width ≤ max i.length 32 ∧ width ≤ max 32 i.length := by omega
  cases known : Const.toInt? signed c with
  | none =>
    rw [known] at read
    split <;> simp [constSub, constArith, read, right, List.take_replicate, long]
  | some x =>
    rw [known] at read
    split <;> simp [constSub, constArith, read, right, Const.take_ofInt _ long.1,
      Const.take_ofInt _ long.2]

end Values

/-- Inside the range, the difference `translate_index` subtracts is slang's `translateIndex`; the
two agree on the order of a range of one element. -/
theorem distance_eq_translateIndex {range : ConstantRange} {v : Int}
    (inside : range.containsPoint v) :
    (if range.right < range.left then v - range.right else range.right - v) =
      range.translateIndex v := by
  simp only [ConstantRange.containsPoint, ConstantRange.lower, ConstantRange.upper,
    Bool.and_eq_true, decide_eq_true_eq] at inside
  unfold ConstantRange.translateIndex
  split_ifs <;> omega

variable {subroutines : Subroutines} {fuel : Nat} {ctx : Option ProcedureContext}
  {mod mod1 : Module}

/-- `translate_index` on an index expression lowered to `idx`, where `read σ` is what the index
reads as a number under the valuation `σ`. -/
theorem translateIndex_spec {idxexpr : Expr} {range : ConstantRange} {idx : SigSpec}
    (lowered : evaluateRhs subroutines fuel idxexpr ctx mod = .ok (idx, mod1))
    (made : ∀ bit ∈ idx, bit.madeBefore mod1.nextId)
    (bounds : -2 ^ 31 ≤ range.lower ∧ range.upper < 2 ^ 31) :
    let read := fun σ =>
      Const.toInt? idxexpr.type.isSigned (idx.eval (Module.evalCells mod1.cells σ))
    ∃ rawIdx valid mod2,
      translateIndex subroutines (fuel + 1) idxexpr range ctx mod = .ok ((rawIdx, valid), mod2) ∧
      Module.Extends mod1 mod2 ∧ rawIdx.length = ceilLog2 range.width ∧
      Module.Reads mod2 [valid]
        (fun σ => [((read σ).map fun x => State.ofBool (range.containsPoint x)).getD .Sx]) ∧
      Module.Reads mod2 rawIdx (fun σ => ((read σ).map fun x => Const.ofInt (ceilLog2 range.width)
        (if range.right < range.left then x - range.right else range.right - x)).getD
        (List.replicate (ceilLog2 range.width) .Sx)) := by
  intro read
  rw [translateIndex_succ lowered]
  generalize signedIdx : (if idxexpr.type.isSigned then idx else idx ++ [.const .S0]) = idx'
  let value : Valuation → Const := fun σ =>
    if idxexpr.type.isSigned then idx.eval (Module.evalCells mod1.cells σ)
    else idx.eval (Module.evalCells mod1.cells σ) ++ [.S0]
  have readsIdx : Module.Reads mod1 idx' value := by
    subst signedIdx
    by_cases signed : idxexpr.type.isSigned
    · simpa [value, signed] using Module.Reads.self made
    · simpa [value, signed] using (Module.Reads.self made).append (Module.Reads.const [.S0])
  have lenIdx (σ : Valuation) : (value σ).length = idx'.length := by
    subst signedIdx; simp only [value]; split <;> simp
  have readsInt (v : Int) (m : Module) : m.Reads (constInt32 v) fun _ => Const.ofInt 32 v :=
    Module.Reads.const _
  -- the comparisons and their conjunction
  obtain ⟨le, modLe, runLe, growsLe, -, readsLe⟩ := Module.emit_reads .le true true 1 readsIdx
    (readsInt range.upper mod1) Module.Reads.nil (fun _ => by simp [CellType.eval, constLe])
  obtain ⟨ge, modGe, runGe, growsGe, -, readsGe⟩ := Module.emit_reads .ge true true 1
    (readsIdx.mono growsLe) (readsInt range.lower modLe) Module.Reads.nil
    (fun _ => by simp [CellType.eval, constGe])
  obtain ⟨valid, modValid, runValid, growsValid, lenValid, readsValid⟩ := Module.emit_reads
    .logicAnd false false 1 (readsLe.mono growsGe) readsGe Module.Reads.nil
    (fun _ => by simp [CellType.eval, constLogicAnd])
  -- the subtraction, one way round or the other
  have sub : ∃ y modSub,
      (if range.right < range.left then Module.sub idx' (constInt32 range.right) true
        else Module.sub (constInt32 range.right) idx' true) modValid = (y, modSub) ∧
      Module.Extends modValid modSub ∧ ceilLog2 range.width < y.length ∧
      Module.Reads modSub y fun σ =>
        if range.right < range.left then
          constSub (value σ) (Const.ofInt 32 range.right) true true (max (value σ).length 32)
        else constSub (Const.ofInt 32 range.right) (value σ) true true (max 32 (value σ).length) := by
    have readsIdx' := ((readsIdx.mono growsLe).mono growsGe).mono growsValid
    have short := ceilLog2_lt range.width
    split
    · obtain ⟨y, modSub, run, grows, len, reads⟩ := Module.emit_reads .sub
        true true (max idx'.length 32) readsIdx' (readsInt range.right modValid) Module.Reads.nil
        (fun _ => by simp [CellType.eval, constSub])
      exact ⟨y, modSub, run, grows, by omega, reads.congr fun σ => by simp [CellType.eval, lenIdx]⟩
    · obtain ⟨y, modSub, run, grows, len, reads⟩ := Module.emit_reads .sub
        true true (max 32 idx'.length) (readsInt range.right modValid) readsIdx' Module.Reads.nil
        (fun _ => by simp [CellType.eval, constSub])
      exact ⟨y, modSub, run, grows, by omega, reads.congr fun σ => by simp [CellType.eval, lenIdx]⟩
  obtain ⟨y, modSub, runSub, growsSub, longSub, readsSub⟩ := sub
  obtain ⟨validBit, rfl⟩ : ∃ bit, valid = [bit] := by
    match valid, lenValid with
    | [bit], _ => exact ⟨bit, rfl⟩
  have cropped : y.extendU0 (ceilLog2 range.width) = y.take (ceilLog2 range.width) := if_pos longSub
  refine ⟨y.take (ceilLog2 range.width), validBit, modSub, ?_,
    ((growsLe.trans growsGe).trans growsValid).trans growsSub, by simp; omega,
    (readsValid.mono growsSub).congr fun σ => validBit_value bounds _ _,
    (readsSub.take _).congr fun σ => rawIndex_value bounds _ _ (ceilLog2_lt _)⟩
  simp only [Module.le, Module.ge, Module.logicAnd, Module.binary, BuildM.modifyGet_bind]
  rw [runLe]
  simp only
  rw [runGe]
  simp only
  rw [runValid]
  simp only
  split <;> simp_all

end SlangFrontend.Frontend
