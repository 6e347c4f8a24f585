import SlangFrontend.Frontend.Index
import SlangFrontend.Verified.Masking

/-! # The valid bit and the raw index of `translate_index`

`translate_index` compares the index with the bounds of the range and subtracts it from the right
bound, or the right bound from it, keeping `ceil_log2(width)` bits of the difference.
`valid_bit_guards_translated_index` says what the two signals evaluate to, for any index
expression lowered to a signal of the module, any width and signedness of the index and any
value of it: the valid bit is one exactly on the range, and there the raw index reads slang's
`translateIndex`.

The bounds are 32-bit (`bounds`), and the range has fewer than `2 ^ 31` elements (`narrow`), as
every range that reaches `translate_index` has: `evaluate_rhs` lowers the array of an element
select to a signal before it translates the index, every element is at least one bit wide, and
slang rejects an object of `2 ^ 31` bits or more (a wire's width is an `int`). On such a range
`ceil_log2(width)` is taken of a positive `int`, and the raw index is wide enough to hold every
offset into the range.
-/

namespace SlangFrontend.Verified.IndexTranslation

open Rtlil Ast Frontend

variable {subroutines : Subroutines} {fuel : Nat} {ctx : Option ProcedureContext} {mod mod1 : Module}

theorem valid_bit_guards_translated_index {idxexpr : Expr} {range : ConstantRange} {idx : SigSpec}
    (lowered : evaluateRhs subroutines fuel idxexpr ctx mod = .ok (idx, mod1))
    (made : ∀ bit ∈ idx, bit.madeBefore mod1.nextId)
    (bounds : -2 ^ 31 ≤ range.lower ∧ range.upper < 2 ^ 31) (narrow : range.width < 2 ^ 31) :
    ∃ rawIdx valid mod2,
      translateIndex subroutines (fuel + 1) idxexpr range ctx mod = .ok ((rawIdx, valid), mod2) ∧
      rawIdx.length = ceilLog2 range.width ∧
      ∀ σ v, Const.toInt? idxexpr.type.isSigned (idx.eval (Module.evalCells mod2.cells σ)) = some v →
        valid.eval (Module.evalCells mod2.cells σ) = State.ofBool (range.containsPoint v) ∧
        (range.containsPoint v → Const.toInt? false (rawIdx.eval (Module.evalCells mod2.cells σ)) =
          some (range.translateIndex v)) := by
  obtain ⟨rawIdx, valid, mod2, run, grows, length, readsValid, readsRaw⟩ :=
    translateIndex_spec lowered made bounds
  refine ⟨rawIdx, valid, mod2, run, length, fun σ v read => ?_⟩
  rw [grows.eval_eq made σ] at read
  have validBit := readsValid.eval_eq mod2 (.refl mod2) σ
  have rawBits := readsRaw.eval_eq mod2 (.refl mod2) σ
  simp only [read, Option.map_some', Option.getD_some] at validBit rawBits
  refine ⟨List.head_eq_of_cons_eq validBit, fun inside => ?_⟩
  have offset := ConstantRange.translateIndex_lt_width inside
  have fits : (range.width : Int) ≤ 2 ^ ceilLog2 range.width := by
    exact_mod_cast le_two_pow_ceilLog2 narrow
  rw [rawBits, distance_eq_translateIndex inside]
  exact Const.toInt?_ofInt_unsigned offset.1 (by omega)

open Masking in
theorem valid_bit_guards_index_of_bit :
    evaluateRhs noSubroutines 1 (ref a) none {} = .ok (Module.wire a.id 1, {}) ∧
      (∀ bit ∈ Module.wire a.id 1, bit.madeBefore ({} : Module).nextId) ∧
      (-2 ^ 31 ≤ ConstantRange.lower ⟨2, 0⟩ ∧ ConstantRange.upper ⟨2, 0⟩ < 2 ^ 31) ∧
      ConstantRange.width ⟨2, 0⟩ < 2 ^ 31 ∧
      ∃ rawIdx valid mod2,
        translateIndex noSubroutines 2 (ref a) ⟨2, 0⟩ none {} = .ok ((rawIdx, valid), mod2) ∧
        rawIdx.length = ceilLog2 (ConstantRange.width ⟨2, 0⟩) ∧
        ∀ σ v, Const.toInt? (ref a).type.isSigned
            ((Module.wire a.id 1).eval (Module.evalCells mod2.cells σ)) = some v →
          valid.eval (Module.evalCells mod2.cells σ) =
              State.ofBool (ConstantRange.containsPoint ⟨2, 0⟩ v) ∧
            (ConstantRange.containsPoint ⟨2, 0⟩ v →
              Const.toInt? false (rawIdx.eval (Module.evalCells mod2.cells σ)) =
                some (ConstantRange.translateIndex ⟨2, 0⟩ v)) :=
  have lowered : evaluateRhs noSubroutines 1 (ref a) none {} = .ok (Module.wire a.id 1, {}) :=
    evaluateRhs_namedValue (.inr rfl) rfl rfl
  have made : ∀ bit ∈ Module.wire a.id 1, bit.madeBefore ({} : Module).nextId := by
    simp [Module.wire, Module.wireBits, SigBit.madeBefore]
  ⟨lowered, made, by decide, by decide,
    valid_bit_guards_translated_index lowered made (by decide) (by decide)⟩

end SlangFrontend.Verified.IndexTranslation
