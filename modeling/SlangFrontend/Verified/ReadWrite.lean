import SlangFrontend.Frontend.Index
import SlangFrontend.Verified.Masking

/-! # Reading an lvalue reads the bits it writes

`evaluate_lhs` finds the wire bits an lvalue names with slang's own arithmetic on constants:
`translateIndex` of a constant index times the element's width. `evaluate_rhs` reads the same
expression through cells: the select offsets of a range select, and for an element select the
`$sub`/`$le`/`$ge` cells of `translate_index`, an `$bmux` over the base padded with `x` and a
`$mux` on the valid bit.

`ReadsBack e lhs` says that with enough fuel, from any module, `evaluate_rhs` reads `e` as a
signal that evaluates, in the module it leaves and in every module grown from it, to the bits
`lhs` had before. `readsBack_of_lvalue` proves it for every lvalue `evaluate_lhs` accepts, by
induction over the lvalue, with one lemma per kind of node; `rhs_reads_lhs_bits` is the
statement over the module `evaluate_rhs` leaves.

The lvalues are those of the frontend's fragment as slang elaborates them (`Lvalue`): no node is
folded to a constant, the element index is a constant of its own type inside the range, and an
array is laid out as its elements one after the other.
-/

namespace SlangFrontend.Verified.ReadWrite

open Rtlil Ast Frontend

variable (subroutines : Subroutines)

/-- `evaluate_rhs` reads `e`, without a procedure context, as the bits `lhs` of the module's
wires, and `lhs` names bits of declared wires only, as many as `e`'s type has. -/
def ReadsBack (e : Expr) (lhs : SigSpec) : Prop :=
  lhs.length = e.type.bitstreamWidth ∧ (∀ bit ∈ lhs, bit.madeBefore 0) ∧
  ∃ enough, ∀ fuel ≥ enough, ∀ mod, ∃ rhs mod',
    evaluateRhs subroutines fuel e none mod = .ok (rhs, mod') ∧ Module.Extends mod mod' ∧
    rhs.length = lhs.length ∧ Module.Reads mod' rhs fun σ => lhs.eval (Module.evalCells mod.cells σ)

variable {subroutines}

/-! ## One lemma per kind of lvalue -/

theorem readsBack_named {type : SvType} {symbol : Symbol}
    (kind : symbol.kind = .net ∨ symbol.kind = .variable) (body : symbol.inInstanceBody = true)
    {lhs : SigSpec} (accepted : evaluateLhs (.namedValue type none symbol) = .ok lhs) :
    ReadsBack subroutines (.namedValue type none symbol) lhs := by
  rw [evaluateLhs_namedValue] at accepted
  obtain ⟨rfl, -, width⟩ := checkWidth_ok accepted
  have made : ∀ bit ∈ Module.wire symbol.id symbol.type.bitstreamWidth, bit.madeBefore 0 := by
    simp [Module.wire, Module.wireBits, SigBit.madeBefore]
  refine ⟨width, made, 1, fun fuel enough mod => ?_⟩
  obtain ⟨fuel, rfl⟩ : ∃ f, fuel = f + 1 := ⟨fuel - 1, by omega⟩
  exact ⟨_, mod, evaluateRhs_namedValue kind body accepted, .refl mod, rfl,
    Module.Reads.self fun bit mem => SigBit.madeBefore_mono (Nat.zero_le _) (made bit mem)⟩

theorem readsBack_rangeSelect {type : SvType} {value left right : Expr} {lhs : SigSpec}
    (inner : ∀ {base}, evaluateLhs value = .ok base → ReadsBack subroutines value base)
    (accepted : evaluateLhs (.rangeSelect type none .simple value left right) = .ok lhs) :
    ReadsBack subroutines (.rangeSelect type none .simple value left right) lhs := by
  rw [evaluateLhs_rangeSelect] at accepted
  obtain ⟨_, -, accepted⟩ := except_ok_of_bind_ok accepted
  obtain ⟨⟨rawLeft, rawRight, stride⟩, bounds, accepted⟩ := except_ok_of_bind_ok accepted
  obtain ⟨base, lowered, accepted⟩ := except_ok_of_bind_ok accepted
  obtain ⟨extracted, extract, accepted⟩ := except_ok_of_bind_ok accepted
  obtain ⟨rfl, fixed, width⟩ := checkWidth_ok accepted
  obtain ⟨rfl, -, -, -⟩ := extractChecked_ok extract
  obtain ⟨-, made, enough, reads⟩ := inner lowered
  refine ⟨width, fun bit mem => made bit (List.mem_of_mem_drop (List.mem_of_mem_take mem)),
    enough + 1, fun fuel more mod => ?_⟩
  obtain ⟨fuel, rfl⟩ : ∃ f, fuel = f + 1 := ⟨fuel - 1, by omega⟩
  obtain ⟨rhs, mod', run, grows, length, readsRhs⟩ := reads fuel (by omega) mod
  have sameLength (offset width : Nat) :
      (rhs.extract offset width).length = (base.extract offset width).length := by
    simp only [SigSpec.extract, List.length_take, List.length_drop, length]
  refine ⟨_, mod', evaluateRhs_rangeSelect bounds run (extractChecked_of_length extract length)
    (checkWidth_of fixed ((sameLength _ _).trans width)), grows, sameLength _ _, ?_⟩
  exact ((readsRhs.drop _).take _).congr fun σ => by simp [SigSpec.extract]

theorem readsBack_memberAccess {type : SvType} {value : Expr} {member : Member} {lhs : SigSpec}
    (inner : ∀ {base}, evaluateLhs value = .ok base → ReadsBack subroutines value base)
    (accepted : evaluateLhs (.memberAccess type none value member) = .ok lhs) :
    ReadsBack subroutines (.memberAccess type none value member) lhs := by
  rw [evaluateLhs_memberAccess] at accepted
  obtain ⟨_, field, accepted⟩ := except_ok_of_bind_ok accepted
  obtain ⟨_, randMode, accepted⟩ := except_ok_of_bind_ok accepted
  obtain ⟨base, lowered, extract⟩ := except_ok_of_bind_ok accepted
  obtain ⟨rfl, -, -, fits⟩ := extractChecked_ok extract
  obtain ⟨-, made, enough, reads⟩ := inner lowered
  refine ⟨by simp [SigSpec.extract, Expr.type]; omega,
    fun bit mem => made bit (List.mem_of_mem_drop (List.mem_of_mem_take mem)),
    enough + 1, fun fuel more mod => ?_⟩
  obtain ⟨fuel, rfl⟩ : ∃ f, fuel = f + 1 := ⟨fuel - 1, by omega⟩
  obtain ⟨rhs, mod', run, grows, length, readsRhs⟩ := reads fuel (by omega) mod
  exact ⟨_, mod', evaluateRhs_memberAccess (require_ok field) (require_ok randMode) run
    (extractChecked_of_length extract length), grows,
    by simp only [SigSpec.extract, List.length_take, List.length_drop, length],
    ((readsRhs.drop _).take _).congr fun σ => by simp [SigSpec.extract]⟩

/-- The loop of a concatenation: each operand's read goes below the ones before it, as each
operand's bits do. -/
theorem readsBack_concat {operands : List Expr}
    (inner : ∀ e ∈ operands, ∀ {lhs}, evaluateLhs e = .ok lhs → ReadsBack subroutines e lhs) :
    ∀ {retL lhs : SigSpec}, evaluateLhsConcat retL operands = .ok lhs →
      (∀ bit ∈ retL, bit.madeBefore 0) →
      (∀ bit ∈ lhs, bit.madeBefore 0) ∧ ∃ enough, ∀ fuel ≥ enough, ∀ mod₀ mod retR,
        Module.Extends mod₀ mod → retR.length = retL.length →
        Module.Reads mod retR (fun σ => retL.eval (Module.evalCells mod₀.cells σ)) →
        ∃ rhs mod', (operands.foldlM (fun ret operand => do
            pure ((← evaluateRhs subroutines fuel operand none) ++ ret)) retR : LowerM SigSpec) mod =
            .ok (rhs, mod') ∧
          Module.Extends mod mod' ∧ rhs.length = lhs.length ∧
          Module.Reads mod' rhs fun σ => lhs.eval (Module.evalCells mod₀.cells σ) := by
  induction operands with
  | nil =>
    intro retL lhs accepted made
    cases accepted
    exact ⟨made, 0, fun _ _ _ mod retR _ length reads =>
      ⟨retR, mod, rfl, .refl mod, length, reads⟩⟩
  | cons e es ih =>
    intro retL lhs accepted made
    simp only [evaluateLhsConcat] at accepted
    obtain ⟨bits, lowered, rest⟩ := except_ok_of_bind_ok accepted
    obtain ⟨-, madeBits, enoughE, readsE⟩ := inner e (List.mem_cons_self _ _) lowered
    have madeAll : ∀ bit ∈ bits ++ retL, bit.madeBefore 0 := fun bit mem =>
      (List.mem_append.mp mem).elim (madeBits bit) (made bit)
    obtain ⟨madeLhs, enoughEs, readsEs⟩ :=
      ih (fun e' mem => inner e' (List.mem_cons_of_mem _ mem)) rest madeAll
    refine ⟨madeLhs, max enoughE enoughEs, fun fuel more mod₀ mod retR grows length reads => ?_⟩
    obtain ⟨rhsE, mod1, runE, growsE, lengthE, readsRhsE⟩ := readsE fuel (by omega) mod
    have readsNext : Module.Reads mod1 (rhsE ++ retR)
        fun σ => (bits ++ retL).eval (Module.evalCells mod₀.cells σ) := by
      refine (readsRhsE.append (reads.mono growsE)).congr fun σ => ?_
      rw [SigSpec.eval_append, grows.eval_eq fun bit mem =>
        SigBit.madeBefore_mono (Nat.zero_le _) (madeBits bit mem)]
    obtain ⟨rhs, mod', run, grows', length', reads'⟩ := readsEs fuel (by omega) mod₀ mod1
      (rhsE ++ retR) (grows.trans growsE) (by simp [lengthE, length]) readsNext
    refine ⟨rhs, mod', ?_, growsE.trans grows', length', reads'⟩
    simp only [List.foldlM_cons, bind_assoc, pure_bind]
    rw [BuildM.bind_of_ok runE, run]

theorem readsBack_concatenation {type : SvType} {operands : List Expr} {lhs : SigSpec}
    (inner : ∀ e ∈ operands, ∀ {lhs}, evaluateLhs e = .ok lhs → ReadsBack subroutines e lhs)
    (accepted : evaluateLhs (.concatenation type none operands) = .ok lhs) :
    ReadsBack subroutines (.concatenation type none operands) lhs := by
  rw [evaluateLhs_concatenation] at accepted
  obtain ⟨bits, lowered, checked⟩ := except_ok_of_bind_ok accepted
  obtain ⟨rfl, fixed, width⟩ := checkWidth_ok checked
  obtain ⟨made, enough, reads⟩ := readsBack_concat inner lowered (by simp)
  refine ⟨width, made, enough + 1, fun fuel more mod => ?_⟩
  obtain ⟨fuel, rfl⟩ : ∃ f, fuel = f + 1 := ⟨fuel - 1, by omega⟩
  obtain ⟨rhs, mod', run, grows, length, readsRhs⟩ :=
    reads fuel (by omega) mod mod [] (.refl mod) rfl Module.Reads.nil
  refine ⟨rhs, mod', ?_, grows, length, readsRhs⟩
  rw [evaluateRhs_concatenation, BuildM.bind_of_ok run, checkWidth_of fixed (length ▸ width)]
  rfl

/-- What the `$bmux` of a padded base gives for an index `t` in range: the `t`-th element of the
base. -/
theorem bmux_select {base : Const} {stride width t : Nat} (inside : stride * t + stride ≤ base.length)
    (fits : base.length ≤ stride * 2 ^ width) (below : t < 2 ^ width) :
    constBmux (base ++ List.replicate (stride * 2 ^ width - base.length) .Sx) (Const.ofNat width t) =
      (base.drop (stride * t)).take stride := by
  have read : Const.toNat? (Const.ofNat width t) = some t := by
    rw [Const.toNat?_ofNat, Nat.mod_eq_of_lt below]
  have padded : (base ++ List.replicate (stride * 2 ^ width - base.length) State.Sx).length =
      stride * 2 ^ (Const.ofNat width t).length := by
    rw [Const.length_ofNat, List.length_append, List.length_replicate]
    omega
  rw [constBmux_of_toNat? read padded, List.drop_append_of_le_length (by omega),
    List.take_append_of_le_length (by simp; omega)]

/-- The cells of an element select: a `$bmux` over the base padded with `x`, at a raw index that
reads `t`, and a `$mux` on a valid bit that reads one, read the `t`-th element of the base. -/
theorem selectCells_reads {mod : Module} {base rawIdx : SigSpec} {valid : SigBit}
    {value : Valuation → Const} {stride t : Nat}
    (readsBase : Module.Reads mod base value) (lenValue : ∀ σ, (value σ).length = base.length)
    (readsRaw : Module.Reads mod rawIdx fun _ => Const.ofNat rawIdx.length t)
    (validOne : Module.Reads mod [valid] fun _ => [.S1])
    (fits : base.length ≤ stride * 2 ^ rawIdx.length) (inside : stride * t + stride ≤ base.length)
    (below : t < 2 ^ rawIdx.length) :
    ∃ selected mod1 y mod2,
      Module.bmux (base ++ SigSpec.ofState .Sx (stride * 2 ^ rawIdx.length - base.length)) rawIdx
        mod = (selected, mod1) ∧
      Module.mux (SigSpec.ofState .Sx stride) selected [valid] mod1 = (y, mod2) ∧
      Module.Extends mod mod2 ∧ y.length = stride ∧
      Module.Reads mod2 y fun σ => ((value σ).drop (stride * t)).take stride := by
  have padded : (base ++ SigSpec.ofState .Sx (stride * 2 ^ rawIdx.length - base.length)).length =
      stride * 2 ^ rawIdx.length := by
    rw [List.length_append, SigSpec.ofState, List.length_replicate]
    omega
  have strideEq : (base ++ SigSpec.ofState .Sx
      (stride * 2 ^ rawIdx.length - base.length)).length / 2 ^ rawIdx.length = stride := by
    rw [padded, Nat.mul_div_cancel _ (Nat.two_pow_pos _)]
  have bmuxValue (σ : Valuation) : constBmux
      (value σ ++ List.replicate (stride * 2 ^ rawIdx.length - base.length) .Sx)
      (Const.ofNat rawIdx.length t) = ((value σ).drop (stride * t)).take stride := by
    rw [← lenValue σ]
    exact bmux_select (by rw [lenValue]; omega) (by rw [lenValue]; omega) below
  obtain ⟨selected, mod1, run1, grows1, -, reads1⟩ := Module.emit_reads .bmux false false
    ((base ++ SigSpec.ofState .Sx (stride * 2 ^ rawIdx.length - base.length)).length /
      2 ^ rawIdx.length)
    (readsBase.append (Module.Reads.ofState .Sx _)) Module.Reads.nil readsRaw
    (fun σ => by
      rw [strideEq, CellType.eval, bmuxValue, List.length_take, List.length_drop, lenValue]
      omega)
  obtain ⟨y, mod2, run2, grows2, len2, reads2⟩ := Module.emit_reads .mux false false
    (SigSpec.ofState .Sx stride).length (Module.Reads.ofState .Sx _) reads1 (validOne.mono grows1)
    (fun σ => by
      simp only [CellType.eval, constMux, List.headD_cons, bmuxValue, List.length_take,
        List.length_drop, lenValue, SigSpec.ofState, List.length_replicate]
      omega)
  refine ⟨selected, mod1, y, mod2, run1, run2, grows1.trans grows2,
    by rw [len2, SigSpec.ofState, List.length_replicate], reads2.congr fun σ => ?_⟩
  simp only [CellType.eval, constMux, List.headD_cons, bmuxValue]

/-- `translate_index` of an index slang folded to a constant `i` inside the range: the valid bit
reads one and the raw index reads `i`'s position in the range. -/
theorem translateIndex_of_constant {selector : Expr} {index : SVInt} {range : ConstantRange}
    {i : Int} (folded : selector.constant = some (.integer index))
    (signed : index.signed = selector.type.isSigned) (fixed : selector.type.isFixedSize)
    (width : index.bits.length = selector.type.bitstreamWidth) (read : index.toInt? = some i)
    (inRange : range.containsPoint i) (bounds : -2 ^ 31 ≤ range.lower ∧ range.upper < 2 ^ 31)
    (fuel : Nat) (mod : Module) :
    ∃ rawIdx valid mod2,
      translateIndex subroutines (fuel + 2) selector range none mod = .ok ((rawIdx, valid), mod2) ∧
      Module.Extends mod mod2 ∧ rawIdx.length = ceilLog2 range.width ∧
      Module.Reads mod2 [valid] (fun _ => [.S1]) ∧
      Module.Reads mod2 rawIdx fun _ =>
        Const.ofNat (ceilLog2 range.width) (range.translateIndex i).toNat := by
  have selectorRun : evaluateRhs subroutines (fuel + 1) selector none mod =
      .ok ((svintConst index).toSig, mod) :=
    evaluateRhs_constant folded (checkWidth_of fixed (by simp [width]))
  obtain ⟨rawIdx, valid, mod2, run, grows, length, readsValid, readsRaw⟩ :=
    translateIndex_spec selectorRun (Const.toSig_made _ _) bounds
  have readIdx : Const.toInt? selector.type.isSigned (svintConst index) = some i := by
    rw [← signed, toInt?_svintConst, read]
  have nonneg := (ConstantRange.translateIndex_lt_width inRange).1
  refine ⟨rawIdx, valid, mod2, run, grows, length,
    readsValid.congr fun σ => by simp [readIdx, inRange, State.ofBool],
    readsRaw.congr fun σ => ?_⟩
  simp only [Const.eval_toSig, readIdx, Option.map_some', Option.getD_some,
    distance_eq_translateIndex inRange]
  rw [← Const.ofInt_natCast, Int.toNat_of_nonneg nonneg]

/-- A constant element select: the index, lowered by `translate_index`, reads `t` and the valid
bit reads one, so the `$bmux` gives the `t`-th element and the `$mux` passes it through. -/
theorem readsBack_elementSelect {type : SvType} {value selector : Expr} {index : SVInt}
    (folded : selector.constant = some (.integer index))
    (signed : index.signed = selector.type.isSigned) (fixed : selector.type.isFixedSize)
    (width : index.bits.length = selector.type.bitstreamWidth)
    (inside : ∀ i, index.toInt? = some i → value.type.fixedRange.containsPoint i)
    (bounds : -2 ^ 31 ≤ value.type.fixedRange.lower ∧ value.type.fixedRange.upper < 2 ^ 31)
    (small : value.type.fixedRange.width < 2 ^ 31)
    (layout : value.type.bitstreamWidth = value.type.fixedRange.width * type.bitstreamWidth)
    (inner : ∀ {base}, evaluateLhs value = .ok base → ReadsBack subroutines value base)
    {lhs : SigSpec} (accepted : evaluateLhs (.elementSelect type none value selector) = .ok lhs) :
    ReadsBack subroutines (.elementSelect type none value selector) lhs := by
  rw [evaluateLhs_elementSelect] at accepted
  obtain ⟨_, -, accepted⟩ := except_ok_of_bind_ok accepted
  obtain ⟨_, arrayed, accepted⟩ := except_ok_of_bind_ok accepted
  obtain ⟨i, known, accepted⟩ := except_ok_of_bind_ok accepted
  obtain ⟨base, lowered, accepted⟩ := except_ok_of_bind_ok accepted
  obtain ⟨_, extract, checked⟩ := except_ok_of_bind_ok accepted
  obtain ⟨rfl, fixedType, widthType⟩ := checkWidth_ok checked
  obtain ⟨rfl, -, -, fits⟩ := extractChecked_ok extract
  rw [folded] at known
  have read := constantInt_ok known
  have inRange := inside i read
  obtain ⟨lenBase, made, enough, reads⟩ := inner lowered
  obtain ⟨nonneg, within⟩ := ConstantRange.translateIndex_lt_width inRange
  generalize ht : (value.type.fixedRange.translateIndex i).toNat = t
  have offset : (↑type.bitstreamWidth * value.type.fixedRange.translateIndex i).toNat =
      type.bitstreamWidth * t := by
    rw [← ht, ← Int.toNat_of_nonneg nonneg, ← Int.natCast_mul, Int.toNat_natCast, Int.toNat_natCast]
  refine ⟨widthType, fun bit mem => made bit (List.mem_of_mem_drop (List.mem_of_mem_take mem)),
    max enough 2 + 1, fun fuel more mod => ?_⟩
  obtain ⟨fuel, rfl⟩ : ∃ f, fuel = f + 1 := ⟨fuel - 1, by omega⟩
  obtain ⟨baseR, mod1, runBase, grows1, lenR, readsBase⟩ := reads fuel (by omega) mod
  obtain ⟨f, rfl⟩ : ∃ f, fuel = f + 1 := ⟨fuel - 1, by omega⟩
  obtain ⟨g, rfl⟩ : ∃ g, f = g + 1 := ⟨f - 1, by omega⟩
  obtain ⟨rawIdx, valid, mod2, runIdx, grows2, lenIdx, validOne, rawT⟩ :=
    translateIndex_of_constant folded signed fixed width read inRange bounds g mod1
  rw [ht] at rawT
  have divides : baseR.length % type.bitstreamWidth = 0 := by
    rw [lenR, lenBase, layout, Nat.mul_mod_left]
  have fitsLen : baseR.length ≤ type.bitstreamWidth * 2 ^ rawIdx.length := by
    rw [lenR, lenBase, layout, lenIdx, Nat.mul_comm]
    exact Nat.mul_le_mul_left _ (le_two_pow_ceilLog2 small)
  rw [evaluateRhs_elementSelect (require_ok arrayed) runBase divides runIdx fitsLen]
  have widthLe := le_two_pow_ceilLog2 small
  have inside' : type.bitstreamWidth * t + type.bitstreamWidth ≤ baseR.length := by
    rw [← Int.toNat_of_nonneg nonneg, ht, ← Int.natCast_mul] at fits
    omega
  rw [← lenIdx] at rawT
  obtain ⟨selected, mod3, y, mod4, run3, run4, grows4, len4, reads4⟩ :=
    selectCells_reads (readsBase.mono grows2) (fun σ => by rw [SigSpec.length_eval, lenR]) rawT
      validOne fitsLen inside' (by rw [lenIdx]; omega)
  simp only [BuildM.modifyGet_bind, run3, run4]
  refine ⟨y, mod4, ?_, grows1.trans (grows2.trans grows4), ?_, reads4.congr fun σ => ?_⟩
  · rw [checkWidth_of fixedType (by simpa [SigSpec.ofState] using len4)]
    rfl
  · simp only [len4, SigSpec.extract, List.length_take, List.length_drop, offset, Int.toNat_natCast]
    omega
  · simp only [SigSpec.eval_extract, offset, Int.toNat_natCast]

/-! ## Lvalues -/

/-- The lvalues `evaluate_lhs` handles, with what slang guarantees of them: nets and variables of
the instance body, simple range selects, element selects whose index slang folded to a constant
of the index's type inside the range of an array laid out element by element (with bounds in
32 bits), member accesses and concatenations. No node is itself folded to a constant. -/
inductive Lvalue : Expr → Prop
  | named {type : SvType} {symbol : Symbol} (kind : symbol.kind = .net ∨ symbol.kind = .variable)
      (body : symbol.inInstanceBody = true) : Lvalue (.namedValue type none symbol)
  | rangeSelect {type : SvType} {value left right : Expr} (inner : Lvalue value) :
      Lvalue (.rangeSelect type none .simple value left right)
  | elementSelect {type : SvType} {value selector : Expr} {index : SVInt}
      (folded : selector.constant = some (.integer index))
      (signed : index.signed = selector.type.isSigned) (fixed : selector.type.isFixedSize)
      (width : index.bits.length = selector.type.bitstreamWidth)
      (inside : ∀ i, index.toInt? = some i → value.type.fixedRange.containsPoint i)
      (bounds : -2 ^ 31 ≤ value.type.fixedRange.lower ∧ value.type.fixedRange.upper < 2 ^ 31)
      (small : value.type.fixedRange.width < 2 ^ 31)
      (layout : value.type.bitstreamWidth = value.type.fixedRange.width * type.bitstreamWidth)
      (inner : Lvalue value) : Lvalue (.elementSelect type none value selector)
  | memberAccess {type : SvType} {value : Expr} {member : Member} (inner : Lvalue value) :
      Lvalue (.memberAccess type none value member)
  | concatenation {type : SvType} {operands : List Expr} (inner : ∀ e ∈ operands, Lvalue e) :
      Lvalue (.concatenation type none operands)

theorem readsBack_of_lvalue {e : Expr} (lvalue : Lvalue e) :
    ∀ {lhs}, evaluateLhs e = .ok lhs → ReadsBack subroutines e lhs := by
  induction lvalue with
  | named kind body => exact readsBack_named kind body
  | rangeSelect _ ih => exact readsBack_rangeSelect ih
  | elementSelect folded signed fixed width inside bounds small layout _ ih =>
    exact readsBack_elementSelect folded signed fixed width inside bounds small layout ih
  | memberAccess _ ih => exact readsBack_memberAccess ih
  | concatenation _ ih => exact readsBack_concatenation ih

/-- With enough fuel, from any module, `evaluate_rhs` reads an lvalue as a signal that evaluates,
under every valuation, bit for bit to the wire bits `evaluate_lhs` returns for it. -/
theorem rhs_reads_lhs_bits {e : Expr} (lvalue : Lvalue e) {lhs : SigSpec}
    (accepted : evaluateLhs e = .ok lhs) :
    ∃ enough, ∀ fuel ≥ enough, ∀ mod, ∃ rhs mod',
      evaluateRhs subroutines fuel e none mod = .ok (rhs, mod') ∧
      ∀ σ, rhs.eval (Module.evalCells mod'.cells σ) = lhs.eval (Module.evalCells mod'.cells σ) := by
  obtain ⟨-, made, enough, reads⟩ := readsBack_of_lvalue lvalue accepted
  refine ⟨enough, fun fuel more mod => ?_⟩
  obtain ⟨rhs, mod', run, grows, -, readsRhs⟩ := reads fuel more mod
  refine ⟨rhs, mod', run, fun σ => (readsRhs.eval_eq mod' (.refl _) σ).trans ?_⟩
  exact (grows.eval_eq (fun bit mem => SigBit.madeBefore_mono (Nat.zero_le _) (made bit mem)) σ).symm

open Masking in
/-- `{word[1], word[2:1]}` with `logic [2:0] word`. -/
def wordSlices : Expr := .concatenation tripleType none
  [.elementSelect bitType none (ref word) (intLiteral 1),
   .rangeSelect pairType none .simple (ref word) (intLiteral 2) (intLiteral 1)]

open Masking in
theorem word_slices_read_back :
    ∃ enough, ∀ fuel ≥ enough, ∀ mod, ∃ rhs mod',
      evaluateRhs noSubroutines fuel wordSlices none mod = .ok (rhs, mod') ∧
      ∀ σ, rhs.eval (Module.evalCells mod'.cells σ) =
        SigSpec.eval (Module.evalCells mod'.cells σ)
          [.wire (.net word.id) 1, .wire (.net word.id) 2, .wire (.net word.id) 1] :=
  rhs_reads_lhs_bits (.concatenation fun e mem => by
    simp only [List.mem_cons, List.mem_singleton, List.not_mem_nil, or_false] at mem
    rcases mem with rfl | rfl
    · exact .elementSelect rfl rfl rfl rfl (by decide) (by decide) (by decide) rfl
        (.named (.inr rfl) rfl)
    · exact .rangeSelect (.named (.inr rfl) rfl)) (by decide)

end SlangFrontend.Verified.ReadWrite
