import SlangFrontend.Frontend.Lhs

/-! # Initial values of unpacked arrays

`handle(VariableSymbol)` gives a variable the `init` attribute `const_const(v)` of its initial
value. For an unpacked value, `const_const` puts each element in front of the ones before it
(`ret.bits.insert(ret.bits.begin(), ...)`), so the element of the left bound ends up most
significant. A select `x[i]` reads `x` at `stride * translateIndex(i)` bits from the least
significant end, in `evaluate_lhs` and `evaluate_rhs` alike.

`layout` is the bit layout `const_const` builds, stated without failure, and `select` finds
the element an index path names, with the offset the selects read it at. The main theorem says
that for every constant of an unpacked array type, nested to any depth over packed integral
elements, `const_const` succeeds and computes `layout`, of the type's width, and that the bits
at the offset of every in-range index path are the layout of the element it names: the
`svint_const` of the element, at a packed leaf. `evaluateLhs_at_select_offset` closes the
loop on the other side: the element selects of the same index path, on an lvalue of the array's
type, extract from the bits `evaluate_lhs` finds for it exactly the bits at that offset, and
`evaluate_rhs` reads the bits `evaluate_lhs` finds for the same lvalue (`rhs_reads_lhs_bits` in
`ReadWrite`).
-/

namespace SlangFrontend.Verified.InitLayout

open Rtlil Ast Frontend

/-- A constant of a type: an integer of an integral type's width, or as many elements as an
unpacked array's range holds, each a constant of the element type. -/
inductive Typed : ConstantValue → SvType → Prop
  | integer {value : SVInt} {type : SvType} (integral : type.isIntegral)
      (width : value.bits.length = type.bitstreamWidth) : Typed (.integer value) type
  | unpacked {elements : List ConstantValue} {elem : SvType} {range : ConstantRange}
      (count : elements.length = range.width) (each : ∀ e ∈ elements, Typed e elem) :
      Typed (.unpacked elements) (.unpackedArray elem range)

mutual
/-- The bits a constant stands for, least significant first: an unpacked value puts the
element of its left bound at the top. -/
def layout : ConstantValue → Const
  | .integer v => svintConst v
  | .unpacked elements => layoutElements elements
  | .string s => stringBits s
  | .other => []
/-- The elements of an unpacked value, the first one most significant. -/
def layoutElements : List ConstantValue → Const
  | [] => []
  | e :: es => layoutElements es ++ layout e
end

/-- The element an index path names, its type, and the bit offset the selects read it at: at
each level, the element stride times the translated index. The elements of an unpacked value
are listed from the left bound, so index `i` names element `width - 1 - translateIndex(i)`.
`none` when an index is out of range. -/
def select : ConstantValue → SvType → List Int → Option (ConstantValue × SvType × Nat)
  | v, t, [] => some (v, t, 0)
  | .unpacked elements, .unpackedArray elem range, i :: path =>
    if range.containsPoint i then
      let k := (range.translateIndex i).toNat
      (elements[range.width - 1 - k]?).bind fun e =>
        (select e elem path).map fun (leaf, leafType, offset) =>
          (leaf, leafType, elem.bitstreamWidth * k + offset)
    else none
  | _, _, _ => none

theorem select_nil (v : ConstantValue) (t : SvType) : select v t [] = some (v, t, 0) := by
  cases v <;> cases t <;> rfl

theorem select_integer_cons (v : SVInt) (t : SvType) (i : Int) (path : List Int) :
    select (.integer v) t (i :: path) = none := by
  cases t <;> rfl

theorem select_unpacked_cons (elements : List ConstantValue) (elem : SvType) (range : ConstantRange)
    (i : Int) (path : List Int) :
    select (.unpacked elements) (.unpackedArray elem range) (i :: path) =
      if range.containsPoint i then
        (elements[range.width - 1 - (range.translateIndex i).toNat]?).bind fun e =>
          (select e elem path).map fun (leaf, leafType, offset) =>
            (leaf, leafType, elem.bitstreamWidth * (range.translateIndex i).toNat + offset)
      else none := rfl

mutual
theorem length_layout : (v : ConstantValue) → (layout v).length = v.bitstreamWidth
  | .integer v => by simp [layout, svintConst, ConstantValue.bitstreamWidth]
  | .unpacked elements => by simp [layout, ConstantValue.bitstreamWidth, length_layoutElements elements]
  | .string s => by simp [layout, ConstantValue.bitstreamWidth, length_stringBits]
  | .other => rfl
theorem length_layoutElements : (es : List ConstantValue) → (layoutElements es).length = ConstantValue.bitstreamWidth.widthSum es
  | [] => rfl
  | e :: es => by simp [layoutElements, ConstantValue.bitstreamWidth.widthSum, length_layout e, length_layoutElements es, Nat.add_comm]
end

theorem widthSum_of_uniform (es : List ConstantValue) (w : Nat)
    (uniform : ∀ e ∈ es, e.bitstreamWidth = w) :
    ConstantValue.bitstreamWidth.widthSum es = es.length * w := by
  induction es with
  | nil => simp [ConstantValue.bitstreamWidth.widthSum]
  | cons e es ih =>
    simp only [ConstantValue.bitstreamWidth.widthSum, List.length_cons, Nat.succ_mul,
      uniform e (List.mem_cons_self _ _), ih fun x hx => uniform x (List.mem_cons_of_mem _ hx)]
    omega

theorem width_of_typed {v : ConstantValue} {type : SvType} (typed : Typed v type) :
    v.bitstreamWidth = type.bitstreamWidth := by
  induction typed with
  | integer _ width => exact width
  | @unpacked elements elem range count _ ih =>
    simp [ConstantValue.bitstreamWidth, SvType.bitstreamWidth, widthSum_of_uniform elements _ ih, count,
      Nat.mul_comm]

theorem constConstElements_eq (ret : Const) (es : List ConstantValue)
    (each : ∀ e ∈ es, constConst e = .ok (layout e)) :
    constConstElements ret es = .ok (layoutElements es ++ ret) := by
  induction es generalizing ret with
  | nil => rfl
  | cons e es ih =>
    rw [constConstElements, each e (List.mem_cons_self _ _)]
    simp only [bind, Except.bind]
    rw [ih _ fun x hx => each x (List.mem_cons_of_mem _ hx), layoutElements, List.append_assoc]

/-- `const_const` computes the layout, and its assertion on the width always holds. -/
theorem constConst_eq_layout {v : ConstantValue} {type : SvType} (typed : Typed v type) :
    constConst v = .ok (layout v) := by
  induction typed with
  | integer => rfl
  | @unpacked elements elem range count _ ih =>
    rw [constConst, constConstElements_eq [] elements ih]
    simp [bind, Except.bind, List.append_nil, length_layoutElements, ConstantValue.bitstreamWidth, logAssert, pure, Except.pure, layout]

theorem length_layoutElements_of_uniform (es : List ConstantValue) (w : Nat)
    (sized : ∀ e ∈ es, (layout e).length = w) : (layoutElements es).length = w * es.length := by
  rw [length_layoutElements, widthSum_of_uniform es w fun e he => (length_layout e).symm.trans (sized e he),
    Nat.mul_comm]

/-- The element at position `n - 1 - k` of an array of `n` elements of `w` bits each lies `w * k`
bits up in the layout. -/
theorem extract_layoutElements (es : List ConstantValue) (w : Nat)
    (sized : ∀ e ∈ es, (layout e).length = w) {k : Nat} {e : ConstantValue}
    (inside : k < es.length) (found : es[es.length - 1 - k]? = some e) {off len : Nat}
    (fits : off + len ≤ w) :
    ((layoutElements es).drop (w * k + off)).take len = ((layout e).drop off).take len := by
  induction es with
  | nil => simp at inside
  | cons e0 es ih =>
    have sizedRest : ∀ x ∈ es, (layout x).length = w := fun x hx => sized x (List.mem_cons_of_mem _ hx)
    have front := length_layoutElements_of_uniform es w sizedRest
    rw [layoutElements]
    by_cases last : k = es.length
    · subst last
      simp only [List.length_cons, Nat.add_sub_cancel, Nat.sub_self, List.getElem?_cons_zero,
        Option.some.injEq] at found
      subst found
      rw [List.drop_append_eq_append_drop, front, List.drop_eq_nil_of_le (by omega), List.nil_append,
        Nat.add_sub_cancel_left]
    · have before : k < es.length := by simp at inside; omega
      have found' : es[es.length - 1 - k]? = some e := by
        rw [← found, List.length_cons]
        have : es.length + 1 - 1 - k = (es.length - 1 - k) + 1 := by omega
        rw [this, List.getElem?_cons_succ]
      have within : w * k + off + len ≤ (layoutElements es).length := by
        rw [front]
        have : w * k + w ≤ w * es.length := by rw [← Nat.mul_succ]; exact Nat.mul_le_mul_left _ before
        omega
      rw [List.drop_append_of_le_length (by omega), List.take_append_of_le_length (by simp; omega)]
      exact ih sizedRest before found'

theorem length_layout_of_typed {v : ConstantValue} {type : SvType} (typed : Typed v type) :
    (layout v).length = type.bitstreamWidth :=
  (length_layout v).trans (width_of_typed typed)

/-- An empty path selects the value itself, at offset zero. -/
theorem select_nil_inv {v leaf : ConstantValue} {t leafType : SvType} {offset : Nat}
    (selected : select v t [] = some (leaf, leafType, offset)) :
    v = leaf ∧ t = leafType ∧ 0 = offset := by
  simpa only [select_nil, Option.some.injEq, Prod.mk.injEq] using selected

/-- The step of `select` into an array: the element at position `width - 1 - k` of the list,
`k` the translated index, `elem.bitstreamWidth * k` bits up. -/
theorem select_cons {elements : List ConstantValue} {elem : SvType} {range : ConstantRange} {i : Int}
    {path : List Int} {leaf : ConstantValue} {leafType : SvType} {offset : Nat}
    (selected : select (.unpacked elements) (.unpackedArray elem range) (i :: path) =
      some (leaf, leafType, offset)) :
    ∃ e inner, range.containsPoint i ∧
      elements[range.width - 1 - (range.translateIndex i).toNat]? = some e ∧
      select e elem path = some (leaf, leafType, inner) ∧
      offset = elem.bitstreamWidth * (range.translateIndex i).toNat + inner := by
  rw [select_unpacked_cons] at selected
  split at selected
  · obtain ⟨e, found, rest⟩ := Option.bind_eq_some.mp selected
    obtain ⟨⟨leaf', leafType', inner⟩, inner_eq, same⟩ := Option.map_eq_some'.mp rest
    cases same
    exact ⟨e, inner, ‹_›, found, inner_eq, rfl⟩
  · cases selected

/-- The element an in-range index names lies inside the array. -/
theorem element_fits {elem : SvType} {range : ConstantRange} {i : Int}
    (inside : range.containsPoint i) :
    elem.bitstreamWidth * (range.translateIndex i).toNat + elem.bitstreamWidth ≤
      (SvType.unpackedArray elem range).bitstreamWidth := by
  have bound := ConstantRange.translateIndex_lt_width inside
  rw [SvType.bitstreamWidth, Nat.mul_comm range.width, ← Nat.mul_succ]
  exact Nat.mul_le_mul_left _ (by omega)

/-- What an index path selects is a constant of the element type, and lies inside the
value. -/
theorem select_typed {v : ConstantValue} {type : SvType} (typed : Typed v type) :
    ∀ {path leaf leafType offset}, select v type path = some (leaf, leafType, offset) →
      Typed leaf leafType ∧ offset + leafType.bitstreamWidth ≤ type.bitstreamWidth := by
  induction typed with
  | integer integral width =>
    intro path leaf leafType offset selected
    cases path with
    | nil =>
      obtain ⟨rfl, rfl, rfl⟩ := select_nil_inv selected
      exact ⟨.integer integral width, by simp⟩
    | cons i path => simp [select_integer_cons] at selected
  | @unpacked elements elem range count each ih =>
    intro path leaf leafType offset selected
    cases path with
    | nil =>
      obtain ⟨rfl, rfl, rfl⟩ := select_nil_inv selected
      exact ⟨.unpacked count each, by simp⟩
    | cons i path =>
      obtain ⟨e, inner, inside, found, rest, rfl⟩ := select_cons selected
      have member : e ∈ elements := List.getElem?_mem found
      obtain ⟨typedLeaf, fits⟩ := ih e member rest
      have := @element_fits elem range i inside
      exact ⟨typedLeaf, by omega⟩

/-- `const_const` of a constant of an unpacked array type computes its layout, of the type's
width, and the bits at the offset of an in-range index path are the layout of the element the
path names. -/
theorem init_bits_at_select_offset {v : ConstantValue} {type : SvType} (typed : Typed v type) :
    constConst v = .ok (layout v) ∧ (layout v).length = type.bitstreamWidth ∧
      ∀ path leaf leafType offset, select v type path = some (leaf, leafType, offset) →
        ((layout v).drop offset).take leafType.bitstreamWidth = layout leaf := by
  refine ⟨constConst_eq_layout typed, length_layout_of_typed typed, ?_⟩
  induction typed with
  | integer integral width =>
    intro path leaf leafType offset selected
    cases path with
    | nil =>
      obtain ⟨rfl, rfl, rfl⟩ := select_nil_inv selected
      simp [List.take_of_length_le, length_layout_of_typed (.integer integral width)]
    | cons i path => simp [select_integer_cons] at selected
  | @unpacked elements elem range count each ih =>
    intro path leaf leafType offset selected
    cases path with
    | nil =>
      obtain ⟨rfl, rfl, rfl⟩ := select_nil_inv selected
      simp [List.take_of_length_le, length_layout_of_typed (.unpacked count each)]
    | cons i path =>
      obtain ⟨e, inner, inside, found, rest, rfl⟩ := select_cons selected
      have member : e ∈ elements := List.getElem?_mem found
      have bound := ConstantRange.translateIndex_lt_width inside
      rw [layout, extract_layoutElements elements elem.bitstreamWidth
        (fun x hx => length_layout_of_typed (each x hx)) (by omega) (by rwa [count])
        ((select_typed (each e member) rest).2)]
      exact ih e member path leaf leafType inner rest

/-! ## The selects read at the offsets of `select` -/

/-- The element selects of an index path on `base`, one per level of the unpacked array type,
each with the element type of its level. -/
def selectPath : List Expr → SvType → Expr → Expr
  | [], _, base => base
  | idx :: idxs, .unpackedArray elem _, base => selectPath idxs elem (.elementSelect elem none base idx)
  | _ :: _, _, base => base

theorem fixed_of_typed {v : ConstantValue} {type : SvType} (typed : Typed v type) :
    type.isFixedSize := by
  cases typed with
  | integer integral => cases type <;> simp_all [SvType.isIntegral, SvType.isFixedSize]
  | unpacked => rfl

/-- One element select with a folded index in the range, on an lvalue whose bits `evaluate_lhs`
finds: the bits of the element, `stride * translateIndex(i)` bits up. -/
theorem evaluateLhs_elementSelect_of {elem : SvType} {range : ConstantRange} {base idx : Expr}
    {i : Int} {bits : SigSpec} (typedBase : base.type = .unpackedArray elem range)
    (read : constantInt idx.constant = .ok i) (inside : range.containsPoint i)
    (fixed : elem.isFixedSize) (lowered : evaluateLhs base = .ok bits)
    (length : bits.length = (SvType.unpackedArray elem range).bitstreamWidth) :
    evaluateLhs (.elementSelect elem none base idx) = .ok ((bits.drop
      (elem.bitstreamWidth * (range.translateIndex i).toNat)).take elem.bitstreamWidth) := by
  have folded : idx.constant.isSome := by
    cases h : idx.constant
    · simp [constantInt, h] at read
    · rfl
  have within := @element_fits elem range i inside
  obtain ⟨k, hk⟩ := Int.eq_ofNat_of_zero_le (ConstantRange.translateIndex_lt_width inside).1
  rw [← length, hk, Int.toNat_natCast] at within
  have extracted : extractChecked bits (elem.bitstreamWidth * range.translateIndex i)
      elem.bitstreamWidth = .ok (bits.extract (elem.bitstreamWidth * k) elem.bitstreamWidth) := by
    rw [hk, ← Int.natCast_mul, extractChecked_of_le (by omega) (by omega) (by omega)]
    rfl
  have checked := @checkWidth_of elem (bits.extract (elem.bitstreamWidth * k) elem.bitstreamWidth)
    fixed (by simp only [SigSpec.extract, List.length_take, List.length_drop]; omega)
  rw [evaluateLhs_elementSelect]
  simp only [folded, typedBase, SvType.isArray, SvType.hasFixedRange, SvType.fixedRange,
    Bool.or_true, Bool.and_self, require_true, read, lowered, hk, Int.toNat_natCast]
  exact (congrArg (· >>= checkWidth elem) extracted).trans checked

/-- The element selects of an in-range index path, on an lvalue of the array's type whose bits
`evaluate_lhs` finds, extract the bits at the offset `select` gives for the path: the selects
address the bits the init layout puts the element at. -/
theorem evaluateLhs_at_select_offset {v : ConstantValue} {type : SvType} (typed : Typed v type) :
    ∀ {path leaf leafType offset} {idxs : List Expr} {base : Expr} {bits : SigSpec},
      select v type path = some (leaf, leafType, offset) →
      List.Forall₂ (fun idx i => constantInt idx.constant = .ok i) idxs path →
      base.type = type → evaluateLhs base = .ok bits → bits.length = type.bitstreamWidth →
      evaluateLhs (selectPath idxs type base) = .ok ((bits.drop offset).take leafType.bitstreamWidth) := by
  induction typed with
  | integer integral width =>
    intro path leaf leafType offset idxs base bits selected indices _ lowered length
    cases path with
    | nil =>
      obtain ⟨rfl, rfl, rfl⟩ := select_nil_inv selected
      cases indices
      simpa [selectPath, List.take_of_length_le length.le] using lowered
    | cons i path => simp [select_integer_cons] at selected
  | @unpacked elements elem range count each ih =>
    intro path leaf leafType offset idxs base bits selected indices typedBase lowered length
    cases path with
    | nil =>
      obtain ⟨rfl, rfl, rfl⟩ := select_nil_inv selected
      cases indices
      simpa [selectPath, List.take_of_length_le length.le] using lowered
    | cons i path =>
      obtain ⟨e, inner, inside, found, rest, rfl⟩ := select_cons selected
      cases indices with
      | cons read indices =>
        have member : e ∈ elements := List.getElem?_mem found
        have fits := (select_typed (each e member) rest).2
        have within := @element_fits elem range i inside
        have stepped := evaluateLhs_elementSelect_of typedBase read inside
          (fixed_of_typed (each e member)) lowered length
        rw [selectPath, @ih e member _ _ _ _ _ (.elementSelect elem none base _) _ rest indices rfl
          stepped (by simp only [List.length_take, List.length_drop]; omega),
          List.drop_take, List.take_take, List.drop_drop, min_eq_left (by omega), Nat.add_comm]

/-! ## `logic [1:0] mem [0:1] = '{2'b01, 2'b10}` -/

/-- `logic [1:0]`. -/
def pairType : SvType := .packedArray (.scalar true false) ⟨1, 0⟩ false

/-- `logic [1:0] mem [0:1]`. -/
def memType : SvType := .unpackedArray pairType ⟨0, 1⟩

/-- `'{2'b01, 2'b10}`: `mem[0] = 2'b01`, `mem[1] = 2'b10`. -/
def memValue : ConstantValue :=
  .unpacked [.integer ⟨[.one, .zero], false⟩, .integer ⟨[.zero, .one], false⟩]

theorem init_layout_of_mem :
    Typed memValue memType ∧
      (constConst memValue = .ok (layout memValue) ∧
        (layout memValue).length = memType.bitstreamWidth ∧
        ∀ path leaf leafType offset, select memValue memType path = some (leaf, leafType, offset) →
          ((layout memValue).drop offset).take leafType.bitstreamWidth = layout leaf) :=
  have typed : Typed memValue memType :=
    .unpacked rfl fun e member => by
      simp only [memValue, List.mem_cons, List.mem_singleton, List.not_mem_nil, or_false] at member
      rcases member with rfl | rfl <;> exact .integer rfl rfl
  ⟨typed, init_bits_at_select_offset typed⟩

end SlangFrontend.Verified.InitLayout
