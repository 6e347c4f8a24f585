import SlangFrontend.Verified.Operators
import SlangFrontend.Verified.ReadWrite
import Mathlib.Tactic.Ring

/-! # Lowering an expression preserves its value

`evaluate_rhs` turns an expression into a signal over the module's wires, adding cells as it
goes. `evaluateRhs_preserves_value` says that the signal means what the expression means: for
every expression of the fragment `Rvalue`, with enough fuel and from any module, the signal
evaluates, in the module `evaluate_rhs` leaves, to the value `SlangFrontend.Semantics` gives the
expression for the values the variables' wires carry, whenever none of them is `z`.

The proof follows the recursion of `evaluate_rhs`. `Lowers e` is the statement for one
expression, with the signal's reading left as a function of the valuation (`Module.Reads`),
so that it holds in every module grown from the one `evaluate_rhs` leaves; there is one lemma
per kind of node (`lowers_unaryOp`, `lowers_elementSelect`, ...), each citing the operator
lemmas of `SlangFrontend.Verified.Operators` and the frame lemmas of `Module.Extends`, and
`lowers_of_rvalue` puts them together by induction over the fragment.

The fragment (`Rvalue`) is what the lowering handles and what slang guarantees of it: nodes
slang folded to an integer (their value is the folded one, as slang's constant evaluation
says), nets and variables, the operators of `UnaryFits` and `BinaryFits` (not `~&` and `~|`,
whose inverting cell is left unread), conversions between integral types, concatenations and
replications, simple range selects with folded bounds, element selects with any index on arrays
laid out element by element with 32-bit bounds and fewer than `2 ^ 31` elements, member
accesses and `?:` without patterns. Values are compared when no input bit is `z`: a `$mux` on an
unknown condition keeps a `z` both alternatives carry, where 11.4.11 gives `x`, and
`value_driven` shows that no value of the fragment has a `z` otherwise.
-/

namespace SlangFrontend.Verified.Lowering

open Rtlil Ast Frontend Semantics Operators

/-- The values of the design's variables under a valuation of the wires, once the cells of `mod`
have driven theirs. -/
def inputs (mod : Module) (σ : Valuation) : Env := fun s i => Module.evalCells mod.cells σ (.net s) i

/-- No variable carries a high-impedance bit. -/
def Driven (env : Env) : Prop := ∀ s i, env s i ≠ .Sz

/-- The bit a variable bit is read as in context `ctx`: inside a procedure, its blocking
substitution if it has one. -/
def readBit : Option ProcedureContext → SigBit → SigBit
  | some ctx, bit => (ctx.rvalueSubs.get? bit).getD bit
  | none, bit => bit

/-- The values of the variables as a lowering in context `ctx` reads them, once the cells of
`mod` have driven their wires: outside procedures what the variables' wires carry, inside one
what the bits of their blocking substitutions carry. -/
def current (ctx : Option ProcedureContext) (mod : Module) (σ : Valuation) : Env :=
  fun s i => (readBit ctx (.wire (.net s) i)).eval (Module.evalCells mod.cells σ)

/-- The bits the variables are read as in `ctx` were made before the module's fresh wires. -/
def Settled (ctx : Option ProcedureContext) (mod : Module) : Prop :=
  ∀ s i, (readBit ctx (.wire (.net s) i)).madeBefore mod.nextId

theorem current_none (mod : Module) (σ : Valuation) : current none mod σ = inputs mod σ := rfl

theorem settled_none (mod : Module) : Settled none mod := fun _ _ => rfl

theorem Settled.mono {ctx : Option ProcedureContext} {mod mod' : Module}
    (settled : Settled ctx mod) (grows : Module.Extends mod mod') : Settled ctx mod' :=
  fun s i => SigBit.madeBefore_mono grows.nextId_le (settled s i)

/-- The cells a lowering adds drive new wires only, so the variables read as they did. -/
theorem current_of_extends {ctx : Option ProcedureContext} {mod mod' : Module}
    (grows : Module.Extends mod mod') (settled : Settled ctx mod) (σ : Valuation) :
    current ctx mod' σ = current ctx mod σ := by
  funext s i
  simpa [SigSpec.eval] using
    grows.eval_eq (s := [readBit ctx (.wire (.net s) i)]) (by simpa using settled s i) σ

/-- `e` is an integer constant that slang folded to `n`: its folded value has the signedness of
`e`'s type and reads `n` as an `int`. -/
def Folded (e : Expr) (n : Int) : Prop :=
  ∃ v : SVInt, e.constant = some (.integer v) ∧ v.signed = e.type.isSigned ∧ v.asInt = some n

/-- A folded node means the constant `svint_const` makes of it. -/
theorem value_folded {env : Env} {e : Expr} {v : SVInt} (constant : e.constant = some (.integer v)) :
    value env e = some (svintConst v) := by
  rw [value_of_constant constant, constantValue, svintConst]
  congr 1

/-- The right-hand sides the lowering is proved on, with what slang guarantees of them. -/
inductive Rvalue : Expr → Prop
  | folded {e : Expr} {v : SVInt} (constant : e.constant = some (.integer v))
      (fixed : e.type.isFixedSize) (width : v.bits.length = e.type.bitstreamWidth)
      (driven : Logic.z ∉ v.bits) : Rvalue e
  | named {type : SvType} {symbol : Symbol} (kind : symbol.kind = .net ∨ symbol.kind = .variable)
      (body : symbol.inInstanceBody = true) (fixed : type.isFixedSize)
      (width : symbol.type.bitstreamWidth = type.bitstreamWidth) :
      Rvalue (.namedValue type none symbol)
  | unaryOp {type : SvType} {op : UnaryOperator} {operand : Expr}
      (fits : UnaryFits op type.bitstreamWidth operand.type.bitstreamWidth)
      (fixed : type.isFixedSize) (inner : Rvalue operand) : Rvalue (.unaryOp type none op operand)
  | binaryOp {type : SvType} {op : BinaryOperator} {left right : Expr}
      (fits : BinaryFits op type.bitstreamWidth left.type.bitstreamWidth right.type.bitstreamWidth)
      (fixed : type.isFixedSize) (innerL : Rvalue left) (innerR : Rvalue right) :
      Rvalue (.binaryOp type none op left right)
  | conversion {type : SvType} {operand : Expr} (fromIntegral : operand.type.isIntegral = true)
      (toIntegral : type.isIntegral = true)
      (signs : operand.type.isSigned = type.isSigned ∨
        type.bitstreamWidth ≤ operand.type.bitstreamWidth)
      (nonempty : 0 < operand.type.bitstreamWidth) (fixed : type.isFixedSize)
      (fourState : type.isFourState = true) (inner : Rvalue operand) :
      Rvalue (.conversion type none operand)
  | concatenation {type : SvType} {operands : List Expr}
      (width : type.bitstreamWidth = (operands.map fun e => e.type.bitstreamWidth).sum)
      (fixed : type.isFixedSize) (inner : ∀ e ∈ operands, Rvalue e) :
      Rvalue (.concatenation type none operands)
  | replication {type : SvType} {count concat : Expr} {n : Nat} (counted : Folded count n)
      (width : type.bitstreamWidth = n * concat.type.bitstreamWidth) (fixed : type.isFixedSize)
      (inner : Rvalue concat) : Rvalue (.replication type none count concat)
  | rangeSelect {type : SvType} {array left right : Expr} {i j : Int} {stride : Nat}
      (leftFolded : Folded left i) (rightFolded : Folded right j)
      (ranged : array.type.hasFixedRange = true)
      (layout : array.type.bitstreamWidth = array.type.fixedRange.width * stride)
      (inRange : array.type.fixedRange.containsPoint i ∧ array.type.fixedRange.containsPoint j)
      (order : array.type.fixedRange.translateIndex j ≤ array.type.fixedRange.translateIndex i)
      (width : (type.bitstreamWidth : Int) = stride *
        (array.type.fixedRange.translateIndex i - array.type.fixedRange.translateIndex j + 1))
      (fixed : type.isFixedSize) (inner : Rvalue array) :
      Rvalue (.rangeSelect type none .simple array left right)
  | elementSelect {type : SvType} {array selector : Expr}
      (arrayed : (array.type.isArray && array.type.hasFixedRange) = true)
      (bounds : -2 ^ 31 ≤ array.type.fixedRange.lower ∧ array.type.fixedRange.upper < 2 ^ 31)
      (small : array.type.fixedRange.width < 2 ^ 31)
      (layout : array.type.bitstreamWidth = array.type.fixedRange.width * type.bitstreamWidth)
      (fixed : type.isFixedSize) (fourState : type.isFourState = true) (innerA : Rvalue array)
      (innerS : Rvalue selector) : Rvalue (.elementSelect type none array selector)
  | memberAccess {type : SvType} {array : Expr} {member : Member} (field : member.isField = true)
      (randMode : member.randModeNone = true)
      (fits : member.bitOffset + type.bitstreamWidth ≤ array.type.bitstreamWidth)
      (inner : Rvalue array) : Rvalue (.memberAccess type none array member)
  | conditionalOp {type : SvType} {condition left right : Expr}
      (widths : left.type.bitstreamWidth = type.bitstreamWidth ∧
        right.type.bitstreamWidth = type.bitstreamWidth)
      (fixed : type.isFixedSize) (innerC : Rvalue condition) (innerL : Rvalue left)
      (innerR : Rvalue right) : Rvalue (.conditionalOp type none [(condition, false)] left right)

/-! ## Values without `z` -/

theorem svintConst_ne {v : SVInt} (driven : Logic.z ∉ v.bits) : State.Sz ∉ svintConst v := by
  simp only [svintConst, List.mem_map, not_exists, not_and]
  intro b mem
  cases b <;> first | decide | exact absurd mem driven

theorem concatValue_ne {env : Env} :
    ∀ {operands : List Expr}, (∀ e ∈ operands, ∀ v, value env e = some v → State.Sz ∉ v) →
      ∀ {v}, concatValue env operands = some v → State.Sz ∉ v
  | [], _, v, computes => by cases computes; simp
  | e :: es, inner, v, computes => by
    simp only [concatValue, Option.bind_eq_bind, Option.bind_eq_some, Option.pure_def,
      Option.some.injEq] at computes
    obtain ⟨rest, restComputes, w, eComputes, rfl⟩ := computes
    simp only [List.mem_append, not_or]
    exact ⟨concatValue_ne (fun e' mem => inner e' (List.mem_cons_of_mem _ mem)) restComputes,
      inner e (List.mem_cons_self _ _) w eComputes⟩

/-! ## Equations of the meaning

One equation per kind of node, so that a proof rewrites with the case it needs. -/

section Meaning

variable {env : Env} {type : SvType}

theorem value_namedValue {symbol : Symbol} (kind : symbol.kind = .net ∨ symbol.kind = .variable) :
    value env (.namedValue type none symbol) = some (env.read symbol) := by
  show (match symbol.kind with | .net | .variable => some (env.read symbol) | _ => none) = _
  rcases kind with kind | kind <;> rw [kind]

theorem value_unaryOp {op : UnaryOperator} {operand : Expr} :
    value env (.unaryOp type none op operand) = (value env operand).bind (unaryValue op) := rfl

theorem value_binaryOp {op : BinaryOperator} {left right : Expr} :
    value env (.binaryOp type none op left right) = (value env left).bind fun a =>
      (value env right).bind fun b =>
        binaryValue type.bitstreamWidth (left.type.isSigned && right.type.isSigned) op a b := rfl

theorem value_conversion {operand : Expr} :
    value env (.conversion type none operand) =
      (value env operand).map fun v => convert v operand.type.isSigned type := by
  show (value env operand).bind _ = _
  cases value env operand <;> rfl

theorem value_concatenation {operands : List Expr} :
    value env (.concatenation type none operands) = concatValue env operands := rfl

theorem concatValue_cons {operand : Expr} {operands : List Expr} :
    concatValue env (operand :: operands) = (concatValue env operands).bind fun rest =>
      (value env operand).bind fun v => some (rest ++ v) := rfl

theorem value_replication {count concat : Expr} :
    value env (.replication type none count concat) = (value env count).bind fun c =>
      (Const.toNat? c).bind fun n => (value env concat).bind fun v =>
        some (List.replicate n v).flatten := rfl

theorem value_rangeSelect {array left right : Expr} :
    value env (.rangeSelect type none .simple array left right) = (value env array).bind fun base =>
      (value env left).bind fun lv => (indexValue lv left.type.isSigned).bind fun l =>
      (value env right).bind fun rv => (indexValue rv right.type.isSigned).bind fun r =>
      some ((base.drop (array.type.bitstreamWidth / array.type.fixedRange.width *
        (min (array.type.fixedRange.translateIndex l)
          (array.type.fixedRange.translateIndex r)).toNat)).take type.bitstreamWidth) := rfl

theorem value_elementSelect {array selector : Expr} :
    value env (.elementSelect type none array selector) = (value env array).bind fun base =>
      (value env selector).bind fun sv => some (selectElement base (outOfRange type)
        array.type.fixedRange type.bitstreamWidth (Const.toInt? selector.type.isSigned sv)) := rfl

theorem value_memberAccess {array : Expr} {member : Member} :
    value env (.memberAccess type none array member) =
      (value env array).bind fun base => some ((base.drop member.bitOffset).take type.bitstreamWidth) :=
  rfl

theorem value_conditionalOp {condition left right : Expr} :
    value env (.conditionalOp type none [(condition, false)] left right) =
      (value env condition).bind fun c => (value env left).bind fun a =>
        (value env right).bind fun b => some (match truth c with
          | .S1 => a
          | .S0 => b
          | _ => merge a b) := rfl

end Meaning

/-- With no `z` among the inputs, no value of the fragment has a bit `z`. -/
theorem value_driven {e : Expr} (rvalue : Rvalue e) {env : Env} (driven : Driven env) :
    ∀ {v}, value env e = some v → State.Sz ∉ v := by
  induction rvalue with
  | folded constant _ _ drivenBits =>
    intro v computes
    rw [value_folded constant] at computes
    exact Option.some.inj computes ▸ svintConst_ne drivenBits
  | named kind =>
    intro v computes
    rw [value_namedValue kind, Option.some.injEq] at computes
    subst computes
    simpa [Env.read] using fun i _ => driven _ i
  | unaryOp fits _ _ ih =>
    intro v computes
    rw [value_unaryOp, Option.bind_eq_some] at computes
    obtain ⟨a, -, computes⟩ := computes
    exact unaryValue_ne fits computes
  | binaryOp fits _ _ _ _ _ =>
    intro v computes
    rw [value_binaryOp] at computes
    simp only [Option.bind_eq_some] at computes
    obtain ⟨a, -, b, -, computes⟩ := computes
    exact binaryValue_ne fits computes
  | conversion _ _ _ _ _ _ _ ih =>
    intro v computes
    rw [value_conversion, Option.map_eq_some'] at computes
    obtain ⟨a, computesA, rfl⟩ := computes
    exact convert_ne (ih computesA) _ _
  | concatenation _ _ _ ih => exact concatValue_ne ih
  | replication _ _ _ _ ih =>
    intro v computes
    rw [value_replication] at computes
    simp only [Option.bind_eq_some, Option.some.injEq] at computes
    obtain ⟨_, _, _, _, a, computesA, rfl⟩ := computes
    simp only [List.mem_flatten, List.mem_replicate]
    rintro ⟨l, ⟨-, rfl⟩, mem⟩
    exact ih computesA mem
  | rangeSelect _ _ _ _ _ _ _ _ _ ih =>
    intro v computes
    rw [value_rangeSelect] at computes
    simp only [Option.bind_eq_some, Option.some.injEq] at computes
    obtain ⟨a, computesA, _, _, _, _, _, _, _, _, rfl⟩ := computes
    exact fun mem => ih computesA (List.mem_of_mem_drop (List.mem_of_mem_take mem))
  | elementSelect _ _ _ _ _ _ _ _ ihA _ =>
    intro v computes
    rw [value_elementSelect] at computes
    simp only [Option.bind_eq_some, Option.some.injEq] at computes
    obtain ⟨a, computesA, _, _, rfl⟩ := computes
    exact selectElement_ne (ihA computesA) _ _ _ _
  | memberAccess _ _ _ _ ih =>
    intro v computes
    rw [value_memberAccess] at computes
    simp only [Option.bind_eq_some, Option.some.injEq] at computes
    obtain ⟨a, computesA, rfl⟩ := computes
    exact fun mem => ih computesA (List.mem_of_mem_drop (List.mem_of_mem_take mem))
  | conditionalOp _ _ _ _ _ _ ihL ihR =>
    intro v computes
    rw [value_conditionalOp] at computes
    simp only [Option.bind_eq_some, Option.some.injEq] at computes
    obtain ⟨_, _, a, computesA, b, computesB, rfl⟩ := computes
    split
    · exact ihL computesA
    · exact ihR computesB
    · exact merge_ne a b


/-! ## Folded constants -/

theorem folded_constantInt {e : Expr} {n : Int} (folded : Folded e n) :
    constantInt e.constant = .ok n := by
  obtain ⟨v, constant, -, fits⟩ := folded
  simp [constantInt, constant, constantInteger, fits, pure, Except.pure, bind, Except.bind]

/-- What a folded index means, read as `translate_index` and the selects read it. -/
theorem folded_index {e : Expr} {n : Int} (folded : Folded e n) (env : Env) :
    (value env e).bind (fun v => indexValue v e.type.isSigned) = some n := by
  have ok := folded_constantInt folded
  obtain ⟨v, constant, signed, -⟩ := folded
  rw [constant] at ok
  have read := constantInt_ok ok
  rw [value_folded constant, Option.some_bind, ← signed]
  exact (toInt?_svintConst _).trans read

theorem toNat?_of_toInt? {signed : Bool} {c : Const} {n : Nat}
    (read : Const.toInt? signed c = some (n : Int)) : Const.toNat? c = some n := by
  cases h : Const.toNat? c with
  | none => simp [Const.toInt?, h] at read
  | some m =>
    have bound : (m : Int) < 2 ^ c.length := by exact_mod_cast Const.toNat?_lt h
    simp only [Const.toInt?, h, Option.bind_eq_bind, Option.some_bind, Option.pure_def,
      Option.map_some', Option.some.injEq] at read
    congr 1
    split at read <;> omega

/-- A folded count read as a natural number. -/
theorem folded_count {e : Expr} {n : Nat} (folded : Folded e n) (env : Env) :
    (value env e).bind Const.toNat? = some n := by
  have index := folded_index folded env
  obtain ⟨v, constant, -, -⟩ := folded
  rw [value_folded constant, Option.some_bind] at index ⊢
  exact toNat?_of_toInt? index

/-! ## Signals over the module -/

theorem length_read {mod : Module} {s : SigSpec} {read : Valuation → Const}
    (reads : Module.Reads mod s read) (σ : Valuation) : (read σ).length = s.length := by
  rw [← reads.eval_eq mod (.refl mod) σ, SigSpec.length_eval]

@[simp] theorem length_extendU0 (s : SigSpec) (width : Nat) (signed : Bool) :
    (s.extendU0 width signed).length = width := by
  unfold SigSpec.extendU0; split <;> simp <;> omega

theorem reads_extendU0 {mod : Module} {s : SigSpec} {read : Valuation → Const}
    (reads : Module.Reads mod s read) (nonempty : s ≠ []) (width : Nat) (signed : Bool) :
    Module.Reads mod (s.extendU0 width signed) fun σ => Const.extendU0 (read σ) width signed := by
  refine ⟨fun bit mem => ?_, fun mod' grows σ => by
    rw [eval_extendU0 _ nonempty, reads.eval_eq mod' grows]⟩
  unfold SigSpec.extendU0 at mem
  split at mem
  · exact reads.made bit (List.mem_of_mem_take mem)
  · rcases List.mem_append.mp mem with mem | mem
    · exact reads.made bit mem
    · obtain ⟨-, rfl⟩ := List.mem_replicate.mp mem
      cases signed
      · rfl
      · cases top : s.getLast? with
        | none => rfl
        | some b => simpa [top] using reads.made b (List.mem_of_getLast?_eq_some top)

theorem reads_repeat {mod : Module} {s : SigSpec} {read : Valuation → Const}
    (reads : Module.Reads mod s read) :
    ∀ n, Module.Reads mod (s.repeat n) fun σ => (List.replicate n (read σ)).flatten
  | 0 => Module.Reads.nil
  | n + 1 => by
    simpa [SigSpec.repeat, List.replicate_succ] using reads.append (reads_repeat reads n)

/-- What the cells of an element select give: the `$bmux` over the base padded with `x`, at the
raw index `translate_index` computes, behind the `$mux` on its valid bit, is the element the
index names, and `x` when the index is unknown or outside the range. -/
theorem selectCells_value {base : Const} {range : ConstantRange} {stride k : Nat}
    (index : Option Int) (layout : base.length = range.width * stride) (fits : range.width ≤ 2 ^ k) :
    constMux (List.replicate stride .Sx)
      (constBmux (base ++ List.replicate (stride * 2 ^ k - base.length) .Sx)
        ((index.map fun x => Const.ofInt k
          (if range.right < range.left then x - range.right else range.right - x)).getD
          (List.replicate k .Sx)))
      [(index.map fun x => State.ofBool (range.containsPoint x)).getD .Sx] =
    selectElement base .Sx range stride index := by
  have room : range.width * stride ≤ stride * 2 ^ k := by
    rw [Nat.mul_comm]; exact Nat.mul_le_mul_left _ fits
  cases index with
  | none =>
    have len := length_constBmux (base ++ List.replicate (stride * 2 ^ k - base.length) .Sx)
      (List.replicate k .Sx) stride (by simp [layout]; omega)
    have merged := mergeX_replicate (constBmux (base ++ List.replicate (stride * 2 ^ k - base.length) .Sx)
      (List.replicate k .Sx))
    rw [len] at merged
    exact merged
  | some x =>
    by_cases inside : range.containsPoint x
    · obtain ⟨nonneg, below⟩ := ConstantRange.translateIndex_lt_width inside
      obtain ⟨t, ht⟩ := Int.eq_ofNat_of_zero_le nonneg
      have tBelow : t < range.width := by omega
      simp only [Option.map_some', Option.getD_some, inside, State.ofBool, if_true, constMux,
        List.headD_cons, selectElement, distance_eq_translateIndex inside, ht, Const.ofInt_natCast,
        Int.toNat_natCast]
      have within : stride * t + stride ≤ base.length := calc
        stride * t + stride = stride * (t + 1) := by ring
        _ ≤ stride * range.width := Nat.mul_le_mul_left _ tBelow
        _ = base.length := by rw [layout, Nat.mul_comm]
      exact ReadWrite.bmux_select within (by omega) (by omega)
    · simp [inside, State.ofBool, constMux, selectElement]

/-! ## One lemma per kind of node -/

variable (subroutines : Subroutines)

/-- With enough fuel, from any module whose wires hold what the variables are read as in `ctx`,
`evaluate_rhs` lowers `e` in context `ctx` to a signal of `e`'s width that reads, in the module
it leaves and in every module grown from it, what `e` means for the values the variables are
read as in the module it started from, whenever none of them is `z`. -/
def Lowers (e : Expr) : Prop :=
  ∃ enough, ∀ fuel ≥ enough, ∀ ctx mod, Settled ctx mod → ∃ rhs mod' read,
    evaluateRhs subroutines fuel e ctx mod = .ok (rhs, mod') ∧ Module.Extends mod mod' ∧
    rhs.length = e.type.bitstreamWidth ∧ Module.Reads mod' rhs read ∧
    ∀ σ, Driven (current ctx mod σ) → value (current ctx mod σ) e = some (read σ)

variable {subroutines}

theorem lowers_folded {e : Expr} {v : SVInt} (constant : e.constant = some (.integer v))
    (fixed : e.type.isFixedSize) (width : v.bits.length = e.type.bitstreamWidth) :
    Lowers subroutines e := by
  refine ⟨1, fun fuel more ctx mod settled => ?_⟩
  obtain ⟨fuel, rfl⟩ : ∃ f, fuel = f + 1 := ⟨fuel - 1, by omega⟩
  exact ⟨_, mod, fun _ => svintConst v,
    evaluateRhs_constant constant (checkWidth_of fixed (by simp [width])), .refl mod,
    by simp [width], Module.Reads.const _, fun σ _ => value_folded constant⟩

theorem lowers_named {type : SvType} {symbol : Symbol}
    (kind : symbol.kind = .net ∨ symbol.kind = .variable) (body : symbol.inInstanceBody = true)
    (fixed : type.isFixedSize) (width : symbol.type.bitstreamWidth = type.bitstreamWidth) :
    Lowers subroutines (.namedValue type none symbol) := by
  refine ⟨1, fun fuel more ctx mod settled => ?_⟩
  obtain ⟨fuel, rfl⟩ : ∃ f, fuel = f + 1 := ⟨fuel - 1, by omega⟩
  have read : (ctx.elim (Module.wire symbol.id symbol.type.bitstreamWidth)
      fun ctx => (Module.wire symbol.id symbol.type.bitstreamWidth).replace ctx.rvalueSubs) =
      (Module.wire symbol.id symbol.type.bitstreamWidth).map (readBit ctx) := by
    cases ctx with
    | none => exact (List.map_id' _).symm
    | some ctx => rfl
  have made : ∀ bit ∈ (Module.wire symbol.id symbol.type.bitstreamWidth).map (readBit ctx),
      bit.madeBefore mod.nextId := by
    simp only [Module.wire, Module.wireBits, List.map_map, List.mem_map, List.mem_range]
    rintro _ ⟨i, -, rfl⟩
    exact settled symbol.id i
  refine ⟨_, mod, _, ?_, .refl mod, by simp [Module.wire, width, Expr.type],
    Module.Reads.self made, fun σ _ => ?_⟩
  · rw [← read]
    exact evaluateRhs_namedValue_ctx kind body
      (checkWidth_of fixed (by rw [read]; simp [Module.wire, width]))
  · rw [value_namedValue kind]
    simp [Env.read, current, Module.wire, Module.wireBits, SigSpec.eval]

theorem lowers_unaryOp {type : SvType} {op : UnaryOperator} {operand : Expr}
    (fits : UnaryFits op type.bitstreamWidth operand.type.bitstreamWidth)
    (fixed : type.isFixedSize) (inner : Lowers subroutines operand) :
    Lowers subroutines (.unaryOp type none op operand) := by
  obtain ⟨enough, inner⟩ := inner
  obtain ⟨cellType, cell, computes⟩ := unaryCell_eval fits
  refine ⟨enough + 1, fun fuel more ctx mod settled => ?_⟩
  obtain ⟨fuel, rfl⟩ : ∃ f, fuel = f + 1 := ⟨fuel - 1, by omega⟩
  obtain ⟨a, mod1, read, run, grows, length, reads, means⟩ := inner fuel (by omega) ctx mod settled
  have cellOf := fun σ =>
    computes (read σ) operand.type.isSigned (by rw [length_read reads, length])
  obtain ⟨y, mod2, emitted, grows2, lengthY, readsY⟩ := Module.emit_reads cellType
    operand.type.isSigned false type.bitstreamWidth reads Module.Reads.nil Module.Reads.nil
    (fun σ => (cellOf σ).2)
  refine ⟨y, mod2, _, ?_, grows.trans grows2, lengthY, readsY, fun σ driven => ?_⟩
  · rw [evaluateRhs_unaryOp run cell]
    simp [emitted, checkWidth_of fixed lengthY]
  · rw [value_unaryOp, means σ driven]
    exact (cellOf σ).1

/-- A binary operator is lowered to its cell: with enough fuel, from any module, the signal reads
what the cell computes from what the operands read, and the operands read their meanings. -/
theorem lowers_binaryCell {type : SvType} {op : BinaryOperator} {left right : Expr}
    {cellType : CellType} (cell : binaryCellType op = some cellType)
    (signs : binarySignedness cellType left.type.isSigned right.type.isSigned =
      (left.type.isSigned, right.type.isSigned))
    (sized : ∀ a b : Const, a.length = left.type.bitstreamWidth → b.length = right.type.bitstreamWidth →
      (cellType.eval a b [] left.type.isSigned right.type.isSigned type.bitstreamWidth).length =
        type.bitstreamWidth)
    (fixed : type.isFixedSize) (innerL : Lowers subroutines left)
    (innerR : Lowers subroutines right) :
    ∃ enough, ∀ fuel ≥ enough, ∀ ctx mod, Settled ctx mod →
      ∃ rhs mod', ∃ readL readR : Valuation → Const,
      evaluateRhs subroutines fuel (.binaryOp type none op left right) ctx mod = .ok (rhs, mod') ∧
      Module.Extends mod mod' ∧ rhs.length = type.bitstreamWidth ∧
      Module.Reads mod' rhs (fun σ => cellType.eval (readL σ) (readR σ) [] left.type.isSigned
        right.type.isSigned type.bitstreamWidth) ∧
      (∀ σ, (readL σ).length = left.type.bitstreamWidth ∧
        (readR σ).length = right.type.bitstreamWidth) ∧
      ∀ σ, Driven (current ctx mod σ) →
        value (current ctx mod σ) left = some (readL σ) ∧
        value (current ctx mod σ) right = some (readR σ) := by
  obtain ⟨enoughL, innerL⟩ := innerL
  obtain ⟨enoughR, innerR⟩ := innerR
  refine ⟨max enoughL enoughR + 1, fun fuel more ctx mod settled => ?_⟩
  obtain ⟨fuel, rfl⟩ : ∃ f, fuel = f + 1 := ⟨fuel - 1, by omega⟩
  obtain ⟨a, mod1, readA, runA, growsA, lengthA, readsA, meansA⟩ := innerL fuel (by omega) ctx mod settled
  obtain ⟨b, mod2, readB, runB, growsB, lengthB, readsB, meansB⟩ := innerR fuel (by omega) ctx mod1 (settled.mono growsA)
  have lengths (σ : Valuation) : (readA σ).length = left.type.bitstreamWidth ∧
      (readB σ).length = right.type.bitstreamWidth :=
    ⟨by rw [length_read readsA, lengthA], by rw [length_read readsB, lengthB]⟩
  obtain ⟨y, mod3, emitted, grows3, lengthY, readsY⟩ := Module.emit_reads cellType
    left.type.isSigned right.type.isSigned type.bitstreamWidth (readsA.mono growsB) readsB
    Module.Reads.nil (fun σ => sized _ _ (lengths σ).1 (lengths σ).2)
  refine ⟨y, mod3, readA, readB, evaluateRhs_binaryOp runA runB cell signs emitted
    (checkWidth_of fixed lengthY), growsA.trans (growsB.trans grows3), lengthY, readsY, lengths,
    fun σ driven => ⟨meansA σ driven, ?_⟩⟩
  have same := current_of_extends growsA settled σ
  have valueB := meansB σ (same ▸ driven)
  rwa [same] at valueB

theorem lowers_binaryOp {type : SvType} {op : BinaryOperator} {left right : Expr}
    (fits : BinaryFits op type.bitstreamWidth left.type.bitstreamWidth right.type.bitstreamWidth)
    (fixed : type.isFixedSize) (innerL : Lowers subroutines left)
    (innerR : Lowers subroutines right) : Lowers subroutines (.binaryOp type none op left right) := by
  obtain ⟨cellType, cell, signs, computes⟩ := binaryCell_eval fits
  obtain ⟨enough, lowers⟩ := lowers_binaryCell cell (signs _ _)
    (fun a b lenA lenB => (computes a b _ _ lenA lenB).2) fixed innerL innerR
  refine ⟨enough, fun fuel more ctx mod settled => ?_⟩
  obtain ⟨rhs, mod', readL, readR, run, grows, length, reads, lengths, means⟩ :=
    lowers fuel more ctx mod settled
  refine ⟨rhs, mod', _, run, grows, length, reads, fun σ driven => ?_⟩
  obtain ⟨valueL, valueR⟩ := means σ driven
  rw [value_binaryOp, valueL, Option.some_bind, valueR, Option.some_bind]
  exact (computes _ _ _ _ (lengths σ).1 (lengths σ).2).1

theorem lowers_conversion {type : SvType} {operand : Expr}
    (fromIntegral : operand.type.isIntegral = true) (toIntegral : type.isIntegral = true)
    (signs : operand.type.isSigned = type.isSigned ∨
      type.bitstreamWidth ≤ operand.type.bitstreamWidth)
    (nonempty : 0 < operand.type.bitstreamWidth) (fixed : type.isFixedSize)
    (fourState : type.isFourState = true) (inner : Lowers subroutines operand) :
    Lowers subroutines (.conversion type none operand) := by
  obtain ⟨enough, inner⟩ := inner
  have bitWidth : type.bitWidth = type.bitstreamWidth := by simp [SvType.bitWidth, toIntegral]
  have checked : (operand.type.isSigned == type.isSigned ||
      decide (type.bitWidth ≤ operand.type.bitWidth)) = true := by
    rcases signs with same | narrow
    · simp [same]
    · simp [SvType.bitWidth, fromIntegral, toIntegral, narrow]
  refine ⟨enough + 1, fun fuel more ctx mod settled => ?_⟩
  obtain ⟨fuel, rfl⟩ : ∃ f, fuel = f + 1 := ⟨fuel - 1, by omega⟩
  obtain ⟨ret, mod1, read, run, grows, length, reads, means⟩ := inner fuel (by omega) ctx mod settled
  refine ⟨_, mod1, _, evaluateRhs_conversion fromIntegral toIntegral checked run
    (checkWidth_of fixed (by rw [length_extendU0, bitWidth])), grows,
    by rw [length_extendU0, bitWidth]; rfl,
    reads_extendU0 reads (List.ne_nil_of_length_pos (by omega)) _ _, fun σ driven => ?_⟩
  have lengthRead : (read σ).length = operand.type.bitstreamWidth := by
    rw [length_read reads, length]
  rw [value_conversion, means σ driven, Option.map_some', bitWidth, convert_of_fourState fourState,
    resize_eq_extendU0]
  exact congrArg some (extendU0_of_signs (by rw [lengthRead]; exact signs)).symm

/-- The loop of a concatenation: each operand's signal goes below the ones before it, and the
whole reads the operands' values, the first most significant, above what the loop started
with. -/
theorem lowers_concat {operands : List Expr} (inner : ∀ e ∈ operands, Lowers subroutines e) :
    ∃ enough, ∀ fuel ≥ enough, ∀ ctx mod₀ mod retR (readR : Valuation → Const), Settled ctx mod₀ →
      Module.Extends mod₀ mod → Module.Reads mod retR readR →
      ∃ rhs mod' read, (operands.foldlM (fun ret operand => do
          pure ((← evaluateRhs subroutines fuel operand ctx) ++ ret)) retR : LowerM SigSpec) mod =
          .ok (rhs, mod') ∧ Module.Extends mod mod' ∧
        rhs.length = (operands.map fun e => e.type.bitstreamWidth).sum + retR.length ∧
        Module.Reads mod' rhs read ∧
        ∀ σ, Driven (current ctx mod₀ σ) →
          (concatValue (current ctx mod₀ σ) operands).map (· ++ readR σ) = some (read σ) := by
  induction operands with
  | nil =>
    exact ⟨0, fun _ _ _ mod₀ mod retR readR _ _ reads =>
      ⟨retR, mod, readR, rfl, .refl mod, by simp, reads, fun σ _ => rfl⟩⟩
  | cons e es ih =>
    obtain ⟨enoughE, lowersE⟩ := inner e (List.mem_cons_self _ _)
    obtain ⟨enoughEs, lowersEs⟩ := ih fun e' mem => inner e' (List.mem_cons_of_mem _ mem)
    refine ⟨max enoughE enoughEs, fun fuel more ctx mod₀ mod retR readR settled grows reads =>
      ?_⟩
    obtain ⟨rhsE, mod1, readE, runE, growsE, lengthE, readsE, meansE⟩ :=
      lowersE fuel (by omega) ctx mod (settled.mono grows)
    obtain ⟨rhs, mod', read, run, grows', length', reads', means'⟩ := lowersEs fuel (by omega)
      ctx mod₀ mod1 (rhsE ++ retR) (fun σ => readE σ ++ readR σ) settled (grows.trans growsE)
      (readsE.append (reads.mono growsE))
    refine ⟨rhs, mod', read, ?_, growsE.trans grows', ?_, reads', fun σ driven => ?_⟩
    · simp only [List.foldlM_cons, bind_assoc, pure_bind]
      rw [BuildM.bind_of_ok runE, run]
    · simp only [length', List.length_append, lengthE, List.map_cons, List.sum_cons]
      omega
    · have same := current_of_extends grows settled σ
      have valueE := meansE σ (same ▸ driven)
      rw [same] at valueE
      rw [← means' σ driven, concatValue_cons, valueE]
      cases concatValue (current ctx mod₀ σ) es <;> simp

theorem lowers_concatenation {type : SvType} {operands : List Expr}
    (width : type.bitstreamWidth = (operands.map fun e => e.type.bitstreamWidth).sum)
    (fixed : type.isFixedSize) (inner : ∀ e ∈ operands, Lowers subroutines e) :
    Lowers subroutines (.concatenation type none operands) := by
  obtain ⟨enough, loop⟩ := lowers_concat inner
  refine ⟨enough + 1, fun fuel more ctx mod settled => ?_⟩
  obtain ⟨fuel, rfl⟩ : ∃ f, fuel = f + 1 := ⟨fuel - 1, by omega⟩
  obtain ⟨rhs, mod', read, run, grows, length, reads, means⟩ :=
    loop fuel (by omega) ctx mod mod [] (fun _ => []) settled (.refl mod) Module.Reads.nil
  have lengthR : rhs.length = type.bitstreamWidth := by rw [length, width]; rfl
  refine ⟨rhs, mod', read, ?_, grows, lengthR, reads, fun σ driven => ?_⟩
  · rw [evaluateRhs_concatenation, BuildM.bind_of_ok run, checkWidth_of fixed lengthR]
    rfl
  · simpa [value_concatenation] using means σ driven

theorem lowers_replication {type : SvType} {count concat : Expr} {n : Nat}
    (counted : Folded count n) (width : type.bitstreamWidth = n * concat.type.bitstreamWidth)
    (fixed : type.isFixedSize) (inner : Lowers subroutines concat) :
    Lowers subroutines (.replication type none count concat) := by
  obtain ⟨enough, inner⟩ := inner
  refine ⟨enough + 1, fun fuel more ctx mod settled => ?_⟩
  obtain ⟨fuel, rfl⟩ : ∃ f, fuel = f + 1 := ⟨fuel - 1, by omega⟩
  obtain ⟨ret, mod1, read, run, grows, length, reads, means⟩ := inner fuel (by omega) ctx mod settled
  have lengthR : (ret.repeat (n : Int).toNat).length = type.bitstreamWidth := by
    simp [SigSpec.repeat, length, width, Nat.mul_comm]
  refine ⟨_, mod1, _, evaluateRhs_replication (folded_constantInt counted) run
    (checkWidth_of fixed lengthR), grows, lengthR, reads_repeat reads _, fun σ driven => ?_⟩
  have count := folded_count counted (current ctx mod σ)
  rw [value_replication, ← Option.bind_assoc, count, Option.some_bind, means σ driven]
  simp

theorem lowers_rangeSelect {type : SvType} {array left right : Expr} {i j : Int} {stride : Nat}
    (leftFolded : Folded left i) (rightFolded : Folded right j)
    (ranged : array.type.hasFixedRange = true)
    (layout : array.type.bitstreamWidth = array.type.fixedRange.width * stride)
    (inRange : array.type.fixedRange.containsPoint i ∧ array.type.fixedRange.containsPoint j)
    (order : array.type.fixedRange.translateIndex j ≤ array.type.fixedRange.translateIndex i)
    (width : (type.bitstreamWidth : Int) = stride *
      (array.type.fixedRange.translateIndex i - array.type.fixedRange.translateIndex j + 1))
    (fixed : type.isFixedSize) (inner : Lowers subroutines array) :
    Lowers subroutines (.rangeSelect type none .simple array left right) := by
  obtain ⟨enough, inner⟩ := inner
  have positive : 0 < array.type.fixedRange.width := by simp [ConstantRange.width]
  have strideEq : array.type.bitstreamWidth / array.type.fixedRange.width = stride := by
    rw [layout, Nat.mul_div_cancel_left _ positive]
  have bounds : rangeSelectBounds array left right = .ok (array.type.fixedRange.translateIndex i,
      array.type.fixedRange.translateIndex j, stride) := by
    have folds : (left.constant.isSome && right.constant.isSome) = true := by
      obtain ⟨_, leftConstant, -⟩ := leftFolded
      obtain ⟨_, rightConstant, -⟩ := rightFolded
      simp [leftConstant, rightConstant]
    rw [rangeSelectBounds, folded_constantInt leftFolded, folded_constantInt rightFolded]
    simp only [folds, ranged, require_true]
    rw [layout, Nat.mul_mod_right, Nat.mul_div_cancel_left _ positive]
    rfl
  obtain ⟨lowI, highI⟩ := ConstantRange.translateIndex_lt_width inRange.1
  obtain ⟨lowJ, -⟩ := ConstantRange.translateIndex_lt_width inRange.2
  have offset : (array.type.fixedRange.translateIndex j * stride).toNat =
      stride * (array.type.fixedRange.translateIndex j).toNat := by
    rw [Int.mul_comm, ← Int.toNat_of_nonneg lowJ, ← Int.natCast_mul, Int.toNat_natCast,
      Int.toNat_natCast]
  have fits : array.type.fixedRange.translateIndex j * stride + stride *
      (array.type.fixedRange.translateIndex i - array.type.fixedRange.translateIndex j + 1) ≤
      array.type.bitstreamWidth := calc
    _ = stride * (array.type.fixedRange.translateIndex i + 1) := by ring
    _ ≤ stride * array.type.fixedRange.width :=
      Int.mul_le_mul_of_nonneg_left (by omega) (Int.natCast_nonneg _)
    _ = array.type.bitstreamWidth := by rw [layout, Nat.cast_mul, Int.mul_comm]
  have below : array.type.fixedRange.translateIndex j * stride + type.bitstreamWidth ≤
      array.type.bitstreamWidth := by rw [width]; exact fits
  refine ⟨enough + 1, fun fuel more ctx mod settled => ?_⟩
  obtain ⟨fuel, rfl⟩ : ∃ f, fuel = f + 1 := ⟨fuel - 1, by omega⟩
  obtain ⟨base, mod1, read, run, grows, length, reads, means⟩ := inner fuel (by omega) ctx mod settled
  have lengthR : (base.extract (array.type.fixedRange.translateIndex j * stride).toNat
      (stride * (array.type.fixedRange.translateIndex i -
        array.type.fixedRange.translateIndex j + 1)).toNat).length = type.bitstreamWidth := by
    have span : ((stride : Int) * (array.type.fixedRange.translateIndex i -
        array.type.fixedRange.translateIndex j + 1)).toNat = type.bitstreamWidth := by
      rw [← width, Int.toNat_natCast]
    have nonneg : 0 ≤ array.type.fixedRange.translateIndex j * stride :=
      Int.mul_nonneg lowJ (Int.natCast_nonneg _)
    simp only [SigSpec.extract, List.length_take, List.length_drop, length, span]
    generalize array.type.fixedRange.translateIndex j * stride = o at below nonneg ⊢
    have room : type.bitstreamWidth + o.toNat ≤ array.type.bitstreamWidth := by omega
    exact Nat.min_eq_left (Nat.le_sub_of_add_le room)
  refine ⟨_, mod1, _, evaluateRhs_rangeSelect bounds run
    (extractChecked_of_le (Int.mul_nonneg lowJ (Int.natCast_nonneg _))
      (Int.mul_nonneg (Int.natCast_nonneg _) (by omega)) (by rw [length]; exact fits))
    (checkWidth_of fixed lengthR), grows, lengthR, (reads.drop _).take _, fun σ driven => ?_⟩
  rw [value_rangeSelect, means σ driven, Option.some_bind, ← Option.bind_assoc,
    folded_index leftFolded, Option.some_bind, ← Option.bind_assoc, folded_index rightFolded,
    Option.some_bind, strideEq, min_eq_right order, offset, ← width, Int.toNat_natCast]

theorem lowers_memberAccess {type : SvType} {array : Expr} {member : Member}
    (field : member.isField = true) (randMode : member.randModeNone = true)
    (fits : member.bitOffset + type.bitstreamWidth ≤ array.type.bitstreamWidth)
    (inner : Lowers subroutines array) : Lowers subroutines (.memberAccess type none array member) := by
  obtain ⟨enough, inner⟩ := inner
  refine ⟨enough + 1, fun fuel more ctx mod settled => ?_⟩
  obtain ⟨fuel, rfl⟩ : ∃ f, fuel = f + 1 := ⟨fuel - 1, by omega⟩
  obtain ⟨base, mod1, read, run, grows, length, reads, means⟩ := inner fuel (by omega) ctx mod settled
  refine ⟨_, mod1, _, evaluateRhs_memberAccess field randMode run
    (extractChecked_of_le (Int.natCast_nonneg _) (Int.natCast_nonneg _) (by rw [length]; omega)),
    grows, by show _ = type.bitstreamWidth; simp [SigSpec.extract, length]; omega,
    (reads.drop _).take _,
    fun σ driven => ?_⟩
  rw [value_memberAccess, means σ driven]
  rfl

/-- An element select with any index: `translate_index` turns the index into a raw index and a
valid bit, an `$bmux` picks the element from the base padded with `x`, and a `$mux` gives `x`
unless the valid bit is set. -/
theorem lowers_elementSelect {type : SvType} {array selector : Expr}
    (arrayed : (array.type.isArray && array.type.hasFixedRange) = true)
    (bounds : -2 ^ 31 ≤ array.type.fixedRange.lower ∧ array.type.fixedRange.upper < 2 ^ 31)
    (small : array.type.fixedRange.width < 2 ^ 31)
    (layout : array.type.bitstreamWidth = array.type.fixedRange.width * type.bitstreamWidth)
    (fixed : type.isFixedSize) (fourState : type.isFourState = true)
    (innerA : Lowers subroutines array) (innerS : Lowers subroutines selector) :
    Lowers subroutines (.elementSelect type none array selector) := by
  obtain ⟨enoughA, innerA⟩ := innerA
  obtain ⟨enoughS, innerS⟩ := innerS
  refine ⟨max enoughA (enoughS + 1) + 1, fun fuel more ctx mod settled => ?_⟩
  obtain ⟨fuel, rfl⟩ : ∃ f, fuel = f + 1 := ⟨fuel - 1, by omega⟩
  obtain ⟨base, mod1, readA, runA, growsA, lengthA, readsA, meansA⟩ := innerA fuel (by omega) ctx mod settled
  obtain ⟨f, rfl⟩ : ∃ f, fuel = f + 1 := ⟨fuel - 1, by omega⟩
  obtain ⟨idx, mod2, readS, runS, growsS, -, readsS, meansS⟩ := innerS f (by omega) ctx mod1 (settled.mono growsA)
  obtain ⟨rawIdx, valid, mod3, runIdx, grows3, lenIdx, readsValid, readsRaw⟩ :=
    translateIndex_spec runS readsS.made bounds
  have widthLe := le_two_pow_ceilLog2 small
  have divides : base.length % type.bitstreamWidth = 0 := by
    rw [lengthA, layout, Nat.mul_mod_left]
  have fitsLen : base.length ≤ type.bitstreamWidth * 2 ^ rawIdx.length := by
    rw [lengthA, layout, lenIdx, Nat.mul_comm]
    exact Nat.mul_le_mul_left _ widthLe
  have padded : (base ++ SigSpec.ofState .Sx
      (type.bitstreamWidth * 2 ^ rawIdx.length - base.length)).length =
      type.bitstreamWidth * 2 ^ rawIdx.length := by
    simp only [List.length_append, SigSpec.ofState, List.length_replicate]
    omega
  have strideEq : (base ++ SigSpec.ofState .Sx
      (type.bitstreamWidth * 2 ^ rawIdx.length - base.length)).length / 2 ^ rawIdx.length =
      type.bitstreamWidth := by
    rw [padded, Nat.mul_div_cancel _ (Nat.two_pow_pos _)]
  have bmuxLength (σ : Valuation) (sel : Const) (width : sel.length = rawIdx.length) :
      (constBmux (readA σ ++ List.replicate
        (type.bitstreamWidth * 2 ^ rawIdx.length - base.length) State.Sx) sel).length =
        type.bitstreamWidth := by
    refine length_constBmux _ _ _ ?_
    rw [width, List.length_append, List.length_replicate, length_read readsA]
    omega
  obtain ⟨selected, mod4, run4, grows4, -, reads4⟩ := Module.emit_reads .bmux false false
    ((base ++ SigSpec.ofState .Sx (type.bitstreamWidth * 2 ^ rawIdx.length - base.length)).length /
      2 ^ rawIdx.length)
    ((readsA.mono (growsS.trans grows3)).append (Module.Reads.ofState .Sx _)) Module.Reads.nil
    readsRaw (fun σ => by rw [strideEq]; exact bmuxLength σ _ (length_read readsRaw σ))
  obtain ⟨y, mod5, run5, grows5, lengthY, reads5⟩ := Module.emit_reads .mux false false
    (SigSpec.ofState .Sx type.bitstreamWidth).length (Module.Reads.ofState .Sx _) reads4
    (readsValid.mono grows4) (fun σ => by
      show (constMux (List.replicate type.bitstreamWidth State.Sx) _ _).length = _
      rw [length_constMux _ (by
        rw [List.length_replicate]
        exact (bmuxLength σ _ (length_read readsRaw σ)).symm)]
      simp [SigSpec.ofState])
  have run4' : Module.bmux (base ++ SigSpec.ofState .Sx
      (type.bitstreamWidth * 2 ^ rawIdx.length - base.length)) rawIdx mod3 = (selected, mod4) := run4
  have run5' : Module.mux (SigSpec.ofState .Sx type.bitstreamWidth) selected [valid] mod4 =
      (y, mod5) := run5
  have lengthY' : y.length = type.bitstreamWidth := by simpa [SigSpec.ofState] using lengthY
  rw [evaluateRhs_elementSelect arrayed runA divides runIdx fitsLen]
  simp only [BuildM.modifyGet_bind, run4', run5']
  refine ⟨y, mod5, _, by rw [checkWidth_of fixed lengthY']; rfl,
    growsA.trans (growsS.trans (grows3.trans (grows4.trans grows5))), lengthY', reads5,
    fun σ driven => ?_⟩
  have same := current_of_extends growsA settled σ
  have valueS := meansS σ (same ▸ driven)
  rw [same] at valueS
  have outside : outOfRange type = .Sx := by simp [outOfRange, fourState]
  rw [value_elementSelect, meansA σ driven, Option.some_bind, valueS, Option.some_bind, outside]
  beta_reduce
  rw [readsS.eval_eq mod2 (.refl mod2) σ, lenIdx, ← length_read readsA σ]
  exact congrArg some (selectCells_value _ (by rw [length_read readsA, lengthA, layout]) widthLe).symm

/-- `c ? a : b`: the condition's `$reduce_bool` selects between the two alternatives in a
`$mux`, which on alternatives without `z` is the conditional operator. -/
theorem lowers_conditionalOp {type : SvType} {condition left right : Expr}
    (widths : left.type.bitstreamWidth = type.bitstreamWidth ∧
      right.type.bitstreamWidth = type.bitstreamWidth)
    (fixed : type.isFixedSize) (innerC : Lowers subroutines condition)
    (innerL : Lowers subroutines left) (innerR : Lowers subroutines right)
    (drivenL : ∀ env, Driven env → ∀ {v}, value env left = some v → State.Sz ∉ v)
    (drivenR : ∀ env, Driven env → ∀ {v}, value env right = some v → State.Sz ∉ v) :
    Lowers subroutines (.conditionalOp type none [(condition, false)] left right) := by
  obtain ⟨enoughC, innerC⟩ := innerC
  obtain ⟨enoughL, innerL⟩ := innerL
  obtain ⟨enoughR, innerR⟩ := innerR
  refine ⟨max enoughC (max enoughL enoughR) + 1, fun fuel more ctx mod settled => ?_⟩
  obtain ⟨fuel, rfl⟩ : ∃ f, fuel = f + 1 := ⟨fuel - 1, by omega⟩
  obtain ⟨b, mod1, readB, runB, grows1, lengthB, readsB, meansB⟩ := innerR fuel (by omega) ctx mod settled
  obtain ⟨a, mod2, readA, runA, grows2, lengthA, readsA, meansA⟩ := innerL fuel (by omega) ctx mod1 (settled.mono grows1)
  obtain ⟨c, mod3, readC, runC, grows3, -, readsC, meansC⟩ := innerC fuel (by omega) ctx mod2 ((settled.mono grows1).mono grows2)
  obtain ⟨select, mod4, run4, grows4, -, reads4⟩ := Module.emit_reads .reduceBool false false 1
    readsC Module.Reads.nil Module.Reads.nil (fun σ => by simp [CellType.eval, constReduceBool,
      constReduceOr, constReduce])
  have sameLength : b.length = a.length := by rw [lengthA, lengthB, widths.1, widths.2]
  obtain ⟨y, mod5, run5, grows5, lengthY, reads5⟩ := Module.emit_reads .mux false false b.length
    (((readsB.mono grows2).mono grows3).mono grows4) ((readsA.mono grows3).mono grows4) reads4
    (fun σ => by
      show (constMux (readB σ) (readA σ) _).length = _
      rw [length_constMux _ (by rw [length_read readsB, length_read readsA, sameLength]),
        length_read readsB])
  have lengthY' : y.length = type.bitstreamWidth := by rw [lengthY, lengthB, widths.2]
  refine ⟨y, mod5, _, evaluateRhs_conditionalOp runB runA runC run4 run5
    (checkWidth_of fixed lengthY'), grows1.trans (grows2.trans (grows3.trans (grows4.trans grows5))),
    lengthY', reads5, fun σ driven => ?_⟩
  have same1 := current_of_extends grows1 settled σ
  have same2 := current_of_extends (grows1.trans grows2) settled σ
  have valueA := meansA σ (same1 ▸ driven)
  have valueC := meansC σ (same2 ▸ driven)
  rw [same1] at valueA
  rw [same2] at valueC
  have valueB := meansB σ driven
  rw [value_conditionalOp, valueC, Option.some_bind, valueA, Option.some_bind, valueB,
    Option.some_bind]
  exact congrArg some (constMux_truth _ _ _ (drivenL _ driven valueA) (drivenR _ driven valueB)).symm

/-! ## The fragment -/

/-- Every right-hand side of the fragment lowers to a signal that reads its meaning. -/
theorem lowers_of_rvalue {e : Expr} (rvalue : Rvalue e) : Lowers subroutines e := by
  induction rvalue with
  | folded constant fixed width _ => exact lowers_folded constant fixed width
  | named kind body fixed width => exact lowers_named kind body fixed width
  | unaryOp fits fixed _ ih => exact lowers_unaryOp fits fixed ih
  | binaryOp fits fixed _ _ ihL ihR => exact lowers_binaryOp fits fixed ihL ihR
  | conversion fromIntegral toIntegral signs nonempty fixed fourState _ ih =>
    exact lowers_conversion fromIntegral toIntegral signs nonempty fixed fourState ih
  | concatenation width fixed _ ih => exact lowers_concatenation width fixed ih
  | replication counted width fixed _ ih => exact lowers_replication counted width fixed ih
  | rangeSelect leftFolded rightFolded ranged layout inRange order width fixed _ ih =>
    exact lowers_rangeSelect leftFolded rightFolded ranged layout inRange order width fixed ih
  | elementSelect arrayed bounds small layout fixed fourState _ _ ihA ihS =>
    exact lowers_elementSelect arrayed bounds small layout fixed fourState ihA ihS
  | memberAccess field randMode fits _ ih => exact lowers_memberAccess field randMode fits ih
  | conditionalOp widths fixed _ innerL innerR ihC ihL ihR =>
    exact lowers_conditionalOp widths fixed ihC ihL ihR (fun _ driven _ => value_driven innerL driven)
      (fun _ driven _ => value_driven innerR driven)

end SlangFrontend.Verified.Lowering
