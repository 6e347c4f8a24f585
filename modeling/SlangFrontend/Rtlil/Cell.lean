import SlangFrontend.Rtlil.Const

/-! # Cells and their semantics

The cells the frontend and the builder instantiate, with the semantics Yosys gives them
(`CellTypes::eval`): each cell computes the `const_*` function of its type from the values of its
input ports. As in `CellTypes::eval`, the binary operators other than the shifts are signed
only when both `A_SIGNED` and `B_SIGNED` are set, and `$sshl`/`$sshr` with an unsigned `A` are
the logical shifts. `Y_WIDTH` is the width of the `Y` port, which `Module::check` requires.

Values of wires are given by a `Valuation`, defined for every bit of every wire.
-/

namespace SlangFrontend.Rtlil

/-- The cell types `ID($...)` that the code creates. -/
inductive CellType where
  | not | pos | neg | logicNot
  | reduceAnd | reduceOr | reduceXor | reduceXnor | reduceBool
  | add | sub | mul | div | divfloor | mod | pow
  | and | or | xor | xnor
  | eq | ne | eqx | nex | lt | le | gt | ge
  | logicAnd | logicOr
  | shl | shr | sshl | sshr | shift | shiftx
  | mux | bwmux | bmux | demux
  deriving DecidableEq, Repr

/-- A cell with ports `A`, `B`, `S`, `Y` and the signedness parameters. -/
structure Cell where
  type : CellType
  a : SigSpec
  b : SigSpec := []
  s : SigSpec := []
  y : SigSpec
  aSigned : Bool := false
  bSigned : Bool := false
  deriving DecidableEq, Repr

/-- The value of every wire bit. -/
def Valuation := WireId → Nat → State

namespace SigBit

def eval (σ : Valuation) : SigBit → State
  | const state => state
  | wire w offset => σ w offset

end SigBit

namespace SigSpec

def eval (σ : Valuation) (s : SigSpec) : Const := s.map (SigBit.eval σ)

variable (σ : Valuation) (s t : SigSpec) (n : Nat)

@[simp] theorem length_eval : (s.eval σ).length = s.length := List.length_map _ _

@[simp] theorem eval_append : eval σ (s ++ t) = s.eval σ ++ t.eval σ := List.map_append _ _ _

@[simp] theorem eval_take : eval σ (s.take n) = (s.eval σ).take n := List.map_take _ _ _

@[simp] theorem eval_drop : eval σ (s.drop n) = (s.eval σ).drop n := List.map_drop _ _ _

@[simp] theorem eval_ofState (state : State) : (ofState state n).eval σ = List.replicate n state := by
  simp [ofState, eval, SigBit.eval]

@[simp] theorem eval_extract (offset : Nat) :
    (s.extract offset n).eval σ = ((s.eval σ).drop offset).take n := by
  rw [extract, eval_take, eval_drop]

end SigSpec

@[simp] theorem Const.eval_toSig (c : Const) (σ : Valuation) : SigSpec.eval σ c.toSig = c := by
  simp [Const.toSig, SigSpec.eval, Function.comp_def, SigBit.eval]

@[simp] theorem Const.length_toSig (c : Const) : c.toSig.length = c.length := List.length_map _ _


/-- `CellTypes::eval`: the value a cell of type `type` drives onto `len` output bits, from the
values of its inputs. -/
def CellType.eval (type : CellType) (a b s : Const) (aSigned bSigned : Bool) (len : Nat) : Const :=
  let signed := aSigned && bSigned
  match type with
  | .not => constNot a aSigned len
  | .pos => Const.extendU0 a len aSigned
  | .neg => constSub [.S0] a true aSigned len
  | .logicNot => constLogicNot a len
  | .reduceAnd => constReduceAnd a len
  | .reduceOr => constReduceOr a len
  | .reduceXor => constReduceXor a len
  | .reduceXnor => constReduceXnor a len
  | .reduceBool => constReduceBool a len
  | .add => constAdd a b signed signed len
  | .sub => constSub a b signed signed len
  | .mul => constMul a b signed signed len
  | .div => constDiv a b signed signed len
  | .divfloor => constDivfloor a b signed signed len
  | .mod => constMod a b signed signed len
  | .pow => constPow a b signed signed len
  | .and => constAnd a b signed signed len
  | .or => constOr a b signed signed len
  | .xor => constXor a b signed signed len
  | .xnor => constXnor a b signed signed len
  | .eq => constEq a b signed signed len
  | .ne => constNe a b signed signed len
  | .eqx => constEqx a b signed signed len
  | .nex => constNex a b signed signed len
  | .lt => constLt a b signed signed len
  | .le => constLe a b signed signed len
  | .gt => constGt a b signed signed len
  | .ge => constGe a b signed signed len
  | .logicAnd => constLogicAnd a b len
  | .logicOr => constLogicOr a b len
  | .shl => constShl a b aSigned len
  | .shr => constShr a b aSigned len
  | .sshl => constSshl a b aSigned len
  | .sshr => constSshr a b aSigned len
  | .shift => constShift a b aSigned bSigned len
  | .shiftx => constShiftx a b bSigned len
  | .mux => constMux a b s
  | .bwmux => constBwmux a b s
  | .bmux => constBmux a s
  | .demux => constDemux a s

/-- The value a cell drives onto its `Y` port. -/
def Cell.eval (σ : Valuation) (c : Cell) : Const :=
  c.type.eval (c.a.eval σ) (c.b.eval σ) (c.s.eval σ) c.aSigned c.bSigned c.y.length

/-! ## Writing values onto wires -/

namespace Valuation

/-- The valuation with bit `offset` of `w` set to `v`. -/
def update (σ : Valuation) (w : WireId) (offset : Nat) (v : State) : Valuation :=
  fun w' offset' => if w' = w ∧ offset' = offset then v else σ w' offset'

/-- The valuation with the wire bits of `lhs` set to `value`, bit by bit. -/
def write : Valuation → SigSpec → Const → Valuation
  | σ, .wire w offset :: lhs, v :: vs => write (σ.update w offset v) lhs vs
  | σ, .const _ :: lhs, _ :: vs => write σ lhs vs
  | σ, _, _ => σ

/-! ## Frame lemmas of `write` -/

/-- Writing a signal leaves every bit outside it alone. -/
theorem write_apply_of_not_mem (σ : Valuation) (lhs : SigSpec) (value : Const) (w : WireId)
    (offset : Nat) (outside : SigBit.wire w offset ∉ lhs) :
    σ.write lhs value w offset = σ w offset := by
  induction lhs generalizing σ value with
  | nil => cases value <;> rfl
  | cons bit lhs ih =>
    have rest : SigBit.wire w offset ∉ lhs := fun h => outside (List.mem_cons_of_mem _ h)
    cases value with
    | nil => cases bit <;> rfl
    | cons v vs =>
      cases bit with
      | const _ => exact ih σ vs rest
      | wire w' offset' =>
        rw [write, ih _ vs rest, update, if_neg]
        rintro ⟨rfl, rfl⟩
        exact outside (List.mem_cons_self _ _)

/-- Writing a signal leaves the value of every signal with no bit in it alone. -/
theorem eval_write_of_disjoint (σ : Valuation) (lhs s : SigSpec) (value : Const)
    (disjoint : ∀ bit ∈ s, bit ∉ lhs) : SigSpec.eval (σ.write lhs value) s = SigSpec.eval σ s := by
  refine List.map_congr_left fun bit mem => ?_
  cases bit with
  | const _ => rfl
  | wire w offset => exact write_apply_of_not_mem σ lhs value w offset (disjoint _ mem)

/-- A signal of distinct wire bits reads back the value written to it. -/
theorem eval_write_self (σ : Valuation) (lhs : SigSpec) (value : Const) (distinct : lhs.Nodup)
    (wires : ∀ bit ∈ lhs, ∃ w offset, bit = .wire w offset) (sameLength : lhs.length = value.length) :
    SigSpec.eval (σ.write lhs value) lhs = value := by
  induction lhs generalizing σ value with
  | nil => cases value <;> simp_all [SigSpec.eval]
  | cons bit lhs ih =>
    obtain ⟨w, offset, rfl⟩ := wires bit (List.mem_cons_self _ _)
    cases value with
    | nil => simp at sameLength
    | cons v vs =>
      have fresh : SigBit.wire w offset ∉ lhs := (List.nodup_cons.mp distinct).1
      simp only [List.length_cons, Nat.add_right_cancel_iff] at sameLength
      have rest := ih (σ.update w offset v) vs (List.nodup_cons.mp distinct).2
        (fun b hb => wires b (List.mem_cons_of_mem _ hb)) sameLength
      simp only [SigSpec.eval, List.map_cons, write, SigBit.eval] at rest ⊢
      rw [rest, write_apply_of_not_mem _ _ _ _ _ fresh]
      simp [update]

end Valuation

end SlangFrontend.Rtlil
