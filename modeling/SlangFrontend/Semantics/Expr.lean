import SlangFrontend.Ast

/-! # What an expression means

The reference the lowering is measured against: the value SystemVerilog gives an expression
(IEEE 1800-2017, clause 11) over four-state bits. Slang has already converted every operand to
the width and signedness its context requires, as `conversion` nodes, so each operator here
works on operands of the widths the tree gives them, and its result has the width of its own
type. A value is listed from its least significant bit, as `Rtlil.Const` is. The meaning is
partial: `none` is an expression outside the fragment below (calls, shifts, comparisons, ...).

A node slang folded to an integer, a parameter reference among them, means its folded value:
slang's constant evaluation is the reference for constant expressions. Two-state types hold no
`x` or `z`: a conversion to a two-state type turns them into zeros (6.24.1), and an element
select with an index that is unknown or outside the range reads zeros from a two-state array and
`x` from a four-state one (7.4.6, 11.5.1).

Nothing here reads the frontend: the four-state tables are those of clause 11 and the bit
positions of selects are those of clause 7.4.
-/

namespace SlangFrontend.Semantics

open Rtlil Ast

/-- The values of the design's variables: bit `i`, from the least significant, of the variable
whose symbol has id `s`. -/
def Env := Nat → Nat → State

/-- The value of a variable. -/
def Env.read (env : Env) (symbol : Symbol) : Const :=
  (List.range symbol.type.bitstreamWidth).map (env symbol.id)

/-- The netlist valuation of the inputs: each variable's wire carries the variable's value, and
the wires cells drive are undefined until the cells are evaluated. -/
def Env.toValuation (env : Env) : Valuation
  | .net s => env s
  | .fresh _ => fun _ => .Sx

/-- A `logic_t` as a bit of a netlist. -/
def Logic.toState : Logic → State
  | .zero => .S0
  | .one => .S1
  | .x => .Sx
  | .z => .Sz

/-! ## Operators -/

/-- Whether every bit of a value is one of `states`. -/
def allIn (states : List State) (v : Const) : Bool := v.all (· ∈ states)

/-- The truth of a value used as a condition (11.4.7): one if some bit is one, zero if every bit
is zero, `x` otherwise. -/
def truth (v : Const) : State :=
  if v.any (· == .S1) then .S1 else if allIn [.S0] v then .S0 else .Sx

/-- `&v` (11.4.9): zero if some bit is zero, one if every bit is one, `x` otherwise. -/
def reduceAnd (v : Const) : State :=
  if v.any (· == .S0) then .S0 else if allIn [.S1] v then .S1 else .Sx

/-- `|v`. -/
def reduceOr (v : Const) : State :=
  if v.any (· == .S1) then .S1 else if allIn [.S0] v then .S0 else .Sx

/-- `^v`: the parity of a fully known value, `x` otherwise. -/
def reduceXor (v : Const) : State :=
  if allIn [.S0, .S1] v then State.ofBool (v.count .S1 % 2 == 1) else .Sx

/-- The unary operators of 11.4.3, 11.4.7 and 11.4.9. -/
def unaryValue : UnaryOperator → Const → Option Const
  | .plus, v => some v
  | .minus, v => some (match Const.toNat? v with
      | some n => Const.ofInt v.length (-(n : Int))
      | none => List.replicate v.length .Sx)
  | .bitwiseNot, v => some (v.map State.lnot)
  | .bitwiseAnd, v => some [reduceAnd v]
  | .bitwiseOr, v => some [reduceOr v]
  | .bitwiseXor, v => some [reduceXor v]
  | .bitwiseNand, v => some [State.lnot (reduceAnd v)]
  | .bitwiseNor, v => some [State.lnot (reduceOr v)]
  | .bitwiseXnor, v => some [State.lnot (reduceXor v)]
  | .logicalNot, v => some [State.lnot (truth v)]

/-- An arithmetic operator on equal-width operands: the result modulo `2 ^ width`, all `x` when
an operand has an unknown bit (11.4.3). -/
def arith (f : Nat → Nat → Int) (width : Nat) (a b : Const) : Const :=
  match Const.toNat? a, Const.toNat? b with
  | some x, some y => Const.ofInt width (f x y)
  | _, _ => List.replicate width .Sx

/-- `a == b` (11.4.5): zero if some pair of known bits differs, `x` if some bit is unknown,
one otherwise. -/
def logicEq (a b : Const) : State :=
  let pairs := a.zip b
  if pairs.any fun (x, y) => x.isDef && y.isDef && x != y then .S0
  else if allIn [.S0, .S1] a && allIn [.S0, .S1] b then .S1 else .Sx

/-- `a / b` or `a % b` (11.4.2) on equal-width operands, read as signed when both are: the
quotient rounds toward zero and the remainder takes the sign of `a`; all `x` when an operand has
an unknown bit or `b` is zero. -/
def divide (f : Int → Int → Int) (width : Nat) (signed : Bool) (a b : Const) : Const :=
  match Const.toInt? signed a, Const.toInt? signed b with
  | some x, some y => if y = 0 then List.replicate width .Sx else Const.ofInt width (f x y)
  | _, _ => List.replicate width .Sx

/-- The binary operators of the fragment: bitwise (11.4.8), logical (11.4.7), equality
(11.4.5), and addition, subtraction, multiplication, division and modulus (11.4.3), signed
when both operands are. -/
def binaryValue (width : Nat) (signed : Bool) : BinaryOperator → Const → Const → Option Const
  | .binaryAnd, a, b => some (List.zipWith State.land a b)
  | .binaryOr, a, b => some (List.zipWith State.lor a b)
  | .binaryXor, a, b => some (List.zipWith State.lxor a b)
  | .binaryXnor, a, b => some (List.zipWith State.lxnor a b)
  | .logicalAnd, a, b => some [State.land (truth a) (truth b)]
  | .logicalOr, a, b => some [State.lor (truth a) (truth b)]
  | .equality, a, b => some [logicEq a b]
  | .inequality, a, b => some [State.lnot (logicEq a b)]
  | .add, a, b => some (arith (fun x y => x + y) width a b)
  | .subtract, a, b => some (arith (fun x y => x - y) width a b)
  | .multiply, a, b => some (arith (fun x y => x * y) width a b)
  | .divide, a, b => some (divide Int.tdiv width signed a b)
  | .mod, a, b => some (divide Int.tmod width signed a b)
  | _, _, _ => none

/-- A value resized to `width` bits (6.24.1): truncated, or extended with its sign bit when
the source is signed and with zeros otherwise. -/
def resize (v : Const) (signed : Bool) (width : Nat) : Const :=
  if width ≤ v.length then v.take width
  else v ++ List.replicate (width - v.length) (if signed then v.getLast?.getD .S0 else .S0)

/-- A bit as a two-state type holds it: `x` and `z` become zero. -/
def State.twoState : State → State
  | .S1 => .S1
  | _ => .S0

/-- A value converted to `type` (6.24.1): resized, and with `x` and `z` made zero when `type`
is two-state. -/
def convert (v : Const) (signed : Bool) (type : SvType) : Const :=
  let v := resize v signed type.bitstreamWidth
  if type.isFourState then v else v.map State.twoState

/-- What an element select of `type` reads for an unknown or out-of-range index: `x` from a
four-state array, zero from a two-state one. -/
def outOfRange (type : SvType) : State := if type.isFourState then .Sx else .S0

/-- The integer an index expression denotes, read as signed when its type is; `none` when a
bit is unknown. -/
def indexValue (v : Const) (signed : Bool) : Option Int :=
  (Const.toNat? v).map fun n =>
    if signed && v.getLast? == some .S1 then (n : Int) - 2 ^ v.length else n

/-- `v[i]` on `range.width` elements of `stride` bits each (7.4.6): the element `i` names, or
`stride` copies of `outside` when `i` is unknown or outside the range. -/
def selectElement {α : Type} (v : List α) (outside : α) (range : ConstantRange) (stride : Nat) :
    Option Int → List α
  | some i =>
    if range.containsPoint i then (v.drop (stride * (range.translateIndex i).toNat)).take stride
    else List.replicate stride outside
  | none => List.replicate stride outside

/-- The four-state merge of the two values of `c ? a : b` when `c` is unknown (11.4.11): the
bits on which they agree, `x` elsewhere. -/
def merge (a b : Const) : Const :=
  List.zipWith (fun x y => if x == y && x.isDef then x else .Sx) a b

/-! ## Expressions -/

/-- The value of a constant slang folded: an integer's bits; the fragment has no other. -/
def constantValue : ConstantValue → Option Const
  | .integer v => some (v.bits.map Logic.toState)
  | _ => none

/-- What a node means given what it means unfolded: its constant, if slang folded it. -/
def folding : Option ConstantValue → Option Const → Option Const
  | some constant, _ => constantValue constant
  | none, unfolded => unfolded

@[simp] theorem folding_none (unfolded : Option Const) : folding none unfolded = unfolded := rfl

mutual
/-- The value of an expression. -/
def value (env : Env) : Expr → Option Const
  | .namedValue _ c symbol => folding c <|
    match symbol.kind with
    | .net | .variable => some (env.read symbol)
    | _ => none
  | .integerLiteral _ c v => folding c (some (v.bits.map Logic.toState))
  | .unaryOp _ c op operand => folding c <| (value env operand).bind (unaryValue op)
  | .binaryOp type c op left right => folding c do
    binaryValue type.bitstreamWidth (left.type.isSigned && right.type.isSigned) op
      (← value env left) (← value env right)
  | .conversion type c operand => folding c do
    pure (convert (← value env operand) operand.type.isSigned type)
  | .concatenation _ c operands => folding c (concatValue env operands)
  | .replication _ c count concat => folding c do
    let n ← Const.toNat? (← value env count)
    pure (List.replicate n (← value env concat)).flatten
  | .rangeSelect type c .simple array left right => folding c do
    let base ← value env array
    let l ← indexValue (← value env left) left.type.isSigned
    let r ← indexValue (← value env right) right.type.isSigned
    let range := array.type.fixedRange
    let stride := array.type.bitstreamWidth / range.width
    let low := min (range.translateIndex l) (range.translateIndex r)
    pure ((base.drop (stride * low.toNat)).take type.bitstreamWidth)
  | .elementSelect type c array selector => folding c do
    let base ← value env array
    let index := indexValue (← value env selector) selector.type.isSigned
    pure (selectElement base (outOfRange type) array.type.fixedRange type.bitstreamWidth index)
  | .memberAccess type c whole member => folding c do
    pure (((← value env whole).drop member.bitOffset).take type.bitstreamWidth)
  | .conditionalOp _ c [(condition, false)] left right => folding c do
    let cond ← value env condition
    let a ← value env left
    let b ← value env right
    pure (match truth cond with
      | .S1 => a
      | .S0 => b
      | _ => merge a b)
  | e => folding e.constant none

/-- The value of a concatenation of `operands`: the first operand is the most significant. -/
def concatValue (env : Env) : List Expr → Option Const
  | [] => some []
  | operand :: operands => do
    let rest ← concatValue env operands
    pure (rest ++ (← value env operand))
end

/-- A node slang folded means its constant, whatever its operands mean. -/
theorem value_of_constant {env : Env} {e : Expr} {constant : ConstantValue}
    (folded : e.constant = some constant) : value env e = constantValue constant := by
  cases e <;> simp only [Expr.constant] at folded <;> subst folded
  case rangeSelect kind _ _ _ => cases kind <;> rfl
  case conditionalOp conditions _ _ => rcases conditions with _ | ⟨⟨_, _ | _⟩, _ | _⟩ <;> rfl
  all_goals rfl

end SlangFrontend.Semantics
