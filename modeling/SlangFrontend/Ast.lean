import SlangFrontend.Builder

/-! # The elaborated AST the frontend reads

The parts of slang's AST that `slang_frontend.cc` inspects: canonical types with their
bitstream widths and fixed ranges, constant values, symbols, expressions with the type and the
folded constant slang attaches to each, statements, timing controls and procedural blocks.
A call names its subroutine by an index into the design's table of subroutines, so that a
function may call itself.
-/

namespace SlangFrontend.Ast

open Rtlil

/-- `slang::ConstantRange`: `[left:right]`. -/
structure ConstantRange where
  left : Int
  right : Int
  deriving DecidableEq, Repr

namespace ConstantRange

def lower (r : ConstantRange) : Int := min r.left r.right

def upper (r : ConstantRange) : Int := max r.left r.right

def width (r : ConstantRange) : Nat := (r.left - r.right).natAbs + 1

/-- `ConstantRange::translateIndex`: how far index `i` lies from the right bound, counted
towards the left one. -/
def translateIndex (r : ConstantRange) (i : Int) : Int :=
  if r.right ≤ r.left then i - r.right else r.right - i

/-- `ConstantRange::containsPoint`. -/
def containsPoint (r : ConstantRange) (i : Int) : Bool := r.lower ≤ i && i ≤ r.upper

/-- An index in the range translates to a position among its `width` elements. -/
theorem translateIndex_lt_width {r : ConstantRange} {i : Int} (inside : r.containsPoint i) :
    0 ≤ r.translateIndex i ∧ r.translateIndex i < r.width := by
  simp only [containsPoint, lower, upper, Bool.and_eq_true, decide_eq_true_eq] at inside
  unfold translateIndex width
  split <;> omega

end ConstantRange

/-- slang's canonical types, as far as their layout goes. -/
inductive SvType where
  /-- `logic`, `reg` or `bit`. -/
  | scalar (fourState signed : Bool)
  /-- `byte`, `shortint`, `int`, `longint`, `integer`, `time`: `[width-1:0]`. -/
  | predefined (width : Nat) (fourState signed : Bool)
  | packedArray (elem : SvType) (range : ConstantRange) (signed : Bool)
  /-- A packed struct, its fields listed from the most significant one. -/
  | packedStruct (fields : List SvType) (signed : Bool)
  | unpackedArray (elem : SvType) (range : ConstantRange)
  | unpackedStruct (fields : List SvType)
  /-- Everything that is not fixed-size: `real`, `string`, dynamic arrays, queues, ... -/
  | other
  deriving Repr

namespace SvType

/-- `Type::getBitstreamWidth()`. -/
def bitstreamWidth : SvType → Nat
  | scalar .. => 1
  | predefined width .. => width
  | packedArray elem range _ => range.width * bitstreamWidth elem
  | packedStruct fields _ => widthSum fields
  | unpackedArray elem range => range.width * bitstreamWidth elem
  | unpackedStruct fields => widthSum fields
  | other => 0
where
  widthSum : List SvType → Nat
    | [] => 0
    | field :: fields => bitstreamWidth field + widthSum fields

def isSigned : SvType → Bool
  | scalar _ signed | predefined _ _ signed | packedArray _ _ signed | packedStruct _ signed =>
    signed
  | _ => false

def isIntegral : SvType → Bool
  | scalar .. | predefined .. | packedArray .. | packedStruct .. => true
  | _ => false

def isFixedSize : SvType → Bool
  | other => false
  | _ => true

def isArray : SvType → Bool
  | packedArray .. | unpackedArray .. => true
  | _ => false

def hasFixedRange (t : SvType) : Bool :=
  t.isIntegral || match t with
    | unpackedArray .. => true
    | _ => false

/-- `Type::getFixedRange()`: the declared range, `[width-1:0]` for the other integral types. -/
def fixedRange (t : SvType) : ConstantRange :=
  match t with
  | packedArray _ range _ | unpackedArray _ range => range
  | _ => ⟨(t.bitstreamWidth : Int) - 1, 0⟩

/-- `Type::getBitWidth()`: the width of an integral type. -/
def bitWidth (t : SvType) : Nat := if t.isIntegral then t.bitstreamWidth else 0

/-- Whether the type's bits hold `x` and `z` (a `logic` rather than a `bit`). -/
def isFourState : SvType → Bool
  | scalar fourState _ | predefined _ fourState _ => fourState
  | packedArray elem .. | unpackedArray elem .. => isFourState elem
  | packedStruct fields _ | unpackedStruct fields => anyFourState fields
  | other => false
where
  anyFourState : List SvType → Bool
    | [] => false
    | field :: fields => isFourState field || anyFourState fields

end SvType

/-! ## Constant values -/

/-- `slang::logic_t`. -/
inductive Logic where
  | zero | one | x | z
  deriving DecidableEq, Repr

/-- `slang::SVInt`: four-state bits, least significant first. -/
structure SVInt where
  bits : List Logic
  signed : Bool
  deriving DecidableEq, Repr

namespace SVInt

/-- The value of a fully known `SVInt`, two's complement when signed. -/
def toInt? (v : SVInt) : Option Int :=
  v.bits.foldr (fun b acc => match b, acc with
    | .zero, some n => some (2 * n)
    | .one, some n => some (2 * n + 1)
    | _, _ => none) (some 0) |>.map fun n =>
      if v.signed && v.bits.getLast? == some .one then n - 2 ^ v.bits.length else n

/-- `SVInt::as<int>()`: the value when it is known and fits in 32 bits. -/
def asInt (v : SVInt) : Option Int :=
  v.toInt?.bind fun n => if -2 ^ 31 ≤ n ∧ n < 2 ^ 31 then some n else none

end SVInt

/-- `slang::ConstantValue`. -/
inductive ConstantValue where
  | integer (value : SVInt)
  /-- The elements of an unpacked array or struct, from the left bound. -/
  | unpacked (elements : List ConstantValue)
  | string (value : String)
  | other
  deriving Repr

namespace ConstantValue

/-- `ConstantValue::getBitstreamWidth()`. -/
def bitstreamWidth : ConstantValue → Nat
  | .integer v => v.bits.length
  | .unpacked elements => widthSum elements
  | .string s => 8 * s.length
  | .other => 0
where
  widthSum : List ConstantValue → Nat
    | [] => 0
    | element :: elements => bitstreamWidth element + widthSum elements

end ConstantValue

/-! ## Symbols -/

inductive SymbolKind where
  | net | variable | parameter | formalArgument | other
  deriving DecidableEq, Repr

/-- A value symbol; `id` names its wire `net_id(sym)`. -/
structure Symbol where
  id : Nat
  kind : SymbolKind
  type : SvType
  /-- Whether `getParentScope()->asSymbol()` is the instance body. -/
  inInstanceBody : Bool := true
  /-- Whether the symbol has an initializer, and the constant slang folded it to, if any. -/
  initializer : Option (Option ConstantValue) := none
  deriving Repr

/-! ## Expressions and statements -/

inductive UnaryOperator where
  | plus | minus | bitwiseNot | bitwiseAnd | bitwiseOr | bitwiseXor
  | bitwiseNand | bitwiseNor | bitwiseXnor | logicalNot
  deriving DecidableEq, Repr

inductive BinaryOperator where
  | add | subtract | multiply | divide | mod
  | binaryAnd | binaryOr | binaryXor | binaryXnor
  | equality | inequality | caseEquality | caseInequality
  | greaterThanEqual | greaterThan | lessThanEqual | lessThan
  | wildcardEquality | wildcardInequality
  | logicalAnd | logicalOr | logicalImplication | logicalEquivalence
  | logicalShiftLeft | logicalShiftRight | arithmeticShiftLeft | arithmeticShiftRight
  | power
  deriving DecidableEq, Repr

inductive RangeSelectionKind where
  | simple | indexedUp | indexedDown
  deriving DecidableEq, Repr

/-- The member of a `MemberAccessExpression`: whether it is a field, whether its `randMode` is
`None`, and its `bitOffset`. -/
structure Member where
  isField : Bool := true
  randModeNone : Bool := true
  bitOffset : Nat
  deriving DecidableEq, Repr

/-- The target of a call: a system subroutine, or an entry of the subroutine table. -/
inductive CallTarget where
  | system (name : String)
  | subroutine (name : String) (index : Nat)
  deriving DecidableEq, Repr

/-- `getSubroutineName()`. -/
def CallTarget.name : CallTarget → String
  | .system name | .subroutine name _ => name

/-- An expression with the type slang gave it and the constant `tryEval` left in
`expr.constant`. A condition of a `?:` is its expression and whether it has a pattern. -/
inductive Expr where
  | namedValue (type : SvType) (constant : Option ConstantValue) (symbol : Symbol)
  | unaryOp (type : SvType) (constant : Option ConstantValue) (op : UnaryOperator)
      (operand : Expr)
  | binaryOp (type : SvType) (constant : Option ConstantValue) (op : BinaryOperator)
      (left right : Expr)
  | conversion (type : SvType) (constant : Option ConstantValue) (operand : Expr)
  | integerLiteral (type : SvType) (constant : Option ConstantValue) (value : SVInt)
  | stringLiteral (type : SvType) (constant : Option ConstantValue) (value : String)
  | rangeSelect (type : SvType) (constant : Option ConstantValue) (kind : RangeSelectionKind)
      (value left right : Expr)
  | elementSelect (type : SvType) (constant : Option ConstantValue) (value selector : Expr)
  | concatenation (type : SvType) (constant : Option ConstantValue) (operands : List Expr)
  | conditionalOp (type : SvType) (constant : Option ConstantValue)
      (conditions : List (Expr × Bool)) (left right : Expr)
  | replication (type : SvType) (constant : Option ConstantValue) (count concat : Expr)
  | memberAccess (type : SvType) (constant : Option ConstantValue) (value : Expr)
      (member : Member)
  | call (type : SvType) (constant : Option ConstantValue) (target : CallTarget)
      (arguments : List Expr)
  | assignment (type : SvType) (constant : Option ConstantValue) (nonBlocking : Bool)
      (left right : Expr)
  | emptyArgument (type : SvType) (constant : Option ConstantValue)
  /-- Every other kind of expression. -/
  | other (type : SvType) (constant : Option ConstantValue)
  deriving Repr

namespace Expr

def type : Expr → SvType
  | namedValue t .. | unaryOp t .. | binaryOp t .. | conversion t .. | integerLiteral t ..
  | stringLiteral t .. | rangeSelect t .. | elementSelect t .. | concatenation t ..
  | conditionalOp t .. | replication t .. | memberAccess t .. | call t .. | assignment t ..
  | emptyArgument t .. | other t .. => t

def constant : Expr → Option ConstantValue
  | namedValue _ c .. | unaryOp _ c .. | binaryOp _ c .. | conversion _ c ..
  | integerLiteral _ c .. | stringLiteral _ c .. | rangeSelect _ c .. | elementSelect _ c ..
  | concatenation _ c .. | conditionalOp _ c .. | replication _ c .. | memberAccess _ c ..
  | call _ c .. | assignment _ c .. | emptyArgument _ c .. | other _ c => c

end Expr

inductive StatementBlockKind where
  | sequential | joinAll | joinAny | joinNone
  deriving DecidableEq, Repr

inductive CaseStatementCondition where
  | normal | wildcardXOrZ | wildcardJustZ | inside
  deriving DecidableEq, Repr

inductive UniquePriorityCheck where
  | none | unique | unique0 | priority
  deriving DecidableEq, Repr

/-- A statement. A condition of an `if` is its expression and whether it has a pattern; a case
item is its expressions and its statement. -/
inductive Stmt where
  | list (stmts : List Stmt)
  | block (kind : StatementBlockKind) (body : Stmt)
  | expression (expr : Expr)
  | conditional (conditions : List (Expr × Bool)) (ifTrue : Stmt) (ifFalse : Option Stmt)
  | case (condition : CaseStatementCondition) (check : UniquePriorityCheck) (expr : Expr)
      (items : List (List Expr × Stmt)) (defaultCase : Option Stmt)
  | empty
  | variableDecl
  | invalid
  /-- Every other kind of statement: loops, `return`, timed statements inside a body, ... -/
  | other
  deriving Repr

inductive SubroutineKind where
  | function | task
  deriving DecidableEq, Repr

/-- A `SubroutineSymbol`: its kind, formal arguments, body and return-value variable. -/
structure Subroutine where
  kind : SubroutineKind
  arguments : List Symbol
  body : Stmt
  returnValVar : Symbol
  deriving Repr

/-- The subroutines of a design, by index. -/
def Subroutines := Nat → Option Subroutine

/-! ## Procedural blocks -/

inductive EdgeKind where
  | none | posEdge | negEdge | bothEdges
  deriving DecidableEq, Repr

inductive TimingControl where
  | signalEvent (expr : Expr) (edge : EdgeKind) (hasIffCondition : Bool)
  | implicitEvent
  | eventList (events : List TimingControl)
  | other
  deriving Repr

inductive ProceduralBlockKind where
  | always | alwaysFF | alwaysComb | alwaysLatch | initial | final
  deriving DecidableEq, Repr

/-- A `ProceduralBlockSymbol`; the body of `always` and `always_ff` is a timed statement. -/
inductive ProceduralBody where
  | timed (timing : TimingControl) (stmt : Stmt)
  | plain (stmt : Stmt)
  deriving Repr

structure ProceduralBlock where
  kind : ProceduralBlockKind
  body : ProceduralBody
  deriving Repr

/-! ## Instance bodies -/

inductive ArgumentDirection where
  | input | output | inOut | ref
  deriving DecidableEq, Repr

/-- A member of an instance body, as `ModulePopulatingVisitor` dispatches on it. A port
connection names its port and holds its expression, if any. -/
inductive BodyMember where
  | port (internalSymbol : Symbol) (direction : ArgumentDirection)
  | net (symbol : Symbol) (initializer : Option Expr)
  | variable (symbol : Symbol)
  | parameter (symbol : Symbol)
  | continuousAssign (assignment : Expr)
  | proceduralBlock (block : ProceduralBlock)
  | instance (name : String) (isModule : Bool) (connections : List (Nat × Option Expr))
  | generateBlock (isUninstantiated : Bool) (members : List BodyMember)
  | statementBlock (members : List BodyMember)
  /-- A function or task, which it skips, with the value symbols declared in it: its arguments,
  its return value and its locals. -/
  | subroutine (valueSymbols : List Symbol)
  /-- Types, net types and transparent members, which it skips. -/
  | ignored
  | other
  deriving Repr

namespace SvType

/-- `Type::getDefaultValue()`: `x` bits for a four-state integral type, zeros for a two-state
one, element by element for unpacked types. -/
def defaultValue : SvType → ConstantValue
  | t@(scalar fourState signed) | t@(predefined _ fourState signed) =>
    .integer ⟨List.replicate t.bitstreamWidth (if fourState then .x else .zero), signed⟩
  | t@(packedArray _ _ signed) | t@(packedStruct _ signed) =>
    .integer ⟨List.replicate t.bitstreamWidth (if t.isFourState then .x else .zero), signed⟩
  | unpackedArray elem range => .unpacked (List.replicate range.width (defaultValue elem))
  | unpackedStruct fields => .unpacked (defaultValues fields)
  | other => .other
where
  defaultValues : List SvType → List ConstantValue
    | [] => []
    | field :: fields => defaultValue field :: defaultValues fields

end SvType

end SlangFrontend.Ast
