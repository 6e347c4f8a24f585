import Mathlib.Data.List.Basic

/-! # RTLIL signals

The bit-level signal algebra of the Yosys intermediate representation, as far as
`slang_frontend.cc` and `builder.cc` use it: the four bit states, wire bits, `SigSpec` and
the substitution maps `Yosys::dict<SigBit, SigBit>`.

A `SigSpec` is a list of bits, least significant first. The C++ brace literal
`{hi, ..., lo}` lists its parts most significant first and appends them from the last one on;
`SigSpec.concat` takes the parts in that same order.
-/

namespace SlangFrontend.Rtlil

/-- `RTLIL::State`, restricted to the four values the frontend produces. -/
inductive State where
  | S0 | S1 | Sx | Sz
  deriving DecidableEq, Repr

/-- A wire of the module under construction: the wire `net_id(sym)` that the wire-adding pass
made for a declared symbol, or a wire made with `NEW_ID`. -/
inductive WireId where
  | net (symbol : Nat)
  | fresh (index : Nat)
  deriving DecidableEq, Repr

/-- `RTLIL::SigBit`: a constant bit or one bit of a wire. -/
inductive SigBit where
  | const (state : State)
  | wire (wire : WireId) (offset : Nat)
  deriving DecidableEq, Repr

/-- `RTLIL::SigSpec`, least significant bit first. -/
abbrev SigSpec := List SigBit

/-- `RTLIL::Const`: a vector of states, least significant first. -/
abbrev Const := List State

namespace SigBit

/-- The order of `SigBit::operator<`: constants first, then wires, each wire's bits by offset.
Yosys orders wires by their name's index; here declared symbols come before `NEW_ID` wires. -/
def key : SigBit → Nat × Nat × Nat
  | const .S0 => (0, 0, 0)
  | const .S1 => (0, 0, 1)
  | const .Sx => (0, 0, 2)
  | const .Sz => (0, 0, 3)
  | wire (.net symbol) offset => (1, symbol, offset)
  | wire (.fresh index) offset => (2, index, offset)

/-- `SigBit::operator<`. -/
def before (a b : SigBit) : Bool :=
  let (kind, major, minor) := a.key
  let (kind', major', minor') := b.key
  kind < kind' || (kind == kind' && (major < major' || (major == major' && minor < minor')))

/-- Whether `b` continues the chunk that ends with `a`: the next bit of the same wire, or
another constant. -/
def continues (a b : SigBit) : Bool :=
  match a, b with
  | wire w i, wire w' j => w == w' && j == i + 1
  | const _, const _ => true
  | _, _ => false

end SigBit

namespace SigSpec

/-- `SigSpec(state, width)`. -/
def ofState (state : State) (width : Nat) : SigSpec := List.replicate width (.const state)

/-- The brace literal `{hi, ..., lo}`. -/
def concat (parts : List SigSpec) : SigSpec := parts.reverse.flatten

/-- `SigSpec::repeat(num)`: `num` copies, the first one least significant. -/
def «repeat» (s : SigSpec) (num : Nat) : SigSpec := (List.replicate num s).flatten

/-- `SigSpec::extract(offset, length)`. -/
def extract (s : SigSpec) (offset length : Nat) : SigSpec := (s.drop offset).take length

/-- `SigSpec::extend_u0(width, is_signed)`: truncate, or pad with the top bit when signed
(`x` for an empty signal) and with zeros otherwise. -/
def extendU0 (s : SigSpec) (width : Nat) (isSigned : Bool := false) : SigSpec :=
  if width < s.length then s.take width
  else s ++ List.replicate (width - s.length)
    (if isSigned then s.getLast?.getD (.const .Sx) else .const .S0)

/-- `SigSpec::msb()`. -/
def msb (s : SigSpec) : SigBit := s.getLast?.getD (.const .Sx)

def isFullyConst (s : SigSpec) : Bool := s.all fun | .const _ => true | .wire .. => false

def isFullyDef (s : SigSpec) : Bool :=
  s.all fun b => b == .const .S0 || b == .const .S1

def isFullyOnes (s : SigSpec) : Bool := s.all (· == .const .S1)

def isFullyZero (s : SigSpec) : Bool := s.all (· == .const .S0)

def isFullyUndef (s : SigSpec) : Bool :=
  s.all fun b => b == .const .Sx || b == .const .Sz

/-- `SigSpec::as_const()` of a fully constant signal. -/
def asConst (s : SigSpec) : Const := s.map fun | .const state => state | .wire .. => .Sx

/-- Insertion into a list sorted by `SigBit::operator<`. -/
def insertSorted (b : SigBit) : SigSpec → SigSpec
  | [] => [b]
  | c :: rest => if c.before b then c :: insertSorted b rest else b :: c :: rest

/-- `SigSpec::sort()`. -/
def sort (s : SigSpec) : SigSpec := s.foldr insertSorted []

/-- Removal of repeated neighbours. -/
def unify : SigSpec → SigSpec
  | [] => []
  | [b] => [b]
  | a :: b :: rest => if a = b then unify (b :: rest) else a :: unify (b :: rest)

/-- `SigSpec::sort_and_unify()`. -/
def sortAndUnify (s : SigSpec) : SigSpec := unify (sort s)

/-- `SigSpec::chunks()`: maximal runs of consecutive bits of one wire, or of constants. -/
def chunks (s : SigSpec) : List SigSpec := s.splitBy SigBit.continues

end SigSpec

/-- `SigSpec(const)`: a constant as a signal. -/
def Const.toSig (c : Const) : SigSpec := c.map .const

/-! ## Substitution maps -/

/-- `Yosys::dict<SigBit, SigBit>` as a list of pairs with distinct keys; the iteration order is
never observed by the frontend, which sorts whatever it collects from a map. -/
structure Dict where
  pairs : List (SigBit × SigBit)
  keys_nodup : (pairs.map Prod.fst).Nodup

namespace Dict

def empty : Dict := ⟨[], List.nodup_nil⟩

/-- `dict::count(key) ? dict::at(key)`. -/
def get? (d : Dict) (key : SigBit) : Option SigBit := (d.pairs.find? (·.1 == key)).map Prod.snd

/-- `dict[key] = value`. -/
def set (d : Dict) (key value : SigBit) : Dict where
  pairs := (key, value) :: d.pairs.filter (·.1 != key)
  keys_nodup := by
    refine List.nodup_cons.2 ⟨?_, ?_⟩
    · simp
    · exact d.keys_nodup.sublist ((List.filter_sublist _).map _)

/-- `SignalEvalContext::set`: one `set` per bit, for signals of equal width. -/
def setAll (d : Dict) (lhs value : SigSpec) : Dict :=
  (lhs.zip value).foldl (fun d p => d.set p.1 p.2) d

def keys (d : Dict) : List SigBit := d.pairs.map Prod.fst

end Dict

namespace SigSpec

/-- `SigSpec::replace(rules)`: every bit with an entry in `rules` is replaced by it. -/
def replace (s : SigSpec) (rules : Dict) : SigSpec := s.map fun b => (rules.get? b).getD b

end SigSpec

end SlangFrontend.Rtlil
