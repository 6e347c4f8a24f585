import SlangFrontend.Frontend.Equations
import SlangFrontend.Semantics.Stmt

/-! # Writes to parts of a variable

An assignment to a select of a variable is lowered to a mask of the bits it writes, etched out
of the lvalue layer by layer, and a `$bwmux` of the rvalue and, where the mask is zero, of the
variable as the statement reads it: `lvalue.replace(ctx.rvalue_subs)`.

Two things go wrong. An element select's mask is a `$demux` on the index translated into the
range and cut to `ceil_log2(width)` bits; the bit saying whether the index is in range is
computed and not used, so an index past the end of a range whose width is not a power of two
wraps around and writes an element. And the substitutions only ever hold blocking writes: a
nonblocking assignment leaves them as they were. So where a nonblocking write masks out a bit,
its action drives the bit's staging wire with the variable's value from before the block, and
an earlier nonblocking write to that bit in the same block is lost.
`always_ff @(posedge clk) begin q[0] <= a; q[1] <= b; end` with `logic [1:0] q` commits
`{b, q[0]}` where SystemVerilog commits `{b, a}`.
-/

namespace SlangFrontend.Verified.Masking

open Rtlil Ast Frontend

/-! ## A register of two bits -/

def bitType : SvType := .scalar true false

/-- `logic [1:0]`. -/
def pairType : SvType := .packedArray bitType ⟨1, 0⟩ false

/-- `int`. -/
def intType : SvType := .predefined 32 false true

def clk : Symbol := { id := 0, kind := .variable, type := bitType }
def a : Symbol := { id := 1, kind := .variable, type := bitType }
def b : Symbol := { id := 2, kind := .variable, type := bitType }
def q : Symbol := { id := 3, kind := .variable, type := pairType }

def ref (symbol : Symbol) : Expr := .namedValue symbol.type none symbol

/-- An `int` literal, folded by slang to its own value. -/
def intLiteral (n : Nat) : Expr :=
  let value : SVInt := ⟨(Const.ofNat 32 n).map fun s => if s = .S1 then .one else .zero, true⟩
  .integerLiteral intType (some (.integer value)) value

/-- `q[index] <= rhs`. -/
def writeElement (index : Nat) (rhs : Symbol) : Stmt :=
  .expression (.assignment bitType none true
    (.elementSelect bitType none (ref q) (intLiteral index)) (ref rhs))

/-- `q[0] <= a; q[1] <= b;` -/
def twoWrites : Stmt := .list [writeElement 0 a, writeElement 1 b]

def noSubroutines : Subroutines := fun _ => none

/-- `a = b = 1`, `q = 2'b00`, `clk = 0`. -/
def inputs : Semantics.Env := fun s _ => if s = a.id ∨ s = b.id then .S1 else .S0

/-- The visitor of `always_ff @(posedge clk)` before its body: one sync rule, on the rising
edge of `clk`, as `populate_sync` makes it. -/
def start : Visitor := { mode := .always, syncs := [⟨.STp, Module.wire clk.id 1, []⟩] }

/-! ## Two element writes in one block -/

/-- What the sync rules of a visitor's process, after `staging_done`, write to the bits of
`lhs` when their events occur, with the cells evaluated from the inputs. -/
def committed (v : Visitor) (mod : Module) (lhs : SigSpec) : List (List (Option State)) :=
  let p := (stagingDone v).process
  p.syncs.map fun sync => (sync.eval (Module.evalCells mod.cells inputs.toValuation) p).read lhs

/-- At the clock edge the lowered block commits `q = {b, q[0]} = 2'b10`; SystemVerilog commits
`q = {b, a} = 2'b11`. -/
theorem second_write_loses_first :
    (visitStmt noSubroutines 6 twoWrites start {}).map
        (fun (v, mod) => committed v mod (Module.wire q.id 2)) = .ok [[some .S0, some .S1]] ∧
    (Semantics.run twoWrites inputs).map (·.read q) = some [.S1, .S1] :=
  ⟨by decide, by decide⟩

/-- The values a visitor's case tree leaves pending for the bits of `q`: what its process drives
onto their staging bits, with the cells evaluated from the inputs. -/
def pendingQ (v : Visitor) (mod : Module) : List (Option State) :=
  ((stagingDone v).process.eval (Module.evalCells mod.cells inputs.toValuation)).read
    ((Module.wire q.id 2).replace v.staging)

/-- After `q[0] <= a` the value pending for `q[0]` is `a = 1`. After `q[1] <= b`, whose mask is
zero at `q[0]`, it is `q[0] = 0` again. -/
theorem masked_write_resets_pending :
    (visitStmt noSubroutines 6 (writeElement 0 a) start {}).map
        (fun (v, mod) => pendingQ v mod) = .ok [some .S1, some .S0] ∧
    (visitStmt noSubroutines 6 twoWrites start {}).map
        (fun (v, mod) => pendingQ v mod) = .ok [some .S0, some .S1] ∧
    ((etch noSubroutines 5 (.elementSelect bitType none (ref q) (intLiteral 1)) [.const .S1]
        (Module.wire b.id 1) .empty).run {}).map
        (fun ((_, mask, _), mod) => mask.eval (Module.evalCells mod.cells inputs.toValuation)) =
      .ok [.S0, .S1] :=
  ⟨by decide, by decide, by decide⟩

/-! ## An index past the end of a range -/

/-- `logic [2:0]`. -/
def tripleType : SvType := .packedArray bitType ⟨2, 0⟩ false

def word : Symbol := { id := 4, kind := .variable, type := tripleType }
def index : Symbol := { id := 5, kind := .variable, type := tripleType }

/-- `word[index]`. -/
def wordAtIndex : Expr := .elementSelect bitType none (ref word) (ref index)

/-- `index = 3'd4`, every other bit zero. -/
def indexFour : Semantics.Env := fun s i => if s = index.id ∧ i = 2 then .S1 else .S0

/-- With `index = 4`, outside `[2:0]`, the etched and cropped mask of `word[index] = 1'b1` writes
`word[0]`, although the valid bit `translate_index` computed is zero; SystemVerilog discards the
write. -/
theorem out_of_range_write_masks_element_zero :
    ((etch noSubroutines 5 wordAtIndex [.const .S1] [.const .S1] .empty).run {}).map
        (fun ((_, mask, _), mod) =>
          (cropZeroMask mask mask).eval (Module.evalCells mod.cells indexFour.toValuation)) =
      .ok [.S1, .S0, .S0] ∧
    ((translateIndex noSubroutines 3 (ref index) tripleType.fixedRange (some .empty)).run {}).map
        (fun ((_, valid), mod) => valid.eval (Module.evalCells mod.cells indexFour.toValuation)) =
      .ok .S0 ∧
    Semantics.target indexFour wordAtIndex = some [none] :=
  ⟨by decide, by decide, by decide⟩

end SlangFrontend.Verified.Masking
