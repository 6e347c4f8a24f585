import SlangFrontend.Rtlil.Process
import Mathlib.Data.List.Nodup

/-! # The module under construction

`RTLIL::Module` as the frontend fills it: a counter for `NEW_ID`, the cells in the order they
were created, the `$print` cells, the processes, the connections and the `init` attributes.
The wires of declared symbols are not stored: the wire-adding pass has made them all before
anything reads them, and `Module.wire` returns the bits of one.

The methods `Module::Sub`, `Module::Le`, ... of `rtlil.cc` each add a wire for the output and
a cell driving it; `Module.emit` is their common body. A netlist built this way is evaluated
forward, cell after cell (`Module.evalCells`), since every cell reads only wires that existed
when it was made.

Each update takes the module apart into its fields and builds the new one from them, rather
than writing `{ mod with .. }`: a module produced by a long run of updates then stays a term of
the size of its contents when a run of the frontend is evaluated by `decide`.
-/

namespace SlangFrontend.Rtlil

/-- `Yosys::VerilogFmtArg`, the arguments of a `$display`. -/
inductive FmtArg where
  | string (text : String)
  | time (realtime : Bool)
  | integer (sig : SigSpec) (signed : Bool)

/-- A `$print` cell: its trigger, enable and priority, and its format arguments. -/
structure PrintCell where
  triggers : SigSpec
  polarity : Const
  trgEnable : Bool
  enable : SigBit
  priority : Int
  args : List FmtArg

structure Module where
  nextId : Nat := 0
  cells : List Cell := []
  prints : List PrintCell := []
  processes : List Process := []
  connections : List SigSig := []
  /-- the `init` attributes of wires -/
  inits : List (WireId × Const) := []
  /-- the `port_input` and `port_output` flags of wires -/
  ports : List (WireId × Bool × Bool) := []
  /-- the cells of submodule instances: name, and the signal bound to each port -/
  instances : List (String × List (Nat × SigSpec)) := []

namespace Module

/-- The bits of a wire of the given width. -/
def wireBits (w : WireId) (width : Nat) : SigSpec := (List.range width).map (SigBit.wire w)

/-- `mod->wire(net_id(sym))` for a symbol whose type has the given bitstream width. -/
def wire (symbol width : Nat) : SigSpec := wireBits (.net symbol) width

/-- `mod->addWire(NEW_ID, width)`. -/
def addWire (width : Nat) : Module → SigSpec × Module
  | ⟨nextId, cells, prints, processes, connections, inits, ports, instances⟩ =>
    (wireBits (.fresh nextId) width,
      ⟨nextId + 1, cells, prints, processes, connections, inits, ports, instances⟩)

/-- `mod->addCell(...)` for a cell whose output wire already exists. -/
def addCell (cell : Cell) : Module → Module
  | ⟨nextId, cells, prints, processes, connections, inits, ports, instances⟩ =>
    ⟨nextId, cells ++ [cell], prints, processes, connections, inits, ports, instances⟩

/-- A new cell of the given type driving a new wire of width `yWidth`. -/
def emit (type : CellType) (a b s : SigSpec) (aSigned bSigned : Bool) (yWidth : Nat)
    (mod : Module) : SigSpec × Module :=
  let (y, mod) := mod.addWire yWidth
  (y, mod.addCell { type, a, b, s, y, aSigned, bSigned })

/-- The two-operand methods of `DEF_METHOD`: both signedness parameters set to `isSigned`. -/
def binary (type : CellType) (yWidth : Nat) (a b : SigSpec) (isSigned : Bool) :
    Module → SigSpec × Module :=
  emit type a b [] isSigned isSigned yWidth

def sub (a b : SigSpec) (isSigned : Bool) := binary .sub (max a.length b.length) a b isSigned
def lt (a b : SigSpec) (isSigned : Bool) := binary .lt 1 a b isSigned
def le (a b : SigSpec) (isSigned : Bool) := binary .le 1 a b isSigned
def ge (a b : SigSpec) (isSigned : Bool) := binary .ge 1 a b isSigned
def eq (a b : SigSpec) := binary .eq 1 a b false
def logicAnd (a b : SigSpec) := binary .logicAnd 1 a b false
def logicOr (a b : SigSpec) := binary .logicOr 1 a b false

def logicNot (a : SigSpec) := emit .logicNot a [] [] false false 1
def reduceBool (a : SigSpec) := emit .reduceBool a [] [] false false 1
def «not» (a : SigSpec) := emit .not a [] [] false false a.length

def mux (a b s : SigSpec) := emit .mux a b s false false a.length
def bwmux (a b s : SigSpec) := emit .bwmux a b s false false a.length
def bmux (a s : SigSpec) := emit .bmux a [] s false false (a.length / 2 ^ s.length)
def demux (a s : SigSpec) := emit .demux a [] s false false (a.length * 2 ^ s.length)

/-- `mod->connect(lhs, rhs)`. -/
def connect (lhs rhs : SigSpec) : Module → Module
  | ⟨nextId, cells, prints, processes, connections, inits, ports, instances⟩ =>
    ⟨nextId, cells, prints, processes, connections ++ [(lhs, rhs)], inits, ports, instances⟩

/-- `mod->addProcess(...)`, with the rules the visitor built. -/
def addProcess (process : Process) : Module → Module
  | ⟨nextId, cells, prints, processes, connections, inits, ports, instances⟩ =>
    ⟨nextId, cells, prints, processes ++ [process], connections, inits, ports, instances⟩

/-- A `$print` cell added by `handle_display`. -/
def addPrint (print : PrintCell) : Module → Module
  | ⟨nextId, cells, prints, processes, connections, inits, ports, instances⟩ =>
    ⟨nextId, cells, prints ++ [print], processes, connections, inits, ports, instances⟩

/-- `wire->attributes[ID::init] = value`. -/
def addInit (wire : WireId) (value : Const) : Module → Module
  | ⟨nextId, cells, prints, processes, connections, inits, ports, instances⟩ =>
    ⟨nextId, cells, prints, processes, connections, inits ++ [(wire, value)], ports, instances⟩

/-- `wire->port_input` and `wire->port_output`. -/
def addPort (wire : WireId) (input output : Bool) : Module → Module
  | ⟨nextId, cells, prints, processes, connections, inits, ports, instances⟩ =>
    ⟨nextId, cells, prints, processes, connections, inits, ports ++ [(wire, input, output)],
      instances⟩

/-- The cell of a submodule instance, with the signal bound to each port. -/
def addInstance (name : String) (bindings : List (Nat × SigSpec)) : Module → Module
  | ⟨nextId, cells, prints, processes, connections, inits, ports, instances⟩ =>
    ⟨nextId, cells, prints, processes, connections, inits, ports, instances ++ [(name, bindings)]⟩

/-! ## The updates as record updates -/

theorem addWire_eq (width : Nat) (mod : Module) :
    mod.addWire width = (wireBits (.fresh mod.nextId) width, { mod with nextId := mod.nextId + 1 }) := by
  cases mod; rfl

theorem addCell_eq (cell : Cell) (mod : Module) :
    mod.addCell cell = { mod with cells := mod.cells ++ [cell] } := by
  cases mod; rfl

theorem emit_eq (type : CellType) (a b s : SigSpec) (aSigned bSigned : Bool) (yWidth : Nat)
    (mod : Module) :
    mod.emit type a b s aSigned bSigned yWidth =
      (wireBits (.fresh mod.nextId) yWidth,
        { mod with nextId := mod.nextId + 1,
                   cells := mod.cells ++ [{ type, a, b, s, y := wireBits (.fresh mod.nextId) yWidth,
                                            aSigned, bSigned }] }) := by
  cases mod; rfl

@[simp] theorem length_wireBits (w : WireId) (width : Nat) : (wireBits w width).length = width := by
  simp [wireBits]

theorem wireBits_nodup (w : WireId) (width : Nat) : (wireBits w width).Nodup :=
  List.Nodup.map (fun _ _ h => (SigBit.wire.inj h).2) (List.nodup_range width)

/-- Two different wires share no bit. -/
theorem wireBits_disjoint {w w' : WireId} (distinct : w ≠ w') (width width' : Nat) :
    ∀ bit ∈ wireBits w width, bit ∉ wireBits w' width' := by
  simp only [wireBits, List.mem_map, List.mem_range, not_exists, not_and]
  rintro _ ⟨o, -, rfl⟩ o' - same
  exact distinct (SigBit.wire.inj same).1.symm

theorem wireBits_wires (w : WireId) (width : Nat) :
    ∀ bit ∈ wireBits w width, ∃ w' offset, bit = .wire w' offset := by
  simp [wireBits]

end Module

/-! ## Forward evaluation -/

/-- One cell evaluated: its output bits take the value it computes. -/
def Cell.step (σ : Valuation) (c : Cell) : Valuation := σ.write c.y (c.eval σ)

/-- The cells evaluated in creation order, from a valuation of the wires they read. -/
def Module.evalCells (cells : List Cell) (σ : Valuation) : Valuation := cells.foldl Cell.step σ

@[simp] theorem Module.evalCells_append (cells more : List Cell) (σ : Valuation) :
    Module.evalCells (cells ++ more) σ = Module.evalCells more (Module.evalCells cells σ) :=
  List.foldl_append _ _ _ _

@[simp] theorem Module.evalCells_cons (cell : Cell) (cells : List Cell) (σ : Valuation) :
    Module.evalCells (cell :: cells) σ = Module.evalCells cells (σ.write cell.y (cell.eval σ)) :=
  rfl

@[simp] theorem Module.evalCells_nil (σ : Valuation) : Module.evalCells [] σ = σ := rfl

/-! ## Steady states -/

/-- Whether a bit exists once `n` wires have been made with `NEW_ID`: a constant, a wire of a
declared symbol, or one of the first `n` new wires. -/
def SigBit.madeBefore (n : Nat) : SigBit → Bool
  | .wire (.fresh k) _ => k < n
  | _ => true

theorem SigBit.madeBefore_mono {n n' : Nat} {bit : SigBit} (le : n ≤ n')
    (made : bit.madeBefore n) : bit.madeBefore n' := by
  match bit with
  | .wire (.fresh k) _ => simp only [madeBefore, decide_eq_true_eq] at made ⊢; omega
  | .wire (.net _) _ | .const _ => rfl

theorem Const.toSig_made (c : Const) (n : Nat) : ∀ bit ∈ c.toSig, bit.madeBefore n := by
  simp [Const.toSig, SigBit.madeBefore]

namespace Module

/-- `mod'` is `mod` with more cells, each driving only wires made after those of `mod`. -/
structure Extends (mod mod' : Module) : Prop where
  nextId_le : mod.nextId ≤ mod'.nextId
  cells_append : ∃ more, mod'.cells = mod.cells ++ more ∧
    ∀ cell ∈ more, ∀ bit ∈ cell.y, bit.madeBefore mod.nextId = false

namespace Extends

variable {mod mod1 mod2 : Module}

theorem refl (mod : Module) : Extends mod mod := ⟨Nat.le_refl _, [], by simp⟩

theorem trans (first : Extends mod mod1) (second : Extends mod1 mod2) : Extends mod mod2 := by
  obtain ⟨le1, more1, cells1, fresh1⟩ := first
  obtain ⟨le2, more2, cells2, fresh2⟩ := second
  refine ⟨Nat.le_trans le1 le2, more1 ++ more2, by rw [cells2, cells1, List.append_assoc], ?_⟩
  simp only [List.mem_append]
  rintro cell (mem | mem) bit onY
  · exact fresh1 cell mem bit onY
  · cases made : bit.madeBefore mod.nextId
    · rfl
    · rw [← fresh2 cell mem bit onY, SigBit.madeBefore_mono le1 made]

/-- The frame lemma: a signal over wires of `mod` has the same value in a module grown from
it, whatever the grown part computes. -/
theorem eval_eq (grows : Extends mod mod1) {s : SigSpec}
    (made : ∀ bit ∈ s, bit.madeBefore mod.nextId) (σ : Valuation) :
    s.eval (evalCells mod1.cells σ) = s.eval (evalCells mod.cells σ) := by
  obtain ⟨-, more, cells, fresh⟩ := grows
  rw [cells, evalCells_append]
  clear cells
  generalize evalCells mod.cells σ = τ
  induction more generalizing τ with
  | nil => rfl
  | cons cell more ih =>
    rw [evalCells_cons, ih (fun c mem => fresh c (List.mem_cons_of_mem _ mem))]
    refine Valuation.eval_write_of_disjoint τ cell.y s _ fun bit mem onY => ?_
    simpa [made bit mem] using fresh cell (List.mem_cons_self _ _) bit onY

end Extends

variable (type : CellType) (a b s : SigSpec) (aSigned bSigned : Bool) (yWidth : Nat)
  (mod : Module)

theorem extends_emit : Extends mod (mod.emit type a b s aSigned bSigned yWidth).2 := by
  refine ⟨by simp [emit_eq], _, by rw [emit_eq], ?_⟩
  simp [wireBits, SigBit.madeBefore]

theorem emit_made : ∀ bit ∈ (mod.emit type a b s aSigned bSigned yWidth).1,
    bit.madeBefore (mod.emit type a b s aSigned bSigned yWidth).2.nextId := by
  simp [emit_eq, wireBits, SigBit.madeBefore]

/-- The output of a new cell carries the value the cell computes from the wires before it. -/
theorem eval_emit (σ : Valuation)
    (sameLength : (Cell.eval (evalCells mod.cells σ)
      { type, a, b, s, y := wireBits (.fresh mod.nextId) yWidth, aSigned, bSigned }).length = yWidth) :
    (mod.emit type a b s aSigned bSigned yWidth).1.eval
        (evalCells (mod.emit type a b s aSigned bSigned yWidth).2.cells σ) =
      Cell.eval (evalCells mod.cells σ)
        { type, a, b, s, y := wireBits (.fresh mod.nextId) yWidth, aSigned, bSigned } := by
  rw [emit_eq]
  simp only [evalCells_append, evalCells_cons, evalCells_nil]
  exact Valuation.eval_write_self _ _ _ (wireBits_nodup _ _) (wireBits_wires _ _)
    (by rw [length_wireBits, sameLength])

/-! ## What a signal reads -/

/-- `s` is a signal over wires of `mod` that reads `value σ`, under every valuation `σ` of the
wires before the cells, in `mod` and in every module grown from it. -/
structure Reads (mod : Module) (s : SigSpec) (value : Valuation → Const) : Prop where
  made : ∀ bit ∈ s, bit.madeBefore mod.nextId
  eval_eq : ∀ mod', Extends mod mod' → ∀ σ, s.eval (evalCells mod'.cells σ) = value σ

namespace Reads

variable {mod mod' : Module} {s t : SigSpec} {value value' : Valuation → Const}

theorem mono (reads : Reads mod s value) (grows : Extends mod mod') : Reads mod' s value :=
  ⟨fun bit mem => SigBit.madeBefore_mono grows.nextId_le (reads.made bit mem),
    fun _ grows' => reads.eval_eq _ (grows.trans grows')⟩

/-- A signal over existing wires reads what it reads now. -/
theorem self (made : ∀ bit ∈ s, bit.madeBefore mod.nextId) :
    Reads mod s fun σ => s.eval (evalCells mod.cells σ) :=
  ⟨made, fun _ grows σ => grows.eval_eq made σ⟩

theorem const (c : Const) : Reads mod c.toSig fun _ => c :=
  ⟨c.toSig_made _, fun _ _ _ => c.eval_toSig _⟩

theorem append (left : Reads mod s value) (right : Reads mod t value') :
    Reads mod (s ++ t) fun σ => value σ ++ value' σ :=
  ⟨fun bit mem => (List.mem_append.mp mem).elim (left.made bit) (right.made bit),
    fun mod' grows σ => by rw [SigSpec.eval_append, left.eval_eq mod' grows, right.eval_eq mod' grows]⟩

theorem take (reads : Reads mod s value) (n : Nat) : Reads mod (s.take n) fun σ => (value σ).take n :=
  ⟨fun bit mem => reads.made bit (List.mem_of_mem_take mem),
    fun mod' grows σ => by rw [SigSpec.eval_take, reads.eval_eq mod' grows]⟩

theorem drop (reads : Reads mod s value) (n : Nat) : Reads mod (s.drop n) fun σ => (value σ).drop n :=
  ⟨fun bit mem => reads.made bit (List.mem_of_mem_drop mem),
    fun mod' grows σ => by rw [SigSpec.eval_drop, reads.eval_eq mod' grows]⟩

theorem congr (reads : Reads mod s value) (same : ∀ σ, value σ = value' σ) : Reads mod s value' :=
  ⟨reads.made, fun mod' grows σ => (reads.eval_eq mod' grows σ).trans (same σ)⟩

end Reads

theorem Reads.nil {mod : Module} : Reads mod [] fun _ => [] := Reads.const []

theorem Reads.ofState {mod : Module} (state : State) (n : Nat) :
    Reads mod (SigSpec.ofState state n) fun _ => List.replicate n state :=
  ⟨by simp [SigSpec.ofState, SigBit.madeBefore], fun _ _ _ => SigSpec.eval_ofState _ n state⟩

/-- A new cell: it grows the module, and its output reads what its type computes from what its
inputs read. -/
theorem emit_reads {mod : Module} {a b s : SigSpec} (type : CellType) (aSigned bSigned : Bool)
    (yWidth : Nat) {valueA valueB valueS : Valuation → Const}
    (readsA : Reads mod a valueA) (readsB : Reads mod b valueB) (readsS : Reads mod s valueS)
    (sameLength : ∀ σ, (type.eval (valueA σ) (valueB σ) (valueS σ) aSigned bSigned yWidth).length =
      yWidth) :
    ∃ y mod', mod.emit type a b s aSigned bSigned yWidth = (y, mod') ∧ Extends mod mod' ∧
      y.length = yWidth ∧
      Reads mod' y fun σ => type.eval (valueA σ) (valueB σ) (valueS σ) aSigned bSigned yWidth := by
  have now (σ : Valuation) : Cell.eval (evalCells mod.cells σ)
      { type, a, b, s, y := wireBits (.fresh mod.nextId) yWidth, aSigned, bSigned } =
        type.eval (valueA σ) (valueB σ) (valueS σ) aSigned bSigned yWidth := by
    rw [Cell.eval, readsA.eval_eq mod (.refl mod), readsB.eval_eq mod (.refl mod),
      readsS.eval_eq mod (.refl mod), length_wireBits]
  refine ⟨(mod.emit type a b s aSigned bSigned yWidth).1, (mod.emit type a b s aSigned bSigned yWidth).2,
    rfl, extends_emit type a b s aSigned bSigned yWidth mod, by simp [emit_eq],
    emit_made type a b s aSigned bSigned yWidth mod, fun mod' grows σ => ?_⟩
  rw [grows.eval_eq (emit_made type a b s aSigned bSigned yWidth mod) σ,
    eval_emit _ _ _ _ _ _ _ _ σ (by rw [now, sameLength]), now]

end Module

end SlangFrontend.Rtlil
