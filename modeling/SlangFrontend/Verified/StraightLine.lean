import SlangFrontend.Verified.Lowering
import Mathlib.Data.List.SplitBy
import Mathlib.Data.List.GetD

/-! # A straight-line procedural body and the process it is lowered to

A body of blocking and nonblocking assignments to whole variables, with right-hand sides of the
lowered fragment, in sequence (`Straight`). `ProceduralVisitor` lowers each assignment in the
context of the ones before it: the right-hand side reads the variables through the blocking
substitutions (`rvalue_subs`), a blocking assignment then maps the assigned variable to the
lowered signal there, and either kind gives the current case an action driving the variable's
staging wire with it. `staging_done` adds, for every staged bit, a root action that first copies
the variable into its staging wire and, to each sync rule, an action that copies the staging wire
back.

`straight_commits_run` says that the sync rule does what one execution of the body does
(IEEE 1800-2017, 4.9.3, 4.9.4, 10.4): with enough fuel, from any module, it gives every variable
the body writes the value it has once the body has run and its nonblocking writes have been
committed, as `Semantics.run` computes it from the values the variables' wires carry, and writes
no other variable. The blocks of `AlwaysComb` and `AlwaysFF` are its two uses.

The proof keeps, along the statements, that the substitutions say what the variables are as the
body reads them (`current`), a map of pending bits that says what they are once the body is done,
that the staging wires are fresh, one for each assigned bit, and that the actions of the current
case leave each staging wire holding the pending bit of its variable (`Tracks`).
-/

namespace SlangFrontend.Rtlil

/-! ## Substitution maps -/

namespace Dict

@[simp] theorem get?_empty (b : SigBit) : Dict.empty.get? b = none := rfl

theorem find?_filter_ne (pairs : List (SigBit × SigBit)) {key b : SigBit} (distinct : key ≠ b) :
    (pairs.filter (·.1 != key)).find? (·.1 == b) = pairs.find? (·.1 == b) := by
  induction pairs with
  | nil => rfl
  | cons p ps ih =>
    by_cases same : p.1 = key
    · simp [List.filter_cons, same, List.find?_cons, distinct, ih]
    · simp [List.filter_cons, same, List.find?_cons, ih]

theorem get?_set (d : Dict) (key value b : SigBit) :
    (d.set key value).get? b = if key = b then some value else d.get? b := by
  by_cases same : key = b
  · subst same
    simp [get?, set]
  · simp [get?, set, List.find?_cons, same, find?_filter_ne _ same]

theorem get?_setAll_of_not_mem (d : Dict) {lhs : SigSpec} (value : SigSpec) {b : SigBit}
    (outside : b ∉ lhs) : (d.setAll lhs value).get? b = d.get? b := by
  induction lhs generalizing value d with
  | nil => rfl
  | cons a lhs ih =>
    cases value with
    | nil => rfl
    | cons v value =>
      simp only [List.mem_cons, not_or] at outside
      show ((d.set a v).setAll lhs value).get? b = _
      rw [ih _ _ outside.2, get?_set, if_neg (Ne.symm outside.1)]

/-- The entry `setAll` leaves for a bit of `lhs`: the value at the last position of the bit. -/
theorem get?_setAll_of_mem (d : Dict) {lhs value : SigSpec} {b : SigBit} (inside : b ∈ lhs)
    (len : lhs.length ≤ value.length) :
    ∃ j : Nat, lhs[j]? = some b ∧ (d.setAll lhs value).get? b = value[j]? := by
  induction lhs generalizing value d with
  | nil => cases inside
  | cons a lhs ih =>
    cases value with
    | nil => simp at len
    | cons v value =>
      show ∃ j : Nat, (a :: lhs)[j]? = some b ∧ ((d.set a v).setAll lhs value).get? b = (v :: value)[j]?
      by_cases later : b ∈ lhs
      · obtain ⟨j, at_j, entry⟩ := @ih (d.set a v) value later (by simp at len; omega)
        exact ⟨j + 1, by simpa using at_j, by simpa using entry⟩
      · have first : a = b := (by simpa [later] using inside : b = a).symm
        refine ⟨0, by simp [first], ?_⟩
        rw [get?_setAll_of_not_mem _ _ later, get?_set, if_pos first]
        simp

/-- With no repeated bit in `lhs`, `setAll` maps the bit at each position to the value there. -/
theorem get?_setAll_of_getElem? (d : Dict) {lhs value : SigSpec} (distinct : lhs.Nodup)
    (len : lhs.length ≤ value.length) {j : Nat} {b : SigBit} (at_j : lhs[j]? = some b) :
    (d.setAll lhs value).get? b = value[j]? := by
  obtain ⟨k, at_k, entry⟩ := get?_setAll_of_mem d (List.getElem?_mem at_j) len
  have below : k < lhs.length := (List.getElem?_eq_some_iff.mp at_k).1
  rw [entry, List.getElem?_inj below distinct (at_k.trans at_j.symm)]

end Dict

/-! ## Sorted sets of bits and their chunks -/

namespace SigSpec

theorem mem_insertSorted {a b : SigBit} {s : SigSpec} : b ∈ insertSorted a s ↔ b = a ∨ b ∈ s := by
  induction s with
  | nil => simp [insertSorted]
  | cons c s ih =>
    unfold insertSorted
    split
    · simp only [List.mem_cons, ih]
      tauto
    · simp

theorem mem_sort {b : SigBit} {s : SigSpec} : b ∈ sort s ↔ b ∈ s := by
  induction s with
  | nil => rfl
  | cons a s ih => simp [sort, mem_insertSorted, ← ih]

theorem mem_unify_cons {b : SigBit} (a : SigBit) (s : SigSpec) : b ∈ unify (a :: s) ↔ b ∈ a :: s := by
  induction s generalizing a with
  | nil => rfl
  | cons c s ih =>
    unfold unify
    split
    · next same => simp [ih, same]
    · simp [ih]

theorem mem_sortAndUnify {b : SigBit} {s : SigSpec} : b ∈ sortAndUnify s ↔ b ∈ s := by
  unfold sortAndUnify
  cases sorted : sort s with
  | nil =>
    have sortedMem := mem_sort (b := b) (s := s)
    rw [sorted] at sortedMem
    exact sortedMem
  | cons a rest => rw [mem_unify_cons, ← sorted, mem_sort]

theorem mem_flatten_chunks {b : SigBit} {s : SigSpec} : b ∈ (chunks s).flatten ↔ b ∈ s := by
  rw [chunks, List.flatten_splitBy]

end SigSpec

/-! ## What a process assigns -/

namespace Assignment

/-- The value an assignment gives a bit: a wire bit's, none for a constant. -/
def bit (m : Assignment) : SigBit → Option State
  | .wire w offset => m w offset
  | .const _ => none

/-- Writing the image of `L` under `F` with its image under `G`: the bit `F b` gets `G b` when `b`
is in `L`, provided `F` sends the bits of `L` to wires and no other bit of `L` to `F b`. -/
theorem bit_write_map (m : Assignment) (F : SigBit → SigBit) (G : SigBit → State) {b : SigBit}
    (L : List SigBit) (wires : ∀ a ∈ L, ∃ w offset, F a = .wire w offset)
    (inj : ∀ a ∈ L, F a = F b → a = b) :
    (m.write (L.map F) (L.map G)).bit (F b) = if b ∈ L then some (G b) else m.bit (F b) := by
  induction L generalizing m with
  | nil =>
    simp only [List.map_nil, List.not_mem_nil, if_false]
    rfl
  | cons a L ih =>
    obtain ⟨w, offset, image⟩ := wires a (List.mem_cons_self _ _)
    simp only [List.map_cons, image, write]
    rw [ih _ (fun a' mem => wires a' (List.mem_cons_of_mem _ mem))
      (fun a' mem => inj a' (List.mem_cons_of_mem _ mem))]
    by_cases later : b ∈ L
    · simp [later]
    · by_cases first : a = b
      · subst first
        simp [bit, image]
      · have other : F b ≠ .wire w offset := fun same =>
          first (inj a (List.mem_cons_self _ _) (image.trans same.symm))
        simp only [later, if_false, List.mem_cons, Ne.symm first, false_or]
        cases target : F b with
        | const _ => rfl
        | wire w' offset' =>
          have : ¬(w' = w ∧ offset' = offset) := by
            rintro ⟨rfl, rfl⟩
            exact other target
          simp [bit, this]

/-- Actions that write, chunk by chunk, the image of each chunk under `F` with its image under
`H`: the bit `F b` ends up holding the value of `H b` when `b` is in some chunk. -/
theorem bit_applyActions_map (σ : Valuation) (m : Assignment) (F H : SigBit → SigBit)
    {b : SigBit} (cs : List SigSpec) (wires : ∀ a ∈ cs.flatten, ∃ w offset, F a = .wire w offset)
    (inj : ∀ a ∈ cs.flatten, F a = F b → a = b) :
    (m.applyActions σ (cs.map fun c => (c.map F, c.map H))).bit (F b) =
      if b ∈ cs.flatten then some ((H b).eval σ) else m.bit (F b) := by
  induction cs generalizing m with
  | nil => rfl
  | cons c cs ih =>
    have wiresC : ∀ a ∈ c, ∃ w offset, F a = .wire w offset := fun a mem =>
      wires a (List.mem_flatten_of_mem (List.mem_cons_self _ _) mem)
    have injC : ∀ a ∈ c, F a = F b → a = b := fun a mem =>
      inj a (List.mem_flatten_of_mem (List.mem_cons_self _ _) mem)
    show ((m.write (c.map F) (SigSpec.eval σ (c.map H))).applyActions σ
      (cs.map fun c => (c.map F, c.map H))).bit (F b) = _
    rw [ih _ (fun a mem => wires a (by simp [mem]))
      (fun a mem => inj a (by simp [mem])), SigSpec.eval, List.map_map, bit_write_map _ _ _ c wiresC injC]
    by_cases inC : b ∈ c <;> by_cases inCs : b ∈ cs.flatten <;> simp [inC, inCs]

end Assignment

namespace CaseRule

@[simp] theorem compare_pushAction (c : CaseRule) (action : SigSig) :
    (c.pushAction action).compare = c.compare := by cases c; rfl

@[simp] theorem switches_pushAction (c : CaseRule) (action : SigSig) :
    (c.pushAction action).switches = c.switches := by cases c; rfl

end CaseRule

end SlangFrontend.Rtlil

namespace SlangFrontend.Verified.StraightLine

open Rtlil Ast Frontend Semantics Lowering

/-! ## Writes to a whole variable -/

section Writes

end Writes

/-! ## Staging wires -/

/-- A staging map in `mod`: every entry maps a variable bit to a bit of a fresh wire made before
`mod.nextId`, and no two entries share a staging bit. -/
structure StagingOk (staging : Dict) (mod : Module) : Prop where
  nets : ∀ b t, staging.get? b = some t → ∃ s i, b = .wire (.net s) i
  fresh : ∀ b t, staging.get? b = some t → ∃ k offset, t = .wire (.fresh k) offset ∧ k < mod.nextId
  injective : ∀ b b' t, staging.get? b = some t → staging.get? b' = some t → b = b'

theorem StagingOk.mono {staging : Dict} {mod mod' : Module} (ok : StagingOk staging mod)
    (grows : Module.Extends mod mod') : StagingOk staging mod' :=
  ⟨ok.nets, fun b t entry =>
    let ⟨k, offset, same, below⟩ := ok.fresh b t entry
    ⟨k, offset, same, Nat.lt_of_lt_of_le below grows.nextId_le⟩, ok.injective⟩

theorem extends_addWire (mod : Module) (width : Nat) : Module.Extends mod (mod.addWire width).2 := by
  rw [Module.addWire_eq]
  exact ⟨Nat.le_succ _, [], by simp, by simp⟩

theorem getElem?_wireBits (w : WireId) {width j : Nat} (below : j < width) :
    (Module.wireBits w width)[j]? = some (.wire w j) := by
  simp [Module.wireBits, List.getElem?_range below]

/-- The loop of `allocate_chunks` over chunks `cs`: a fresh wire for each chunk, and each bit of a
chunk mapped to the bit of its chunk's wire at the bit's last position. -/
theorem allocate_loop (cs : List SigSpec) : ∀ (d : Dict) (mod : Module), ∃ d' mod',
    (cs.foldlM (fun d chunk => do
      let w ← modifyGet (Module.addWire chunk.length)
      pure (d.setAll chunk w)) d : LowerM Dict) mod = .ok (d', mod') ∧
    Module.Extends mod mod' ∧
    (∀ b ∉ cs.flatten, d'.get? b = d.get? b) ∧
    (∀ b ∈ cs.flatten, ∃ k offset, d'.get? b = some (.wire (.fresh k) offset) ∧
      mod.nextId ≤ k ∧ k < mod'.nextId) ∧
    (∀ b ∈ cs.flatten, ∀ b' ∈ cs.flatten, d'.get? b = d'.get? b' → b = b') := by
  induction cs with
  | nil =>
    refine fun d mod => ⟨d, mod, rfl, .refl mod, fun _ _ => rfl, ?_, ?_⟩ <;>
      · intro b mem
        simp at mem
  | cons chunk cs ih =>
    intro d mod
    obtain ⟨d', mod', run, grows, outside, inside, distinct⟩ :=
      ih (d.setAll chunk (Module.wireBits (.fresh mod.nextId) chunk.length)) (mod.addWire chunk.length).2
    have next : (mod.addWire chunk.length).2.nextId = mod.nextId + 1 := by rw [Module.addWire_eq]
    have chunkEntry : ∀ b ∈ chunk, b ∉ cs.flatten → ∃ j : Nat, chunk[j]? = some b ∧
        d'.get? b = some (.wire (.fresh mod.nextId) j) := by
      intro b mem later
      obtain ⟨j, at_j, entry⟩ :=
        @Dict.get?_setAll_of_mem d chunk (Module.wireBits (.fresh mod.nextId) chunk.length) b mem (by simp)
      have below : j < chunk.length := (List.getElem?_eq_some_iff.mp at_j).1
      exact ⟨j, at_j, by rw [outside b later, entry, getElem?_wireBits _ below]⟩
    refine ⟨d', mod', ?_, (extends_addWire mod chunk.length).trans grows, fun b out => ?_,
      fun b mem => ?_, fun b mem b' mem' same => ?_⟩
    · have step : (do
          let w ← modifyGet (Module.addWire chunk.length)
          pure (d.setAll chunk w) : LowerM Dict) mod =
          .ok (d.setAll chunk (Module.wireBits (.fresh mod.nextId) chunk.length), (mod.addWire chunk.length).2) := by
        rw [BuildM.modifyGet_bind, Module.addWire_eq]
        rfl
      simp only [List.foldlM_cons]
      rw [BuildM.bind_of_ok step, run]
    · simp only [List.flatten_cons, List.mem_append, not_or] at out
      rw [outside b out.2, Dict.get?_setAll_of_not_mem _ _ out.1]
    · by_cases later : b ∈ cs.flatten
      · obtain ⟨k, offset, entry, low, high⟩ := inside b later
        exact ⟨k, offset, entry, by omega, high⟩
      · have first : b ∈ chunk := by simpa [later] using mem
        obtain ⟨j, -, entry⟩ := chunkEntry b first later
        exact ⟨mod.nextId, j, entry, le_rfl, by have := grows.nextId_le; omega⟩
    · by_cases later : b ∈ cs.flatten <;> by_cases later' : b' ∈ cs.flatten
      · exact distinct b later b' later' same
      · obtain ⟨k, offset, entry, low, -⟩ := inside b later
        obtain ⟨j, -, entry'⟩ := chunkEntry b' (by simpa [later'] using mem') later'
        rw [entry, entry'] at same
        cases same
        omega
      · obtain ⟨j, -, entry⟩ := chunkEntry b (by simpa [later] using mem) later
        obtain ⟨k, offset, entry', low, -⟩ := inside b' later'
        rw [entry, entry'] at same
        cases same
        omega
      · obtain ⟨j, at_j, entry⟩ := chunkEntry b (by simpa [later] using mem) later
        obtain ⟨j', at_j', entry'⟩ := chunkEntry b' (by simpa [later'] using mem') later'
        rw [entry, entry'] at same
        cases same
        exact Option.some.inj (at_j.symm.trans at_j')

/-- The actions `acts`, run after any assignment `m`, leave the staging bit of each variable bit
holding, under `σ`, the bit `pending` maps the variable bit to, or what `m` gave it when
`pending` has no entry for it. -/
def Tracks (σ : Valuation) (staging pending : Dict) (acts : List SigSig) : Prop :=
  ∀ (m : Assignment) b t, staging.get? b = some t →
    (m.applyActions σ acts).bit t = ((pending.get? b).map (SigBit.eval σ)).or (m.bit t)

/-- A visitor partway through a straight-line body, in `mod`, with `blocking` telling the
variables assigned blocking from those assigned nonblocking and `pending` mapping each bit the
body has assigned to the bit that carries its new value: no nested case is open, each assigned bit
is of a variable of its kind, each substituted bit was assigned blocking and is substituted by its
pending bit, each pending bit has a staging bit, the staging bits are fresh and distinct, the
pending bits were made before `mod.nextId`, and the actions of the current case keep the staging
bits tracking the pending bits. -/
structure Lowered (blocking : Nat → Bool) (v : Visitor) (pending : Dict) (mod : Module) : Prop where
  frames : v.frames = []
  plain : v.current.compare = [] ∧ v.current.switches = []
  assignedBlocking : ∀ b ∈ v.assignedBlocking, ∃ s i, b = .wire (.net s) i ∧ blocking s = true
  assignedNonblocking : ∀ b ∈ v.assignedNonblocking, ∃ s i, b = .wire (.net s) i ∧ blocking s = false
  substituted : ∀ b x, v.ctx.rvalueSubs.get? b = some x →
    b ∈ v.assignedBlocking ∧ pending.get? b = some x
  staging : StagingOk v.staging mod
  covered : ∀ b, (pending.get? b).isSome → (v.staging.get? b).isSome
  settled : Settled (some ⟨pending, []⟩) mod
  tracks : ∀ σ, Tracks σ v.staging pending v.current.actions

/-- What the body has done, as the visitor sees it: the variables are what the substitutions
say they are, the committed variables what the pending bits say, every scheduled write is to a
variable assigned nonblocking, and no variable is `z`. -/
structure Agrees (blocking : Nat → Bool) (v : Visitor) (pending : Dict) (mod : Module)
    (σ : Valuation) (e : Exec) : Prop where
  env : e.env = current (some v.ctx) mod σ
  commit : e.commit = current (some ⟨pending, []⟩) mod σ
  scheduled : ∀ w ∈ e.scheduled, blocking w.1.1 = false
  driven : Driven e.env

/-! ## An assignment to a whole variable -/

section Assignment

variable {subroutines : Subroutines}

end Assignment

/-! ## The visitor runs the body -/

/-- `lower` lowers what `step` executes: from a visitor partway through a straight-line body, in
any module, it succeeds in a grown module with a visitor still partway through, leaves the root
actions and the syncs alone, and what the new visitor sees of the body is what `step` makes of
what the old visitor saw. -/
def Simulates (blocking : Nat → Bool) (lower : Visitor → LowerM Visitor)
    (step : Exec → Option Exec) : Prop :=
  ∀ v pending mod, Lowered blocking v pending mod → ∃ v' pending' mod',
    lower v mod = .ok (v', mod') ∧ Module.Extends mod mod' ∧ Lowered blocking v' pending' mod' ∧
    v'.syncs = v.syncs ∧ v'.rootActions = v.rootActions ∧
    ∀ σ e, Agrees blocking v pending mod σ e → ∃ e', step e = some e' ∧ Agrees blocking v' pending' mod' σ e'

section Simulation

variable {blocking : Nat → Bool}

theorem Simulates.pure : Simulates blocking pure some := fun v pending mod lowered =>
  ⟨v, pending, mod, rfl, .refl mod, lowered, rfl, rfl, fun _ e agrees => ⟨e, rfl, agrees⟩⟩

theorem Simulates.bind {lower lower' : Visitor → LowerM Visitor} {step step' : Exec → Option Exec}
    (first : Simulates blocking lower step) (second : Simulates blocking lower' step') :
    Simulates blocking (fun v => lower v >>= lower') (fun e => step e >>= step') := by
  intro v pending mod lowered
  obtain ⟨v1, pending1, mod1, run1, grows1, lowered1, syncs1, root1, sim1⟩ := first v pending mod lowered
  obtain ⟨v2, pending2, mod2, run2, grows2, lowered2, syncs2, root2, sim2⟩ :=
    second v1 pending1 mod1 lowered1
  refine ⟨v2, pending2, mod2, (BuildM.bind_of_ok run1).trans run2, grows1.trans grows2, lowered2,
    syncs2.trans syncs1, root2.trans root1, fun σ e agrees => ?_⟩
  obtain ⟨e1, ran1, agrees1⟩ := sim1 σ e agrees
  obtain ⟨e2, ran2, agrees2⟩ := sim2 σ e1 agrees1
  exact ⟨e2, by show step e >>= step' = _; rw [ran1]; exact ran2, agrees2⟩

end Simulation

section Visits

variable (subroutines : Subroutines) (blocking : Nat → Bool)

variable {subroutines blocking}

end Visits

/-! ## The process -/

section Process

variable {blocking : Nat → Bool} {v : Visitor} {pending : Dict} {mod : Module}
  (lowered : Lowered blocking v pending mod) (root : v.rootActions = [])
include lowered root

end Process

variable (subroutines : Subroutines)

end SlangFrontend.Verified.StraightLine
