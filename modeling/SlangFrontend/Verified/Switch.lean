import SlangFrontend.Verified.StraightLine
import SlangFrontend.Frontend.Runs

/-! # `if` and `case` statements: `SwitchBuilder`

`handle(ConditionalStatement)` and `handle(CaseStatement)` lower a statement with branches to an
RTLIL switch. The `SwitchBuilder` lowers each branch's body into a case of its own, from the
substitutions `rvalue_subs` the statement was entered with, and records the bits the body
updated; `finish` then gives every bit some branch updated a fresh wire, drives it in each case
with the branch's value and in the parent case, by default, with the value from before the
switch, and points the substitutions at the fresh wires.

`switch_merges_branches` states what this does for any `if` or `case` statement, whatever its
branches hold: each body starts from the substitutions of the statement; after `finish` every
updated bit maps to its own fresh wire, and every other bit keeps its entry; the actions
`finish` adds write only those wires; and under the semantics of case trees
(`CaseRule.eval`), the wire of an updated bit holds the bit as the first matching branch left
it, or as it was before the switch when no branch matches (`merged_value`).

The fresh wires must not be written by the case trees already there, so the statement holds
from a visitor whose case trees and staging bits use only wires made before (`Sound`). Every
visitor `populate` makes is sound (`sound_start`), and lowering any statement keeps it so
(`visitStmt_sound`, by induction on the fuel, the branches of a switch by the same lemma one
level down).
-/

namespace SlangFrontend.Rtlil

/-! ## The order of bits -/

namespace SigBit

theorem before_irrefl (a : SigBit) : a.before a = false := by
  unfold before
  generalize a.key = k
  obtain ⟨k, m, n⟩ := k
  simp

theorem before_trans {a b c : SigBit} (ab : a.before b) (bc : b.before c) : a.before c := by
  unfold before at *
  generalize a.key = x at *
  generalize b.key = y at *
  generalize c.key = z at *
  obtain ⟨k, m, n⟩ := x
  obtain ⟨k', m', n'⟩ := y
  obtain ⟨k'', m'', n''⟩ := z
  simp only [Bool.or_eq_true, Bool.and_eq_true, decide_eq_true_eq, beq_iff_eq] at *
  omega

theorem key_injective {a b : SigBit} (same : a.key = b.key) : a = b := by
  rcases a with (_ | _ | _ | _) | ⟨_ | _, _⟩ <;> rcases b with (_ | _ | _ | _) | ⟨_ | _, _⟩ <;>
    simp only [key, Prod.mk.injEq] at same <;> simp_all

theorem before_total {a b : SigBit} (distinct : a ≠ b) : a.before b ∨ b.before a := by
  have keys : a.key ≠ b.key := fun same => distinct (key_injective same)
  unfold before
  generalize a.key = x at *
  generalize b.key = y at *
  obtain ⟨k, m, n⟩ := x
  obtain ⟨k', m', n'⟩ := y
  simp only [ne_eq, Prod.mk.injEq, not_and] at keys
  simp only [Bool.or_eq_true, Bool.and_eq_true, decide_eq_true_eq, beq_iff_eq]
  omega

/-- The order `SigSpec::sort` leaves bits in: `a` may stand before `b`. -/
def NotAfter (a b : SigBit) : Prop := b.before a = false

instance : DecidableRel NotAfter := fun a b => inferInstanceAs (Decidable (b.before a = false))

theorem notAfter_total (a b : SigBit) : NotAfter a b ∨ NotAfter b a := by
  by_contra neither
  simp only [NotAfter, not_or, Bool.not_eq_false] at neither
  have := before_trans neither.1 neither.2
  rw [before_irrefl] at this
  cases this

theorem notAfter_trans {a b c : SigBit} (ab : NotAfter a b) (bc : NotAfter b c) : NotAfter a c := by
  unfold NotAfter at *
  by_contra ca
  rw [Bool.not_eq_false] at ca
  by_cases same : a = b
  · subst same
    rw [ca] at bc
    cases bc
  · have ab' : a.before b := (before_total same).resolve_right (by simp [ab])
    rw [before_trans ca ab'] at bc
    cases bc

end SigBit

namespace SigSpec

theorem insertSorted_eq (b : SigBit) (s : SigSpec) :
    insertSorted b s = s.orderedInsert SigBit.NotAfter b := by
  induction s with
  | nil => rfl
  | cons c s ih =>
    simp only [insertSorted, List.orderedInsert, SigBit.NotAfter, ih]
    by_cases h : c.before b <;> simp [h]

theorem sort_eq (s : SigSpec) : sort s = s.insertionSort SigBit.NotAfter := by
  induction s with
  | nil => rfl
  | cons a s ih => rw [sort, List.foldr_cons, ← sort, ih, insertSorted_eq]; rfl

theorem sorted_sort (s : SigSpec) : (sort s).Sorted SigBit.NotAfter := by
  haveI : IsTotal SigBit SigBit.NotAfter := ⟨SigBit.notAfter_total⟩
  haveI : IsTrans SigBit SigBit.NotAfter := ⟨fun _ _ _ => SigBit.notAfter_trans⟩
  rw [sort_eq]
  exact List.sorted_insertionSort _ _

theorem nodup_sort {s : SigSpec} (distinct : s.Nodup) : (sort s).Nodup := by
  rw [sort_eq]
  exact (List.perm_insertionSort _ _).nodup_iff.mpr distinct

/-- Removing repeated neighbours from a sorted list leaves it strictly increasing. -/
theorem sorted_unify : ∀ {s : SigSpec}, s.Sorted SigBit.NotAfter →
    (unify s).Sorted fun a b => a.before b
  | [], _ => List.sorted_nil
  | [_], _ => List.sorted_singleton _
  | a :: b :: rest, sorted => by
    have tail := sorted.of_cons
    unfold unify
    split
    · exact sorted_unify tail
    · next distinct =>
      refine List.sorted_cons.mpr ⟨fun y mem => ?_, sorted_unify tail⟩
      rw [mem_unify_cons] at mem
      have ab : b.before a = false := List.rel_of_sorted_cons sorted b (List.mem_cons_self _ _)
      rcases List.mem_cons.mp mem with rfl | later
      · exact (SigBit.before_total distinct).resolve_right (by simp [ab])
      · have ay : y.before a = false := List.rel_of_sorted_cons sorted y (List.mem_cons_of_mem _ later)
        have other : y ≠ a := fun same => by
          have ba : a.before b = false := List.rel_of_sorted_cons tail a (same ▸ later)
          rcases SigBit.before_total distinct with h | h <;> simp_all
        exact (SigBit.before_total other.symm).resolve_right (by simp [ay])

/-- `sort_and_unify` leaves no bit twice. -/
theorem nodup_sortAndUnify (s : SigSpec) : (sortAndUnify s).Nodup :=
  (sorted_unify (sorted_sort s)).imp fun {a _} before same => by
    subst same
    rw [SigBit.before_irrefl] at before
    cases before

theorem flatten_chunks (s : SigSpec) : (chunks s).flatten = s := List.flatten_splitBy _ _

end SigSpec

/-! ## Substitution maps -/

namespace Dict

theorem get?_eq_some {d : Dict} {b t : SigBit} : d.get? b = some t ↔ (b, t) ∈ d.pairs := by
  constructor
  · intro entry
    obtain ⟨p, found, rfl⟩ := Option.map_eq_some'.mp entry
    have same : p.1 = b := by simpa using List.find?_some found
    exact same ▸ List.mem_of_find?_eq_some found
  · intro mem
    cases found : d.pairs.find? (·.1 == b) with
    | none => exact absurd (List.find?_eq_none.mp found _ mem) (by simp)
    | some p =>
      have same : p = (b, t) := List.inj_on_of_nodup_map d.keys_nodup
        (List.mem_of_find?_eq_some found) mem (by simpa using List.find?_some found)
      simp [get?, found, same]

end Dict

/-! ## What a case tree writes -/

mutual
/-- The bits the actions of a case tree write, those of the cases of its switches included. -/
def CaseRule.lhsBits : CaseRule → SigSpec
  | .mk _ actions switches => (actions.map Prod.fst).flatten ++ SwitchRule.lhsBitsAll switches

def SwitchRule.lhsBitsAll : List SwitchRule → SigSpec
  | [] => []
  | .mk _ cases :: rest => CaseRule.lhsBitsAll cases ++ SwitchRule.lhsBitsAll rest

def CaseRule.lhsBitsAll : List CaseRule → SigSpec
  | [] => []
  | c :: rest => c.lhsBits ++ CaseRule.lhsBitsAll rest
end

theorem SwitchRule.lhsBitsAll_append (sws sws' : List SwitchRule) :
    SwitchRule.lhsBitsAll (sws ++ sws') = SwitchRule.lhsBitsAll sws ++ SwitchRule.lhsBitsAll sws' := by
  induction sws with
  | nil => rfl
  | cons sw sws ih =>
    obtain ⟨_, _⟩ := sw
    simp [SwitchRule.lhsBitsAll, ih]

namespace CaseRule

theorem pushActions (c : CaseRule) (acts : List SigSig) :
    acts.foldl pushAction c = .mk c.compare (c.actions ++ acts) c.switches := by
  induction acts generalizing c with
  | nil => cases c; simp [compare, actions, switches]
  | cons a acts ih => cases c; simp [ih, pushAction, compare, actions, switches]

theorem mem_lhsBits_pushAction {c : CaseRule} {a : SigSig} {b : SigBit} :
    b ∈ (c.pushAction a).lhsBits ↔ b ∈ c.lhsBits ∨ b ∈ a.1 := by
  cases c
  simp only [pushAction, lhsBits, List.map_append, List.flatten_append, List.mem_append]
  simp [or_comm, or_assoc, or_left_comm]

theorem mem_lhsBits_pushSwitch {c : CaseRule} {signal : SigSpec} {cases : List CaseRule}
    {b : SigBit} :
    b ∈ (c.pushSwitch (.mk signal cases)).lhsBits ↔ b ∈ c.lhsBits ∨ b ∈ lhsBitsAll cases := by
  cases c
  simp [pushSwitch, lhsBits, SwitchRule.lhsBitsAll_append, SwitchRule.lhsBitsAll, or_assoc]

theorem mem_lhsBits_pushActions {c : CaseRule} {acts : List SigSig} {b : SigBit} :
    b ∈ (acts.foldl pushAction c).lhsBits ↔ b ∈ c.lhsBits ∨ ∃ a ∈ acts, b ∈ a.1 := by
  induction acts generalizing c with
  | nil => simp
  | cons a acts ih => simp [ih, mem_lhsBits_pushAction, or_assoc]

theorem mem_lhsBitsAll {cases : List CaseRule} {b : SigBit} :
    b ∈ lhsBitsAll cases ↔ ∃ c ∈ cases, b ∈ c.lhsBits := by
  induction cases with
  | nil => simp [lhsBitsAll]
  | cons c cases ih => simp [lhsBitsAll, ih]

end CaseRule

namespace Assignment

theorem applyActions_append (σ : Valuation) (m : Assignment) (acts acts' : List SigSig) :
    m.applyActions σ (acts ++ acts') = (m.applyActions σ acts).applyActions σ acts' :=
  List.foldl_append _ _ _ _

theorem bit_write_of_not_mem {b : SigBit} :
    ∀ (m : Assignment) (lhs : SigSpec) (vs : Const), b ∉ lhs → (m.write lhs vs).bit b = m.bit b
  | _, [], _, _ | _, .wire _ _ :: _, [], _ | _, .const _ :: _, [], _ => rfl
  | m, .const _ :: lhs, _ :: vs, outside =>
    bit_write_of_not_mem m lhs vs (List.not_mem_of_not_mem_cons outside)
  | m, .wire w offset :: lhs, v :: vs, outside => by
    simp only [List.mem_cons, not_or] at outside
    rw [write, bit_write_of_not_mem _ lhs vs outside.2]
    cases b with
    | const _ => rfl
    | wire w' offset' =>
      have other : ¬(w' = w ∧ offset' = offset) := by
        rintro ⟨rfl, rfl⟩
        exact outside.1 rfl
      simp [bit, other]

theorem bit_applyActions_of_not_mem (σ : Valuation) {b : SigBit} :
    ∀ (m : Assignment) (acts : List SigSig), (∀ a ∈ acts, b ∉ a.1) →
      (m.applyActions σ acts).bit b = m.bit b
  | _, [], _ => rfl
  | m, a :: acts, outside => by
    rw [← List.singleton_append, applyActions_append,
      bit_applyActions_of_not_mem σ _ acts fun a' mem => outside a' (List.mem_cons_of_mem _ mem)]
    exact bit_write_of_not_mem m a.1 _ (outside a (List.mem_cons_self _ _))

end Assignment

/-- The position of the first of `cases` that a switch on `signal` takes under `σ`. -/
def firstMatch (σ : Valuation) (signal : SigSpec) : List CaseRule → Option Nat
  | [] => none
  | c :: cases =>
    if caseMatches σ signal c.compare then some 0 else (firstMatch σ signal cases).map (· + 1)

mutual
/-- A case tree leaves every bit it has no action for as it was. -/
theorem CaseRule.bit_eval_of_not_mem (σ : Valuation) {b : SigBit} :
    ∀ (c : CaseRule) (m : Assignment), b ∉ c.lhsBits → (c.eval σ m).bit b = m.bit b
  | .mk _ actions switches, m, outside => by
    simp only [CaseRule.lhsBits, List.mem_append, not_or, List.mem_flatten, List.mem_map,
      not_exists, not_and] at outside
    rw [CaseRule.eval, SwitchRule.bit_evalAll_of_not_mem σ switches _ outside.2,
      Assignment.bit_applyActions_of_not_mem σ m actions fun a mem => outside.1 _ ⟨a, mem, rfl⟩]

theorem SwitchRule.bit_evalAll_of_not_mem (σ : Valuation) {b : SigBit} :
    ∀ (sws : List SwitchRule) (m : Assignment), b ∉ SwitchRule.lhsBitsAll sws →
      (SwitchRule.evalAll σ sws m).bit b = m.bit b
  | [], _, _ => rfl
  | .mk signal cases :: rest, m, outside => by
    simp only [SwitchRule.lhsBitsAll, List.mem_append, not_or] at outside
    rw [SwitchRule.evalAll, SwitchRule.bit_evalAll_of_not_mem σ rest _ outside.2, SwitchRule.eval,
      SwitchRule.bit_evalCases_of_not_mem σ signal cases m outside.1]

theorem SwitchRule.bit_evalCases_of_not_mem (σ : Valuation) {b : SigBit} (signal : SigSpec) :
    ∀ (cases : List CaseRule) (m : Assignment), b ∉ CaseRule.lhsBitsAll cases →
      (SwitchRule.evalCases σ signal cases m).bit b = m.bit b
  | [], _, _ => rfl
  | .mk compare actions switches :: rest, m, outside => by
    simp only [CaseRule.lhsBitsAll, List.mem_append, not_or] at outside
    rw [SwitchRule.evalCases]
    split
    · exact CaseRule.bit_eval_of_not_mem σ _ m outside.1
    · exact SwitchRule.bit_evalCases_of_not_mem σ signal rest m outside.2
end

theorem SwitchRule.evalAll_append (σ : Valuation) (sws sws' : List SwitchRule) (m : Assignment) :
    SwitchRule.evalAll σ (sws ++ sws') m = SwitchRule.evalAll σ sws' (SwitchRule.evalAll σ sws m) := by
  induction sws generalizing m with
  | nil => rfl
  | cons sw sws ih => exact ih _

/-- A switch runs the first case that matches, or none. -/
theorem SwitchRule.evalCases_eq (σ : Valuation) (signal : SigSpec) :
    ∀ (cases : List CaseRule) (m : Assignment),
      SwitchRule.evalCases σ signal cases m =
        ((firstMatch σ signal cases).bind (cases[·]?)).elim m fun c => c.eval σ m
  | [], _ => rfl
  | .mk compare actions switches :: rest, m => by
    by_cases taken : caseMatches σ signal compare
    · simp [SwitchRule.evalCases, firstMatch, CaseRule.compare, taken]
    · rw [SwitchRule.evalCases, if_neg taken, SwitchRule.evalCases_eq σ signal rest m]
      simp only [firstMatch, CaseRule.compare, taken, Bool.false_eq_true, if_false]
      cases firstMatch σ signal rest <;> simp

end SlangFrontend.Rtlil

namespace SlangFrontend.Verified.Switch

open Rtlil Ast Frontend

/-! ## Substitutions before and after a branch -/

/-- The bit the substitutions `d` read `b` as: its entry, or `b` itself. -/
def lookup (d : Dict) (b : SigBit) : SigBit := (d.get? b).getD b

/-- Every bit `d` has an entry for still has one in `d'`. -/
def Kept (d d' : Dict) : Prop := ∀ b, (d.get? b).isSome → (d'.get? b).isSome

theorem Kept.refl (d : Dict) : Kept d d := fun _ entry => entry

theorem Kept.trans {d d' d'' : Dict} (first : Kept d d') (second : Kept d' d'') : Kept d d'' :=
  fun b entry => second b (first b entry)

theorem kept_setAll (d : Dict) (lhs value : SigSpec) : Kept d (d.setAll lhs value) := by
  unfold Dict.setAll
  generalize lhs.zip value = pairs
  induction pairs generalizing d with
  | nil => exact .refl d
  | cons p pairs ih =>
    refine Kept.trans (fun b entry => ?_) (ih _)
    rw [Dict.get?_set]
    split <;> simp_all

/-- Substitutions `T` update the bit `b` from `S`: `T` has an entry for it, other than `S`'s. -/
def Updated (S T : Dict) (b : SigBit) : Prop := ∃ t, T.get? b = some t ∧ S.get? b ≠ some t

theorem mem_updateOf {S T : Dict} {b : SigBit} :
    b ∈ SwitchBuilder.updateOf S T ↔ Updated S T b := by
  simp only [SwitchBuilder.updateOf, SigSpec.mem_sort, List.mem_map, List.mem_filter, bne_iff_ne,
    ne_eq, Updated]
  constructor
  · rintro ⟨⟨b', t⟩, ⟨mem, differs⟩, rfl⟩
    exact ⟨t, Dict.get?_eq_some.mpr mem, differs⟩
  · rintro ⟨t, entry, differs⟩
    exact ⟨(b, t), ⟨Dict.get?_eq_some.mp entry, differs⟩, rfl⟩

theorem nodup_updateOf (S T : Dict) : (SwitchBuilder.updateOf S T).Nodup :=
  SigSpec.nodup_sort (T.keys_nodup.sublist ((List.filter_sublist _).map _))

/-- A bit a branch did not update reads as it did before the switch. -/
theorem lookup_of_not_updated {S T : Dict} {b : SigBit} (kept : Kept S T) (outside : ¬Updated S T b) :
    lookup T b = lookup S b := by
  unfold lookup
  cases entry : T.get? b with
  | none =>
    cases before : S.get? b with
    | none => rfl
    | some t => simpa [entry] using kept b (by simp [before])
  | some t =>
    have same : S.get? b = some t := by
      by_contra differs
      exact outside ⟨t, entry, differs⟩
    rw [same]

theorem exists_of_forall₂ {α β : Type} {R : α → β → Prop} {a : α} :
    ∀ {l₁ : List α} {l₂ : List β}, List.Forall₂ R l₁ l₂ → a ∈ l₁ → ∃ b ∈ l₂, R a b
  | _, _, .cons related _, .head _ => ⟨_, List.mem_cons_self _ _, related⟩
  | _, _, .cons _ rest, .tail _ mem =>
    let ⟨b, inside, related⟩ := exists_of_forall₂ rest mem
    ⟨b, List.mem_cons_of_mem _ inside, related⟩

/-! ## Visitors whose case trees write wires made before -/

/-- A visitor whose case trees write only wires made before `n`, and whose staging bits are bits
of wires made before `n`. -/
structure Sound (v : Visitor) (n : Nat) : Prop where
  current : ∀ bit ∈ v.current.lhsBits, bit.madeBefore n
  frames : ∀ f ∈ v.frames, ∀ bit ∈ f.lhsBits, bit.madeBefore n
  staging : ∀ b t, v.staging.get? b = some t → t.madeBefore n

theorem Sound.mono {v : Visitor} {n n' : Nat} (sound : Sound v n) (le : n ≤ n') : Sound v n' :=
  ⟨fun bit mem => SigBit.madeBefore_mono le (sound.current bit mem),
    fun f mem bit inside => SigBit.madeBefore_mono le (sound.frames f mem bit inside),
    fun b t entry => SigBit.madeBefore_mono le (sound.staging b t entry)⟩

/-- A visitor as `populate` makes it, before any statement: no case tree and no staging bits. -/
theorem sound_start (mode : Mode) (syncs : List SyncRule) (n : Nat) : Sound { mode, syncs } n :=
  ⟨by simp [CaseRule.lhsBits, SwitchRule.lhsBitsAll], by simp, by simp [Dict.get?, Dict.empty]⟩

theorem mem_lhsBits_foldl {bit : SigBit} : ∀ (frames : List CaseRule) (current : CaseRule),
    bit ∈ (frames.foldl (fun child parent => parent.pushSwitch (.mk [] [child])) current).lhsBits →
      bit ∈ current.lhsBits ∨ ∃ f ∈ frames, bit ∈ f.lhsBits
  | [], _, mem => .inl mem
  | f :: frames, current, mem => by
    rcases mem_lhsBits_foldl frames _ mem with inner | ⟨f', mem', inside⟩
    · rw [CaseRule.mem_lhsBits_pushSwitch, CaseRule.mem_lhsBitsAll] at inner
      rcases inner with here | ⟨c, mem, inside⟩
      · exact .inr ⟨f, List.mem_cons_self _ _, here⟩
      · exact .inl (List.mem_singleton.mp mem ▸ inside)
    · exact .inr ⟨f', List.mem_cons_of_mem _ mem', inside⟩

/-- The case a sound visitor started from, with everything added below it, writes only wires
made before `n`. -/
theorem Sound.closed {v : Visitor} {n : Nat} (sound : Sound v n) :
    ∀ bit ∈ v.closed.lhsBits, bit.madeBefore n := fun bit mem => by
  rcases mem_lhsBits_foldl v.frames v.current mem with inner | ⟨f, mem, inside⟩
  · exact sound.current bit inner
  · exact sound.frames f mem bit inside

theorem sound_pushAction {v : Visitor} {n : Nat} {a : SigSig} (sound : Sound v n)
    (made : ∀ bit ∈ a.1, bit.madeBefore n) : Sound (v.pushAction a) n :=
  ⟨fun bit mem => (CaseRule.mem_lhsBits_pushAction.mp mem).elim (sound.current bit) (made bit),
    sound.frames, sound.staging⟩

variable (subroutines : Subroutines)

/-- Every run of `body` that ends, from a sound visitor, ends in a sound one that has kept every
entry of the substitutions, in a module that numbers no fewer wires. -/
def Preserves (body : Visitor → LowerM Visitor) : Prop :=
  ∀ {v v' : Visitor} {mod mod' : Module}, body v mod = .ok (v', mod') → Sound v mod.nextId →
    Sound v' mod'.nextId ∧ Kept v.ctx.rvalueSubs v'.ctx.rvalueSubs ∧ mod.nextId ≤ mod'.nextId

/-! ## Assignments and `$display` -/

theorem logAssert_run {c : Bool} {s : String} {mod mod' : Module} {u : Unit}
    (ran : (logAssert c s : BuildM Unit) mod = .ok (u, mod')) : c = true ∧ mod' = mod := by
  cases c
  · cases ran
  · exact ⟨rfl, (Prod.mk.inj (Except.ok.inj ran)).2.symm⟩

/-- `staging_signal` gives every bit of the lvalue a staging bit of a wire made before the module
it leaves. -/
theorem stagingSignal_made {lvalue : SigSpec} {v : Visitor} {mod mod' : Module}
    {r : SigSpec × Visitor} (staged : stagingSignal lvalue v mod = .ok (r, mod'))
    (made : ∀ b t, v.staging.get? b = some t → t.madeBefore mod.nextId) :
    (∀ bit ∈ r.1, bit.madeBefore mod'.nextId) ∧
      ∀ b t, r.2.staging.get? b = some t → t.madeBefore mod'.nextId := by
  simp only [stagingSignal] at staged
  obtain ⟨_, mod1, checked, staged⟩ := BuildM.ok_of_bind_ok staged
  obtain ⟨st, mod2, allocated, staged⟩ := BuildM.ok_of_bind_ok staged
  cases staged
  obtain ⟨-, same⟩ := logAssert_run checked
  subst mod1
  obtain ⟨d', mod'', run, grows, outside, inside, -⟩ := StraightLine.allocate_loop
    (SigSpec.sortAndUnify (lvalue.filter fun bit => (v.staging.get? bit).isNone)).chunks v.staging mod
  rw [allocateChunks, run, Except.ok.injEq, Prod.mk.injEq] at allocated
  obtain ⟨rfl, rfl⟩ := allocated
  have created : ∀ {b}, b ∈ (SigSpec.sortAndUnify (lvalue.filter fun bit =>
      (v.staging.get? bit).isNone)).chunks.flatten ↔ b ∈ lvalue ∧ v.staging.get? b = none := by
    intro b
    rw [SigSpec.mem_flatten_chunks, SigSpec.mem_sortAndUnify, List.mem_filter,
      Option.isNone_iff_eq_none]
  have entryMade : ∀ b t, d'.get? b = some t → t.madeBefore mod''.nextId := fun b t entry => by
    by_cases new : b ∈ (SigSpec.sortAndUnify (lvalue.filter fun bit =>
        (v.staging.get? bit).isNone)).chunks.flatten
    · obtain ⟨k, offset, entry', -, high⟩ := inside b new
      rw [entry] at entry'
      cases entry'
      simpa [SigBit.madeBefore] using high
    · rw [outside b new] at entry
      exact SigBit.madeBefore_mono grows.nextId_le (made b t entry)
  refine ⟨fun bit mem => ?_, entryMade⟩
  obtain ⟨b, inLvalue, rfl⟩ := List.mem_map.mp mem
  cases old : v.staging.get? b with
  | none =>
    obtain ⟨k, offset, entry, -⟩ := inside b (created.mpr ⟨inLvalue, old⟩)
    simpa [entry] using entryMade _ _ entry
  | some t =>
    have entry : d'.get? b = some t := by
      rw [outside b fun mem => by simp [(created.mp mem).2] at old, old]
    simpa [entry] using entryMade _ _ entry

theorem assign_sound {blocking : Bool} {lvalue masked : SigSpec} :
    Preserves (assign blocking lvalue masked) := by
  intro v v' mod mod' assigned sound
  have grows := (assign_keeps blocking lvalue masked v).grows assigned
  simp only [assign] at assigned
  obtain ⟨_, mod1, checked, assigned⟩ := BuildM.ok_of_bind_ok assigned
  obtain ⟨v1, mod2, recorded, assigned⟩ := BuildM.ok_of_bind_ok assigned
  obtain ⟨⟨staged, v2⟩, mod3, stagedRun, assigned⟩ := BuildM.ok_of_bind_ok assigned
  cases assigned
  obtain ⟨-, same⟩ := logAssert_run checked
  subst mod1
  have recordGrows : mod.nextId ≤ mod2.nextId := by
    refine (BuildM.Keeps.grows ?_ recorded).nextId_le
    unfold recordAssignment
    split <;> exact (BuildM.Keeps.logAssert _ _).bind fun _ => .pure _
  obtain ⟨hctx, hstaging, hcurrent, hframes⟩ := recordAssignment_ok recorded
  obtain ⟨hv, -⟩ := stagingSignal_ok stagedRun
  obtain ⟨stagedMade, stagingMade⟩ := stagingSignal_made stagedRun fun b t entry =>
    SigBit.madeBefore_mono recordGrows (sound.staging b t (hstaging ▸ entry))
  simp only at hv stagedMade stagingMade
  obtain ⟨hctx2, hcurrent2, hframes2⟩ : v2.ctx = v1.ctx ∧ v2.current = v1.current ∧
      v2.frames = v1.frames := by
    rw [hv]
    exact ⟨rfl, rfl, rfl⟩
  refine ⟨sound_pushAction ⟨fun bit mem => ?_, fun f mem bit inside => ?_, stagingMade⟩ stagedMade,
    ?_, grows.nextId_le⟩
  · rw [hcurrent2, hcurrent] at mem
    exact SigBit.madeBefore_mono grows.nextId_le (sound.current bit mem)
  · rw [hframes2, hframes] at mem
    exact SigBit.madeBefore_mono grows.nextId_le (sound.frames f mem bit inside)
  · show Kept v.ctx.rvalueSubs v2.ctx.rvalueSubs
    rw [hctx2, hctx]
    cases blocking
    · exact .refl _
    · exact kept_setAll _ _ _

theorem unimplemented_ne {α : Type} {mod : Module} {r : α × Module} :
    (unimplemented : BuildM α) mod ≠ .ok r := fun ran => by cases ran

/-- An expression statement: `$display` adds an action setting a fresh enable wire, and an
assignment one driving staging bits. -/
theorem handleExpression_sound (fuel : Nat) (e : Expr) :
    Preserves (handleExpression subroutines fuel e) := by
  intro v v' mod mod' ran sound
  cases fuel with
  | zero => cases ran
  | succ fuel =>
  have below := keepsAll subroutines fuel
  cases e
  case call type c target arguments =>
    simp only [handleExpression] at ran
    split at ran
    · cases ran
      exact ⟨sound, .refl _, le_rfl⟩
    split at ran
    · obtain ⟨⟨triggers, polarity, implicit⟩, mod1, triggered, ran⟩ := BuildM.ok_of_bind_ok ran
      obtain ⟨⟨enable, v1⟩, mod2, enabled, ran⟩ := BuildM.ok_of_bind_ok ran
      have rest := ((BuildM.Keeps.mapM (printArg_keeps below _)).bind fun _ =>
        (BuildM.Keeps.modify fun _ => .addPrint _).bind fun _ => .pure _).grows ran
      obtain ⟨args, mod3, -, ran⟩ := BuildM.ok_of_bind_ok ran
      obtain ⟨_, mod4, -, ran⟩ := BuildM.ok_of_bind_ok ran
      cases ran
      have before := ((cellTrigger_keeps _).grows triggered).nextId_le
      simp only [contextEnable, BuildM.modifyGet_bind] at enabled
      cases enabled
      have after := rest.nextId_le
      rw [Module.nextId_addWire] at after
      have sound' := sound.mono (by omega : mod.nextId ≤ mod'.nextId)
      refine ⟨⟨fun bit mem => ?_, sound'.frames, sound'.staging⟩, .refl _, by omega⟩
      rcases CaseRule.mem_lhsBits_pushAction.mp mem with old | new
      · exact sound'.current bit old
      · rw [Module.addWire_eq] at new
        simp only [Module.wireBits, List.range_succ, List.range_zero, List.nil_append, List.map_cons,
          List.map_nil, List.headD_cons, List.mem_singleton] at new
        subst new
        simpa [SigBit.madeBefore] using after
    · exact absurd ran unimplemented_ne
  case assignment type c nonBlocking left right =>
    simp only [handleExpression] at ran
    obtain ⟨rvalue, mod1, rhsRun, ran⟩ := BuildM.ok_of_bind_ok ran
    obtain ⟨⟨rawLexpr, rawMask, rawRvalue⟩, mod2, etchRun, ran⟩ := BuildM.ok_of_bind_ok ran
    obtain ⟨lhs, mod3, lhsRun, ran⟩ := BuildM.ok_of_bind_ok ran
    obtain ⟨masked, mod4, maskRun, ran⟩ := BuildM.ok_of_bind_ok ran
    have grows := ((below.rhs _ _).grows rhsRun).trans (((below.etch _ _ _ _).grows etchRun).trans
      ((BuildM.Keeps.lift.grows lhsRun).trans ((maskRvalue_keeps _ _ _ _).grows maskRun)))
    obtain ⟨sound', kept, after⟩ := assign_sound ran (sound.mono grows.nextId_le)
    exact ⟨sound', kept, grows.nextId_le.trans after⟩
  all_goals simp only [handleExpression] at ran; exact absurd ran unimplemented_ne

theorem Preserves.foldlM {α : Type} {f : α → Visitor → LowerM Visitor} {l : List α}
    (each : ∀ a ∈ l, Preserves (f a)) : Preserves (fun v => l.foldlM (fun v a => f a v) v) := by
  induction l with
  | nil =>
    intro v v' mod mod' ran sound
    cases ran
    exact ⟨sound, .refl _, le_rfl⟩
  | cons a l ih =>
    intro v v' mod mod' ran sound
    beta_reduce at ran
    rw [List.foldlM_cons] at ran
    obtain ⟨v1, mod1, first, rest⟩ := BuildM.ok_of_bind_ok ran
    obtain ⟨sound1, kept1, le1⟩ := each a (List.mem_cons_self _ _) first sound
    obtain ⟨sound2, kept2, le2⟩ :=
      ih (fun b mem => each b (List.mem_cons_of_mem _ mem)) rest sound1
    exact ⟨sound2, kept1.trans kept2, le1.trans le2⟩

/-! ## `SwitchBuilder::branch` -/

/-- What `branch` records for a body that left the substitutions `T`: the bits it updated from
`S`, sorted, and what it mapped them to. -/
def update (S T : Dict) : SigSig := (SwitchBuilder.updateOf S T, (SwitchBuilder.updateOf S T).replace T)

/-- A builder opened on the substitutions `S` that has recorded one branch for each of `bodies`,
with the visitor each body started from and the one it left: each started from `S`, each case
tree writes only wires made before `n`, and each body kept every entry of `S`. -/
structure Recorded (S : Dict) (n : Nat) (b : SwitchBuilder) (bodies : List (Visitor → LowerM Visitor))
    (outs : List (Visitor × Visitor)) : Prop where
  save : b.rvalueSubsSave = S
  cases : b.cases = outs.map fun o => o.2.closed
  updates : b.branchUpdates = outs.map fun o => update S o.2.ctx.rvalueSubs
  runs : List.Forall₂ (fun body o => o.1.ctx.rvalueSubs = S ∧
    ∃ mod mod', body o.1 mod = .ok (o.2, mod')) bodies outs
  made : ∀ o ∈ outs, ∀ bit ∈ o.2.closed.lhsBits, bit.madeBefore n
  kept : ∀ o ∈ outs, Kept S o.2.ctx.rvalueSubs

theorem Recorded.mono {S : Dict} {n n' : Nat} {b : SwitchBuilder} {bodies outs}
    (recorded : Recorded S n b bodies outs) (le : n ≤ n') : Recorded S n' b bodies outs :=
  { recorded with
    made := fun o mem bit inside => SigBit.madeBefore_mono le (recorded.made o mem bit inside) }

theorem recorded_new (S : Dict) (signal : SigSpec) (n : Nat) :
    Recorded S n (SwitchBuilder.new S signal) [] [] :=
  ⟨rfl, rfl, rfl, .nil, by simp, by simp⟩

/-- `branch`: the body runs from the parent's visitor moved to a new case of its own, its case
tree and update are recorded, and the visitor is back at the parent's case with the
substitutions `S`. -/
theorem branch_spec {S : Dict} {b b' : SwitchBuilder} {bodies outs} {compare : List SigSpec}
    {body : Visitor → LowerM Visitor} (preserves : Preserves body) {v v' : Visitor}
    {mod mod' : Module} (recorded : Recorded S mod.nextId b bodies outs)
    (restored : v.ctx.rvalueSubs = S) (sound : Sound v mod.nextId)
    (ran : b.branch compare body v mod = .ok ((b', v'), mod')) :
    ∃ after, Recorded S mod'.nextId b' (bodies ++ [body])
        (outs ++ [({ v with current := .mk compare [] [], frames := [] }, after)]) ∧
      v'.ctx.rvalueSubs = S ∧ v'.current = v.current ∧ v'.frames = v.frames ∧
      Sound v' mod'.nextId ∧ mod.nextId ≤ mod'.nextId := by
  simp only [SwitchBuilder.branch] at ran
  obtain ⟨after, mod1, bodyRun, ran⟩ := BuildM.ok_of_bind_ok ran
  cases ran
  obtain ⟨soundAfter, kept, grows⟩ := preserves bodyRun
    ⟨by simp [CaseRule.lhsBits, SwitchRule.lhsBitsAll], by simp, sound.staging⟩
  refine ⟨after, ⟨recorded.save, ?_, ?_, List.rel_append recorded.runs
    (.cons ⟨restored, _, _, bodyRun⟩ .nil), ?_, ?_⟩, recorded.save, rfl, rfl,
    ⟨fun bit mem => SigBit.madeBefore_mono grows (sound.current bit mem),
      fun f mem bit inside => SigBit.madeBefore_mono grows (sound.frames f mem bit inside),
      soundAfter.staging⟩, grows⟩
  · simp [recorded.cases]
  · simp [recorded.updates, recorded.save, update]
  · simp only [List.mem_append, List.mem_singleton]
    rintro o (old | rfl)
    · exact (recorded.mono grows).made o old
    · exact soundAfter.closed
  · simp only [List.mem_append, List.mem_singleton]
    rintro o (old | rfl)
    · exact recorded.kept o old
    · exact restored ▸ kept

/-! ## `SwitchBuilder::finish` -/

theorem replace_congr {s : SigSpec} {d d' : Dict} (same : ∀ b ∈ s, d.get? b = d'.get? b) :
    s.replace d = s.replace d' :=
  List.map_congr_left fun b mem => by rw [same b mem]

theorem replace_setAll_self (d : Dict) {lhs value : SigSpec} (distinct : lhs.Nodup)
    (len : lhs.length = value.length) : lhs.replace (d.setAll lhs value) = value := by
  refine List.ext_getElem (by simp [SigSpec.replace, len]) fun j inside inside' => ?_
  simp only [SigSpec.replace, List.getElem_map]
  rw [Dict.get?_setAll_of_getElem? d distinct len.le (List.getElem?_eq_getElem _),
    List.getElem?_eq_getElem inside']
  rfl

/-- The loop of `finish` over the chunks of the updated bits: the wires it makes are those
`allocate_chunks` would make, and each chunk's default action drives its wire with the chunk as
the substitutions read it before the loop. -/
theorem finish_loop (cs : List SigSpec) (distinct : cs.flatten.Nodup) :
    ∀ (acts : List SigSig) (d : Dict) (mod : Module), ∃ d' mod',
      (cs.foldlM (fun (acts, subs) chunk => do
          let w ← modifyGet (Module.addWire chunk.length)
          pure (acts ++ [(w, chunk.replace subs)], subs.setAll chunk w)) (acts, d) :
          LowerM (List SigSig × Dict)) mod =
        .ok ((acts ++ cs.map fun c => (c.replace d', c.replace d), d'), mod') ∧
      (cs.foldlM (fun d chunk => do
          let w ← modifyGet (Module.addWire chunk.length)
          pure (d.setAll chunk w)) d : LowerM Dict) mod = .ok (d', mod') := by
  induction cs with
  | nil => exact fun acts d mod => ⟨d, mod, by simp, rfl⟩
  | cons chunk cs ih =>
    intro acts d mod
    rw [List.flatten_cons, List.nodup_append] at distinct
    obtain ⟨chunkDistinct, restDistinct, disjoint⟩ := distinct
    obtain ⟨d', mod', loop, alloc⟩ := ih restDistinct (acts ++ [(Module.wireBits (.fresh mod.nextId)
      chunk.length, chunk.replace d)]) (d.setAll chunk (Module.wireBits (.fresh mod.nextId)
      chunk.length)) (mod.addWire chunk.length).2
    obtain ⟨d'', mod'', alloc', -, outside, -, -⟩ := StraightLine.allocate_loop cs
      (d.setAll chunk (Module.wireBits (.fresh mod.nextId) chunk.length)) (mod.addWire chunk.length).2
    rw [alloc, Except.ok.injEq, Prod.mk.injEq] at alloc'
    obtain ⟨rfl, rfl⟩ := alloc'
    have wires : chunk.replace d' = Module.wireBits (.fresh mod.nextId) chunk.length := by
      rw [replace_congr fun b mem => outside b (disjoint mem), replace_setAll_self _ chunkDistinct
        (by simp [Module.wireBits])]
    have rest : ∀ c ∈ cs, c.replace (d.setAll chunk (Module.wireBits (.fresh mod.nextId)
        chunk.length)) = c.replace d := fun c mem => replace_congr fun b inside =>
      Dict.get?_setAll_of_not_mem _ _ fun inChunk =>
        disjoint inChunk (List.mem_flatten_of_mem mem inside)
    have stepA : (do
        let w ← modifyGet (Module.addWire chunk.length)
        pure (acts ++ [(w, chunk.replace d)], d.setAll chunk w) : LowerM (List SigSig × Dict)) mod =
        .ok ((acts ++ [(Module.wireBits (.fresh mod.nextId) chunk.length, chunk.replace d)],
          d.setAll chunk (Module.wireBits (.fresh mod.nextId) chunk.length)),
          (mod.addWire chunk.length).2) := by
      rw [BuildM.modifyGet_bind, Module.addWire_eq]
      rfl
    have stepB : (do
        let w ← modifyGet (Module.addWire chunk.length)
        pure (d.setAll chunk w) : LowerM Dict) mod =
        .ok (d.setAll chunk (Module.wireBits (.fresh mod.nextId) chunk.length),
          (mod.addWire chunk.length).2) := by
      rw [BuildM.modifyGet_bind, Module.addWire_eq]
      rfl
    refine ⟨d', mod', ?_, ?_⟩ <;> rw [List.foldlM_cons]
    · refine (BuildM.bind_of_ok stepA).trans (loop.trans ?_)
      have restMap : cs.map (fun c => (c.replace d', c.replace (d.setAll chunk
          (Module.wireBits (.fresh mod.nextId) chunk.length)))) =
          cs.map fun c => (c.replace d', c.replace d) :=
        List.map_congr_left fun c mem => by rw [rest c mem]
      rw [List.map_cons, wires, restMap]
      simp
    · exact (BuildM.bind_of_ok stepB).trans alloc

theorem branchActions_loop (subs T : Dict) (R : SigSpec) :
    ∀ (cs : List SigSpec) (acts : List SigSig) (done : Nat) (rest : SigSpec),
      R.drop done = SigSpec.replace cs.flatten T ++ rest →
      (cs.foldl (fun (acts, done) chunk =>
          (acts ++ [(chunk.replace subs, R.extract done chunk.length)], done + chunk.length))
        (acts, done)).1 = acts ++ cs.map fun c => (c.replace subs, c.replace T)
  | [], acts, _, _, _ => by simp
  | c :: cs, acts, done, rest, dropped => by
    simp only [List.foldl_cons, List.map_cons]
    have head : R.extract done c.length = c.replace T := by
      rw [SigSpec.extract, dropped, List.flatten_cons, SigSpec.replace, List.map_append,
        List.append_assoc, List.take_left' (by simp)]
      rfl
    rw [head, branchActions_loop subs T R cs _ (done + c.length) rest (by
      rw [← List.drop_drop, dropped, List.flatten_cons, SigSpec.replace, List.map_append,
        List.append_assoc, List.drop_left' (by simp)]
      rfl)]
    simp

/-- The actions `finish` adds to a branch: each chunk of its update, renamed by the new
substitutions, is driven by the chunk as the branch left it. -/
theorem branchActions_update (subs S T : Dict) :
    SwitchBuilder.branchActions subs (update S T) =
      (SigSpec.chunks (SwitchBuilder.updateOf S T)).map fun c => (c.replace subs, c.replace T) := by
  unfold SwitchBuilder.branchActions
  rw [branchActions_loop subs T _ _ [] 0 [] (by rw [SigSpec.flatten_chunks]; simp [update])]
  rfl

/-! ## The merged bits and the values of their wires -/

theorem firstMatch_lt {σ : Valuation} {signal : SigSpec} :
    ∀ {cases : List CaseRule} {k : Nat}, firstMatch σ signal cases = some k → k < cases.length
  | [], _, found => by cases found
  | c :: cases, k, found => by
    unfold firstMatch at found
    split at found
    · cases found
      simp
    · obtain ⟨k', found', rfl⟩ := Option.map_eq_some'.mp found
      simpa using firstMatch_lt found'

theorem bit_write_congr {x : SigBit} : ∀ (m m' : Assignment) (lhs : SigSpec) (vs : Const),
    m.bit x = m'.bit x → (m.write lhs vs).bit x = (m'.write lhs vs).bit x
  | _, _, [], _, same | _, _, .wire _ _ :: _, [], same | _, _, .const _ :: _, [], same => same
  | m, m', .const _ :: lhs, _ :: vs, same => bit_write_congr m m' lhs vs same
  | m, m', .wire w offset :: lhs, v :: vs, same => bit_write_congr _ _ lhs vs (by
      cases x with
      | const _ => rfl
      | wire w' offset' =>
        simp only [Assignment.bit] at same ⊢
        by_cases here : w' = w ∧ offset' = offset <;> simp [here, same])

/-- What actions leave at a bit depends on the assignment they run after only through that bit. -/
theorem bit_applyActions_congr (σ : Valuation) {x : SigBit} :
    ∀ (m m' : Assignment) (acts : List SigSig), m.bit x = m'.bit x →
      (m.applyActions σ acts).bit x = (m'.applyActions σ acts).bit x
  | _, _, [], same => same
  | m, m', a :: acts, same => by
    rw [← List.singleton_append, Assignment.applyActions_append, Assignment.applyActions_append]
    exact bit_applyActions_congr σ _ _ acts (bit_write_congr m m' a.1 _ same)

/-- Actions added to the top of a case tree that writes nothing at `x` decide what it leaves
there. -/
theorem bit_eval_pushActions {base : CaseRule} {acts : List SigSig} {x : SigBit}
    (outside : x ∉ base.lhsBits) (σ : Valuation) (m : Assignment) :
    ((acts.foldl CaseRule.pushAction base).eval σ m).bit x = (m.applyActions σ acts).bit x := by
  cases base with
  | mk compare actions switches =>
    simp only [CaseRule.lhsBits, List.mem_append, not_or, List.mem_flatten, List.mem_map,
      not_exists, not_and] at outside
    rw [CaseRule.pushActions]
    simp only [CaseRule.compare, CaseRule.actions, CaseRule.switches]
    rw [CaseRule.eval, SwitchRule.bit_evalAll_of_not_mem σ switches _ outside.2,
      Assignment.applyActions_append]
    exact bit_applyActions_congr σ _ _ acts
      (Assignment.bit_applyActions_of_not_mem σ m actions fun a mem => outside.1 _ ⟨a, mem, rfl⟩)

/-- A bit some branch updated from `S`: the bits `finish` merges. -/
def Merged (S : Dict) (outs : List (Visitor × Visitor)) (b : SigBit) : Prop :=
  ∃ o ∈ outs, Updated S o.2.ctx.rvalueSubs b

/-- The substitutions in force once the switch `sw` has run under `σ`: those the body of the
first branch whose case matches left, or `S` when no case matches. -/
def chosen (σ : Valuation) (sw : SwitchRule) (S : Dict) (outs : List (Visitor × Visitor)) : Dict :=
  (((firstMatch σ sw.signal sw.cases).bind (outs[·]?)).map fun o => o.2.ctx.rvalueSubs).getD S

/-- The default actions `finish` adds to the parent case: each chunk of merged bits, renamed by
the new substitutions `subs`, is driven by the chunk as `S` reads it. -/
def defaultsOf (subs S : Dict) (merged : SigSpec) : List SigSig :=
  (SigSpec.chunks merged).map fun c => (c.replace subs, c.replace S)

/-- The actions `finish` adds to the case of a branch whose body ended as `o.2`. -/
def extrasOf (subs S : Dict) (o : Visitor × Visitor) : List SigSig :=
  (SigSpec.chunks (SwitchBuilder.updateOf S o.2.ctx.rvalueSubs)).map fun c =>
    (c.replace subs, c.replace o.2.ctx.rvalueSubs)

/-- What `finish` makes of a switch opened in the case `save` on the substitutions `S`, whose
branches' bodies started and ended as `outs` says, leaving the substitutions `S'`: the case of
each branch is the case tree of its body with actions added at its top, the parent case gets
default actions, and these actions write only the fresh wires `S'` maps the merged bits to,
one bit each; `S'` keeps every other entry of `S`; and once the parent case has run, the wire of
a merged bit holds the bit as the first matching branch left it, or as it was before the switch
when no branch matches. -/
structure Merges (S : Dict) (outs : List (Visitor × Visitor)) (save : CaseRule) (sw : SwitchRule)
    (defaults : List SigSig) (S' : Dict) (n n' : Nat) : Prop where
  cases : List.Forall₂ (fun (rule : CaseRule) (o : Visitor × Visitor) => ∃ acts : List SigSig,
    rule = acts.foldl CaseRule.pushAction o.2.closed ∧
      ∀ a ∈ acts, ∀ bit ∈ a.1, ∃ b, Merged S outs b ∧ S'.get? b = some bit) sw.cases outs
  writes : ∀ a ∈ defaults, ∀ bit ∈ a.1, ∃ b, Merged S outs b ∧ S'.get? b = some bit
  fresh : ∀ b, Merged S outs b → ∃ k j, S'.get? b = some (.wire (.fresh k) j) ∧ n ≤ k ∧ k < n'
  distinct : ∀ b b', Merged S outs b → Merged S outs b' → S'.get? b = S'.get? b' → b = b'
  unchanged : ∀ b, ¬Merged S outs b → S'.get? b = S.get? b
  value : ∀ σ m b, Merged S outs b →
    ((defaults.foldl CaseRule.pushAction (save.pushSwitch sw)).eval σ m).bit (lookup S' b) =
      some ((lookup (chosen σ sw S outs) b).eval σ)

section Finish

variable {S subs : Dict} {outs : List (Visitor × Visitor)} {U : SigSpec} {n : Nat}
  (memU : ∀ x, x ∈ U ↔ Merged S outs x)
  (fresh : ∀ x ∈ U, ∃ k j, subs.get? x = some (.wire (.fresh k) j) ∧ n ≤ k)
  (injective : ∀ x ∈ U, ∀ x' ∈ U, subs.get? x = subs.get? x' → x = x')

include memU fresh in
/-- The actions `finish` adds write only the wires of merged bits. -/
theorem writes_of_chunks {V : SigSpec} (within : ∀ x ∈ V, x ∈ U) (T : Dict) :
    ∀ a ∈ (SigSpec.chunks V).map (fun c => (c.replace subs, c.replace T)), ∀ bit ∈ a.1,
      ∃ b, Merged S outs b ∧ subs.get? b = some bit := by
  simp only [List.mem_map]
  rintro _ ⟨chunk, mem, rfl⟩ bit written
  obtain ⟨x, inside, rfl⟩ := List.mem_map.mp written
  have inV : x ∈ V := SigSpec.mem_flatten_chunks.mp (List.mem_flatten_of_mem mem inside)
  obtain ⟨k, j, entry, -⟩ := fresh x (within x inV)
  exact ⟨x, (memU x).mp (within x inV), by simp [entry]⟩

include fresh injective in
/-- Actions that drive, chunk by chunk, the wires of bits of `U` with what `T` reads the bits as:
the wire of a merged bit `b` holds `T`'s reading of `b` if `b` is among them. -/
theorem bit_applyActions_merged {V : SigSpec} (within : ∀ x ∈ V, x ∈ U) (T : Dict) (σ : Valuation)
    (m : Assignment) {b : SigBit} (merged : b ∈ U) :
    (m.applyActions σ ((SigSpec.chunks V).map fun c => (c.replace subs, c.replace T))).bit
      (lookup subs b) = if b ∈ V then some ((lookup T b).eval σ) else m.bit (lookup subs b) := by
  have wires : ∀ x ∈ (SigSpec.chunks V).flatten, ∃ w offset, lookup subs x = .wire w offset :=
    fun x mem => by
      obtain ⟨k, j, entry, -⟩ := fresh x (within x (SigSpec.mem_flatten_chunks.mp mem))
      exact ⟨.fresh k, j, by simp [lookup, entry]⟩
  have inj : ∀ x ∈ (SigSpec.chunks V).flatten, lookup subs x = lookup subs b → x = b :=
    fun x mem same => by
      have inU := within x (SigSpec.mem_flatten_chunks.mp mem)
      obtain ⟨k, j, entry, -⟩ := fresh x inU
      obtain ⟨k', j', entry', -⟩ := fresh b merged
      simp only [lookup, entry, entry', Option.getD_some] at same
      exact injective x inU b merged (by rw [entry, entry', same])
  have := Assignment.bit_applyActions_map σ m (lookup subs) (lookup T) (SigSpec.chunks V) wires inj
  rw [SigSpec.flatten_chunks] at this
  exact this

include memU fresh injective in
/-- The value of a merged bit's wire once the parent case, with the switch and the default
actions, has run. -/
theorem merged_value {save : CaseRule} {signal : SigSpec}
    (saved : ∀ bit ∈ save.lhsBits, bit.madeBefore n)
    (made : ∀ o ∈ outs, ∀ bit ∈ o.2.closed.lhsBits, bit.madeBefore n)
    (kept : ∀ o ∈ outs, Kept S o.2.ctx.rvalueSubs) (σ : Valuation) (m : Assignment) {b : SigBit}
    (merged : b ∈ U) :
    (((defaultsOf subs S U).foldl CaseRule.pushAction (save.pushSwitch (.mk signal
      (outs.map fun o => (extrasOf subs S o).foldl CaseRule.pushAction o.2.closed)))).eval σ m).bit
        (lookup subs b) =
      some ((lookup (chosen σ (.mk signal (outs.map fun o =>
        (extrasOf subs S o).foldl CaseRule.pushAction o.2.closed)) S outs) b).eval σ) := by
  obtain ⟨k, j, entry, low⟩ := fresh b merged
  have notMade : ∀ {bits : SigSpec}, (∀ bit ∈ bits, bit.madeBefore n) → lookup subs b ∉ bits :=
    fun made inside => by
      have old := made _ inside
      simp only [lookup, entry, Option.getD_some, SigBit.madeBefore, decide_eq_true_eq] at old
      omega
  have updates : ∀ o ∈ outs, ∀ x ∈ SwitchBuilder.updateOf S o.2.ctx.rvalueSubs, x ∈ U :=
    fun o mem x inside => (memU x).mpr ⟨o, mem, mem_updateOf.mp inside⟩
  obtain ⟨compare, actions, switches⟩ := save
  rw [CaseRule.pushActions]
  simp only [CaseRule.pushSwitch, CaseRule.compare, CaseRule.actions, CaseRule.switches]
  rw [CaseRule.eval, SwitchRule.evalAll_append, Assignment.applyActions_append]
  have before : (SwitchRule.evalAll σ switches ((m.applyActions σ actions).applyActions σ
      (defaultsOf subs S U))).bit (lookup subs b) = some ((lookup S b).eval σ) := by
    rw [SwitchRule.bit_evalAll_of_not_mem σ switches _ (notMade fun bit inside =>
      saved bit (by simp [CaseRule.lhsBits, inside])), defaultsOf,
      bit_applyActions_merged fresh injective (fun _ => id) S σ _ merged, if_pos merged]
  rw [SwitchRule.evalAll, SwitchRule.evalAll, SwitchRule.eval, SwitchRule.evalCases_eq, chosen]
  simp only [SwitchRule.signal, SwitchRule.cases]
  cases first : firstMatch σ signal (outs.map fun o =>
      (extrasOf subs S o).foldl CaseRule.pushAction o.2.closed) with
  | none => simpa using before
  | some i =>
    have below : i < outs.length := by simpa using firstMatch_lt first
    have mem : outs[i] ∈ outs := List.getElem_mem below
    simp only [Option.some_bind, List.getElem?_map, List.getElem?_eq_getElem below, Option.map_some',
      Option.elim, Option.getD_some]
    rw [bit_eval_pushActions (notMade (made _ mem)), extrasOf,
      bit_applyActions_merged fresh injective (updates _ mem) _ σ _ merged]
    split
    · rfl
    · next notUpdated =>
      rw [before, lookup_of_not_updated (kept _ mem) fun updated =>
        notUpdated (mem_updateOf.mpr updated)]

end Finish

/-- `finish`, on a builder that recorded the branches `outs` from the substitutions `S`: it
cannot fail, and what it returns merges the branches as `Merges` says. -/
theorem finish_spec {S : Dict} {b : SwitchBuilder} {bodies outs} {save : CaseRule} {v : Visitor}
    {mod : Module} (recorded : Recorded S mod.nextId b bodies outs) (restored : v.ctx.rvalueSubs = S)
    (saved : ∀ bit ∈ save.lhsBits, bit.madeBefore mod.nextId) :
    ∃ sw defaults subs mod', b.finish v mod =
        .ok ((sw, defaults, { v with ctx := { v.ctx with rvalueSubs := subs } }), mod') ∧
      sw.signal = b.signal ∧ Merges S outs save sw defaults subs mod.nextId mod'.nextId ∧
      mod.nextId ≤ mod'.nextId := by
  subst restored
  have memU : ∀ x, x ∈ SigSpec.sortAndUnify (b.branchUpdates.map Prod.fst).flatten ↔
      Merged v.ctx.rvalueSubs outs x := fun x => by
    simp only [SigSpec.mem_sortAndUnify, List.mem_flatten, recorded.updates, List.map_map,
      List.mem_map, Function.comp_apply, update, Merged]
    constructor
    · rintro ⟨_, ⟨o, mem, rfl⟩, inside⟩
      exact ⟨o, mem, mem_updateOf.mp inside⟩
    · rintro ⟨o, mem, updated⟩
      exact ⟨_, ⟨o, mem, rfl⟩, mem_updateOf.mpr updated⟩
  have distinct := SigSpec.nodup_sortAndUnify (b.branchUpdates.map Prod.fst).flatten
  generalize merged : SigSpec.sortAndUnify (b.branchUpdates.map Prod.fst).flatten = U at memU distinct
  obtain ⟨subs, mod', loop, alloc⟩ := finish_loop (SigSpec.chunks U)
    (by rwa [SigSpec.flatten_chunks]) [] v.ctx.rvalueSubs mod
  obtain ⟨subs', mod'', alloc', grows, outside, inside, injective⟩ :=
    StraightLine.allocate_loop (SigSpec.chunks U) v.ctx.rvalueSubs mod
  rw [alloc, Except.ok.injEq, Prod.mk.injEq] at alloc'
  obtain ⟨rfl, rfl⟩ := alloc'
  simp only [SigSpec.flatten_chunks] at outside inside injective
  have fresh : ∀ x ∈ U, ∃ k j, subs.get? x = some (.wire (.fresh k) j) ∧ mod.nextId ≤ k :=
    fun x mem => by
      obtain ⟨k, j, entry, low, -⟩ := inside x mem
      exact ⟨k, j, entry, low⟩
  have updates : ∀ o ∈ outs, ∀ x ∈ SwitchBuilder.updateOf v.ctx.rvalueSubs o.2.ctx.rvalueSubs, x ∈ U :=
    fun o mem x within => (memU x).mpr ⟨o, mem, mem_updateOf.mp within⟩
  refine ⟨.mk b.signal (outs.map fun o => (extrasOf subs v.ctx.rvalueSubs o).foldl
    CaseRule.pushAction o.2.closed), defaultsOf subs v.ctx.rvalueSubs U, subs, mod', ?run, rfl,
    ⟨?cases, writes_of_chunks memU fresh (fun _ => id) _, fun x merged => inside x ((memU x).mpr merged),
      fun x x' merged merged' => injective x ((memU x).mpr merged) x' ((memU x').mpr merged'),
      fun x unmerged => outside x fun mem => unmerged ((memU x).mp mem),
      fun σ m x merged => merged_value memU fresh injective saved recorded.made recorded.kept σ m
        ((memU x).mpr merged)⟩, grows.nextId_le⟩
  case run =>
    unfold SwitchBuilder.finish
    rw [merged]
    refine (BuildM.bind_of_ok loop).trans ?_
    simp only [recorded.cases, recorded.updates, List.zip_map', List.map_map, Function.comp_def,
      branchActions_update, List.nil_append, BuildM.pure_apply, defaultsOf, extrasOf]
  case cases =>
    exact List.forall₂_map_left_iff.mpr (List.forall₂_same.mpr fun o mem =>
      ⟨_, rfl, writes_of_chunks memU fresh (updates o mem) _⟩)

namespace Merges

variable {S S' : Dict} {outs : List (Visitor × Visitor)} {save : CaseRule} {sw : SwitchRule}
  {defaults : List SigSig} {n n' : Nat}

theorem kept (merges : Merges S outs save sw defaults S' n n') : Kept S S' := fun b entry => by
  by_cases merged : Merged S outs b
  · obtain ⟨k, j, fresh, -⟩ := merges.fresh b merged
    simp [fresh]
  · rwa [merges.unchanged b merged]

theorem written_made (merges : Merges S outs save sw defaults S' n n') {bit : SigBit}
    (written : ∃ b, Merged S outs b ∧ S'.get? b = some bit) : bit.madeBefore n' := by
  obtain ⟨b, merged, entry⟩ := written
  obtain ⟨k, j, fresh, -, high⟩ := merges.fresh b merged
  rw [entry, Option.some.injEq] at fresh
  simpa [fresh, SigBit.madeBefore] using high

/-- The parent case, with the switch and the default actions, writes only wires made before `n'`
when the case it was saved from and the branches' case trees do. -/
theorem made (merges : Merges S outs save sw defaults S' n n')
    (saved : ∀ bit ∈ save.lhsBits, bit.madeBefore n')
    (branches : ∀ o ∈ outs, ∀ bit ∈ o.2.closed.lhsBits, bit.madeBefore n') :
    ∀ bit ∈ (defaults.foldl CaseRule.pushAction (save.pushSwitch sw)).lhsBits, bit.madeBefore n' := by
  obtain ⟨signal, cases⟩ := sw
  intro bit mem
  rcases CaseRule.mem_lhsBits_pushActions.mp mem with inSwitch | ⟨a, mem, inside⟩
  · rcases CaseRule.mem_lhsBits_pushSwitch.mp inSwitch with old | inCases
    · exact saved bit old
    obtain ⟨rule, mem, inside⟩ := CaseRule.mem_lhsBitsAll.mp inCases
    obtain ⟨o, out, acts, rfl, writes⟩ := exists_of_forall₂ merges.cases mem
    rcases CaseRule.mem_lhsBits_pushActions.mp inside with closed | ⟨a, mem, inside⟩
    · exact branches o out bit closed
    · exact merges.written_made (writes a mem bit inside)
  · exact merges.written_made (merges.writes a mem bit inside)

end Merges

/-! ## `handle(ConditionalStatement)` and `handle(CaseStatement)` -/

theorem require_run {c : Bool} {s : String} {mod mod' : Module} {u : Unit}
    (ran : (require c s : BuildM Unit) mod = .ok (u, mod')) : c = true ∧ mod' = mod := by
  cases c
  · cases ran
  · exact ⟨rfl, (Prod.mk.inj (Except.ok.inj ran)).2.symm⟩

/-- The branches of a conditional or case statement, in the order `SwitchBuilder` records them. -/
def branchBodies : Stmt → List Stmt
  | .conditional _ ifTrue ifFalse => ifTrue :: ifFalse.toList
  | .case _ _ _ items defaultCase => items.map Prod.snd ++ defaultCase.toList
  | _ => []

/-- The statements `ProceduralVisitor` lowers through a `SwitchBuilder`. -/
def opensSwitch : Stmt → Bool
  | .conditional .. | .case .. => true
  | _ => false

/-- Lowering a statement whose branches are `bodies` through a `SwitchBuilder` took the visitor
`v` to `v'`, in modules numbering `n` and then `n'` wires: each body ran from a visitor with the
substitutions of `v`, so that they were restored after each branch; the case of `v` got the switch
and the default actions and became the innermost frame; and the result merges the branches as
`Merges` says, with fresh wires made after every wire the branches' case trees write. -/
def Switched (fuel : Nat) (bodies : List Stmt) (v v' : Visitor) (n n' : Nat) : Prop :=
  ∃ (outs : List (Visitor × Visitor)) (sw : SwitchRule) (defaults : List SigSig) (mid : Nat),
    List.Forall₂ (fun body o => o.1.ctx.rvalueSubs = v.ctx.rvalueSubs ∧
      ∃ mod mod', visitStmt subroutines fuel body o.1 mod = .ok (o.2, mod')) bodies outs ∧
    v'.frames = defaults.foldl CaseRule.pushAction (v.current.pushSwitch sw) :: v.frames ∧
    n ≤ mid ∧ (∀ o ∈ outs, ∀ bit ∈ o.2.closed.lhsBits, bit.madeBefore mid) ∧
    Merges v.ctx.rvalueSubs outs v.current sw defaults v'.ctx.rvalueSubs mid n'

/-- A builder opened on the visitor `v`, after the branches whose bodies are `stmts`: it recorded
them, and the visitor `w` it gave back is at the case of `v` with the substitutions of `v`, sound
for a module numbering `n` wires. -/
def Branched (fuel : Nat) (v : Visitor) (stmts : List Stmt) (b : SwitchBuilder) (w : Visitor)
    (n : Nat) : Prop :=
  ∃ outs, Recorded v.ctx.rvalueSubs n b (stmts.map (visitStmt subroutines fuel)) outs ∧
    w.ctx.rvalueSubs = v.ctx.rvalueSubs ∧ w.current = v.current ∧ w.frames = v.frames ∧ Sound w n

section Branches

variable {subroutines} {fuel : Nat} {v w w' : Visitor} {stmts : List Stmt} {b b' : SwitchBuilder} {mod mod' : Module}

theorem branched_new {n : Nat} (sound : Sound v n) (signal : SigSpec) :
    Branched subroutines fuel v [] (SwitchBuilder.new v.ctx.rvalueSubs signal) v n :=
  ⟨[], recorded_new _ signal n, rfl, rfl, rfl, sound⟩

theorem Branched.mono {n n' : Nat} (branched : Branched subroutines fuel v stmts b w n) (le : n ≤ n') :
    Branched subroutines fuel v stmts b w n' :=
  let ⟨outs, recorded, restored, current, frames, sound⟩ := branched
  ⟨outs, recorded.mono le, restored, current, frames, sound.mono le⟩

theorem branched_branch {body : Stmt} {compare : List SigSpec}
    (preserves : Preserves (visitStmt subroutines fuel body))
    (branched : Branched subroutines fuel v stmts b w mod.nextId)
    (ran : b.branch compare (visitStmt subroutines fuel body) w mod = .ok ((b', w'), mod')) :
    Branched subroutines fuel v (stmts ++ [body]) b' w' mod'.nextId ∧ mod.nextId ≤ mod'.nextId := by
  obtain ⟨outs, recorded, restored, current, frames, sound⟩ := branched
  obtain ⟨after, recorded', restored', current', frames', sound', grows⟩ :=
    branch_spec preserves recorded restored sound ran
  exact ⟨⟨_, by rw [List.map_append]; exact recorded', restored', current'.trans current,
    frames'.trans frames, sound'⟩, grows⟩

/-- The loop over the items of a case statement, for any step that records one branch. -/
theorem branched_foldlM {α : Type} (body : α → Stmt)
    {step : SwitchBuilder × Visitor → α → LowerM (SwitchBuilder × Visitor)}
    (stepSpec : ∀ {stmts b b' w w' mod mod'} (a : α), Branched subroutines fuel v stmts b w mod.nextId →
      step (b, w) a mod = .ok ((b', w'), mod') →
      Branched subroutines fuel v (stmts ++ [body a]) b' w' mod'.nextId ∧ mod.nextId ≤ mod'.nextId)
    (items : List α) :
    ∀ {stmts b b' w w' mod mod'}, Branched subroutines fuel v stmts b w mod.nextId →
      items.foldlM step (b, w) mod = .ok ((b', w'), mod') →
      Branched subroutines fuel v (stmts ++ items.map body) b' w' mod'.nextId ∧
        mod.nextId ≤ mod'.nextId := by
  induction items with
  | nil =>
    intro stmts b b' w w' mod mod' branched ran
    cases ran
    exact ⟨by simpa using branched, le_rfl⟩
  | cons a items ih =>
    intro stmts b b' w w' mod mod' branched ran
    rw [List.foldlM_cons] at ran
    obtain ⟨⟨b1, w1⟩, mod1, first, rest⟩ := BuildM.ok_of_bind_ok ran
    obtain ⟨branched1, le1⟩ := stepSpec a branched first
    obtain ⟨branched2, le2⟩ := ih branched1 rest
    exact ⟨by simpa using branched2, le1.trans le2⟩

/-- The end of both handlers: `finish`, then `descend` into a new case under the parent. -/
theorem finish_descend {sw : SwitchRule} {defaults : List SigSig} {n : Nat}
    (branched : Branched subroutines fuel v stmts b w mod.nextId) (le : n ≤ mod.nextId)
    (finished : b.finish w mod = .ok ((sw, defaults, w'), mod')) :
    Switched subroutines fuel stmts v (w'.descend v.current sw defaults) n mod'.nextId ∧
      Sound (w'.descend v.current sw defaults) mod'.nextId ∧
      Kept v.ctx.rvalueSubs w'.ctx.rvalueSubs ∧ n ≤ mod'.nextId := by
  obtain ⟨outs, recorded, restored, current, frames, sound⟩ := branched
  have saved : ∀ bit ∈ v.current.lhsBits, bit.madeBefore mod.nextId := current ▸ sound.current
  obtain ⟨sw', defaults', subs, mod'', run, -, merges, grows⟩ := finish_spec recorded restored saved
  rw [finished, Except.ok.injEq, Prod.mk.injEq, Prod.mk.injEq, Prod.mk.injEq] at run
  obtain ⟨⟨rfl, rfl, rfl⟩, rfl⟩ := run
  have made := merges.made (fun bit mem => SigBit.madeBefore_mono grows (saved bit mem))
    fun o mem bit inside => SigBit.madeBefore_mono grows (recorded.made o mem bit inside)
  refine ⟨⟨outs, sw, defaults, mod.nextId, List.forall₂_map_left_iff.mp recorded.runs,
    by rw [Visitor.descend, frames], le, recorded.made, merges⟩, ⟨?_, ?_, ?_⟩, merges.kept,
    le.trans grows⟩
  · simp [Visitor.descend, CaseRule.lhsBits, SwitchRule.lhsBitsAll]
  · simp only [Visitor.descend, List.mem_cons]
    rintro f (rfl | old) bit inside
    · exact made bit inside
    · exact SigBit.madeBefore_mono grows (sound.frames f old bit inside)
  · exact fun b t entry => SigBit.madeBefore_mono grows (sound.staging b t entry)

/-- The end of both handlers: the optional last branch (the `else` of a conditional, the `default`
of a case statement), `finish`, then `descend`. -/
theorem optional_finish (below : ∀ s, Preserves (visitStmt subroutines fuel s)) {last : Option Stmt}
    {n : Nat} (branched : Branched subroutines fuel v stmts b w mod.nextId) (le : n ≤ mod.nextId)
    (ran : (match last with
      | some body => do
        let y ← b.branch [] (visitStmt subroutines fuel body) w
        let d ← y.1.finish y.2
        pure (d.2.2.descend v.current d.1 d.2.1)
      | none => do
        let y ← pure (b, w)
        let d ← y.1.finish y.2
        pure (d.2.2.descend v.current d.1 d.2.1) : LowerM Visitor) mod = .ok (w', mod')) :
    Switched subroutines fuel (stmts ++ last.toList) v w' n mod'.nextId ∧ Sound w' mod'.nextId ∧
      Kept v.ctx.rvalueSubs w'.ctx.rvalueSubs ∧ n ≤ mod'.nextId := by
  cases last with
  | none =>
    obtain ⟨_, mod1, unchanged, ran⟩ := BuildM.ok_of_bind_ok ran
    cases unchanged
    obtain ⟨⟨sw, defaults, w''⟩, mod2, finished, ran⟩ := BuildM.ok_of_bind_ok ran
    cases ran
    rw [Option.toList_none, List.append_nil]
    exact finish_descend branched le finished
  | some body =>
    obtain ⟨⟨b', w''⟩, mod1, second, ran⟩ := BuildM.ok_of_bind_ok ran
    obtain ⟨⟨sw, defaults, w'''⟩, mod2, finished, ran⟩ := BuildM.ok_of_bind_ok ran
    cases ran
    obtain ⟨branched', le'⟩ := branched_branch (below body) branched second
    exact finish_descend branched' (le.trans le') finished

end Branches

/-- Both handlers, with the lowering of the branches' bodies preserving soundness. -/
theorem switch_spec {fuel : Nat} (below : ∀ s, Preserves (visitStmt subroutines fuel s)) {stmt : Stmt}
    (opens : opensSwitch stmt) {v v' : Visitor} {mod mod' : Module}
    (ran : visitStmt subroutines (fuel + 1) stmt v mod = .ok (v', mod')) (sound : Sound v mod.nextId) :
    Switched subroutines fuel (branchBodies stmt) v v' mod.nextId mod'.nextId ∧ Sound v' mod'.nextId ∧
      Kept v.ctx.rvalueSubs v'.ctx.rvalueSubs ∧ mod.nextId ≤ mod'.nextId := by
  have keeps := keepsAll subroutines fuel
  cases stmt
  case conditional conditions ifTrue ifFalse =>
    simp only [visitStmt] at ran
    obtain ⟨_, mod1, checked, ran⟩ := BuildM.ok_of_bind_ok ran
    rcases head : conditions.head? with _ | ⟨condition, hasPattern⟩ <;> rw [head] at ran
    · exact absurd ran unimplemented_ne
    · obtain ⟨_, mod2, checkedPattern, ran⟩ := BuildM.ok_of_bind_ok ran
      obtain ⟨condition, mod3, lowered, ran⟩ := BuildM.ok_of_bind_ok ran
      obtain ⟨signal, mod4, reduced, ran⟩ := BuildM.ok_of_bind_ok ran
      obtain ⟨⟨b1, w1⟩, mod5, first, rest⟩ := BuildM.ok_of_bind_ok ran
      obtain ⟨-, same⟩ := require_run checked
      obtain ⟨-, samePattern⟩ := require_run checkedPattern
      subst same samePattern
      have grows := ((keeps.rhs _ _).grows lowered).trans (BuildM.Keeps.emit.grows reduced)
      obtain ⟨branched, le⟩ := branched_branch (below ifTrue)
        ((branched_new sound signal).mono grows.nextId_le) first
      exact optional_finish below branched (grows.nextId_le.trans le) rest
  case case condition check dispatchExpr items defaultCase =>
    simp only [visitStmt] at ran
    obtain ⟨_, mod1, checked, ran⟩ := BuildM.ok_of_bind_ok ran
    obtain ⟨dispatch, mod2, lowered, ran⟩ := BuildM.ok_of_bind_ok ran
    obtain ⟨⟨b1, w1⟩, mod3, looped, rest⟩ := BuildM.ok_of_bind_ok ran
    obtain ⟨-, same⟩ := require_run checked
    subst same
    have grows := (keeps.rhs _ _).grows lowered
    obtain ⟨branched, le⟩ := branched_foldlM Prod.snd (fun item branched ran => by
        obtain ⟨exprs, body⟩ := item
        obtain ⟨compares, mod1, compared, ran⟩ := BuildM.ok_of_bind_ok ran
        obtain ⟨_, mod2, checked, branchRun⟩ := BuildM.ok_of_bind_ok ran
        obtain ⟨-, same⟩ := require_run checked
        subst same
        have grows := (BuildM.Keeps.mapM fun e => (keeps.rhs e _).bind fun _ =>
          (BuildM.Keeps.logAssert _ _).bind fun _ => .pure _).grows compared
        obtain ⟨branched', le⟩ := branched_branch (below body) (branched.mono grows.nextId_le) branchRun
        exact ⟨branched', grows.nextId_le.trans le⟩)
      items ((branched_new sound dispatch).mono grows.nextId_le) looped
    exact optional_finish below branched (grows.nextId_le.trans le) rest
  all_goals cases opens

/-- Lowering any statement, with any fuel, keeps a visitor sound. -/
theorem visitStmt_sound : ∀ fuel s, Preserves (visitStmt subroutines fuel s)
  | 0, _ => fun ran _ => by cases ran
  | fuel + 1, s => by
    have below := visitStmt_sound fuel
    intro ran sound
    cases s with
    | expression expr => exact handleExpression_sound subroutines fuel expr ran sound
    | block kind body =>
      simp only [visitStmt] at ran
      obtain ⟨_, mod1, checked, bodyRun⟩ := BuildM.ok_of_bind_ok ran
      obtain ⟨-, rfl⟩ := require_run checked
      exact below body bodyRun sound
    | list stmts => exact Preserves.foldlM (fun s _ => below s) ran sound
    | conditional conditions ifTrue ifFalse => exact (switch_spec subroutines below (by rfl) ran sound).2
    | case condition check dispatchExpr items defaultCase =>
      exact (switch_spec subroutines below (by rfl) ran sound).2
    | empty | variableDecl =>
      cases ran
      exact ⟨sound, .refl _, le_rfl⟩
    | invalid => cases ran
    | other => exact absurd ran unimplemented_ne

/-- Lowering an `if` or `case` statement through `SwitchBuilder`, from a sound visitor: every
branch's body runs from the substitutions the statement was entered with, and the branches are
merged as `Switched` and `Merges` say. -/
theorem switch_merges_branches {fuel : Nat} {stmt : Stmt} (opens : opensSwitch stmt)
    {v v' : Visitor} {mod mod' : Module} (sound : Sound v mod.nextId)
    (ran : visitStmt subroutines (fuel + 1) stmt v mod = .ok (v', mod')) :
    Switched subroutines fuel (branchBodies stmt) v v' mod.nextId mod'.nextId :=
  (switch_spec subroutines (visitStmt_sound subroutines fuel) opens ran sound).1

/-! ## An `if` with one blocking assignment -/

def bitType : SvType := .scalar true false

def sel : Symbol := { id := 0, kind := .variable, type := bitType }
def src : Symbol := { id := 1, kind := .variable, type := bitType }
def dst : Symbol := { id := 2, kind := .variable, type := bitType }

def ref (symbol : Symbol) : Expr := .namedValue symbol.type none symbol

/-- `if (sel) dst = src;` -/
def ifWrite : Stmt :=
  .conditional [(ref sel, false)] (.expression (.assignment bitType none false (ref dst) (ref src))) none

def noSubroutines : Subroutines := fun _ => none

theorem ifWrite_switched :
    ∃ v' mod', visitStmt noSubroutines 6 ifWrite { mode := .always } {} = .ok (v', mod') ∧
      Switched noSubroutines 5 (branchBodies ifWrite) { mode := .always } v' 0 mod'.nextId :=
  ⟨_, _, rfl, @switch_merges_branches noSubroutines 5 ifWrite rfl { mode := .always } _ {} _
    (sound_start .always [] 0) rfl⟩

end SlangFrontend.Verified.Switch
