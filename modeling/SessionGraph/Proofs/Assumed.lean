import SessionGraph.Proofs.Ending
import SessionGraph.Proofs.Outcome

/-!
# What a walk assumes

From one round to the next the assumptions of a walk keep their relation to its stack, whatever the
graphs are and however the polls are answered (`Comparison.assumed_invariant`). A walk that gives
assumptions up assumes the pairs on its stack and no others, so nothing is left when it ends. One
that keeps them only ever adds to them, and as long as it holds, each pair that it has left follows
its rule with all that the rule asks for (`Walk.Fulfills`). A walk that has failed once does not
hold again, so it is enough to ask whether it holds now.
-/

namespace SessionGraph

/-- Two nodes are related at once only where the protocol is over on both sides. -/
theorem Node.demand_eq_settled_iff {l r : Node} :
    l.demand r = .settled true ↔ l = .done ∧ r = .done := by
  constructor
  · intro h
    unfold Node.demand at h
    split at h
    · exact ⟨rfl, rfl⟩
    · split at h <;> cases h
    · split at h <;> cases h
    · cases h
  · rintro ⟨rfl, rfl⟩
    rfl

/-- The protocol is over at both nodes of the pair. -/
def Comparison.Over (c : Comparison) (p : NodePair) : Prop :=
  c.left.node p.1 = .ok .done ∧ c.right.node p.2 = .ok .done

namespace Walk

variable {c : Comparison} {polls : Polls} {w w' : Walk} {p : NodePair}

/-- The pair follows its rule, and all that the rule asks for is assumed or is over. -/
structure Fulfills (c : Comparison) (w : Walk) (p : NodePair) (l r : Node)
    (pending : List NodePair) : Prop where
  left : c.left.node p.1 = .ok l
  right : c.right.node p.2 = .ok r
  demand : l.demand r = .expand pending true
  pending : ∀ q ∈ pending, q ∈ w.assumed ∨ c.Over q
  rule : l.Rule (fun a b => (a, b) ∈ w.assumed ∨ c.Over (a, b)) r

theorem grants_iff : w.Grants c p ↔ p ∈ w.assumed ∨ c.Over p := by
  refine or_congr_right ?_
  simp only [demandAt_eq_ok_iff, Node.demand_eq_settled_iff]
  constructor
  · rintro ⟨l, r, hl, hr, rfl, rfl⟩
    exact ⟨hl, hr⟩
  · rintro ⟨hl, hr⟩
    exact ⟨_, _, hl, hr, rfl, rfl⟩

/-- A pair that was left is fulfilled. -/
theorem Covered.fulfills (hw : w.Covered c (w.Grants c)) (hp : p ∈ w.assumed)
    (hs : p ∉ w.stack.map OpenPair.pair) : ∃ l r pending, w.Fulfills c p l r pending := by
  obtain ⟨pending, hd, hpending⟩ := hw.left p hp hs
  obtain ⟨l, r, hl, hr, hd⟩ := demandAt_eq_ok_iff.mp hd
  simp only [grants_iff] at hpending
  have hmet : (l.demand r).MetBy fun q => q ∈ w.assumed ∨ c.Over q := by
    rw [hd]
    exact ⟨rfl, hpending⟩
  exact ⟨l, r, pending, hl, hr, hd, hpending, Node.rule_of_metBy_demand hmet⟩

theorem advance_of_nil (hs : w.stack = []) : w.advance c polls = .ok w := by
  obtain ⟨stack, assumed, steps, holds⟩ := w
  cases hs
  rfl

theorem mem_assumed_advance (hc : c.strategy = .retaining) (h : w.advance c polls = .ok w')
    (hp : p ∈ w.assumed) : p ∈ w'.assumed := by
  by_cases hs : w.stack = []
  · rw [advance_of_nil hs, Except.ok.injEq] at h
    exact h ▸ hp
  rcases advance_cases hs h with ⟨_, _, _, _, _, -, -, hinspect⟩ | ⟨top, rest, -, -, rfl⟩
  · exact mem_assumed_inspect hinspect hp
  · rw [hc]
    exact hp

end Walk

namespace Comparison

variable {c : Comparison} {polls : Polls} {start p : NodePair} {m n : Nat} {v w : Walk}

/-- The state of the walk from `start` after `n` rounds. -/
def after (c : Comparison) (polls : Polls) (start : NodePair) (n : Nat) : Except Fault Walk :=
  (Walk.round c polls)^[n] (Walk.idle.inspect c (polls 1) start)

theorem after_succ_eq_ok_iff : c.after polls start (n + 1) = .ok w ↔
    ∃ v, c.after polls start n = .ok v ∧ v.advance c polls = .ok w := by
  rw [after, Function.iterate_succ_apply', Walk.round, bind_eq_ok_iff]
  rfl

theorem reaches_of_after (h : c.after polls start n = .ok w) : c.Reaches polls start w := by
  induction n generalizing w with
  | zero => exact .first h
  | succ n ih =>
    obtain ⟨v, hv, hadvance⟩ := after_succ_eq_ok_iff.mp h
    -- a walk that is over stays in its last state
    by_cases hs : v.stack = []
    · rw [Walk.advance_of_nil hs, Except.ok.injEq] at hadvance
      exact hadvance ▸ ih hv
    · exact (ih hv).round hs hadvance

theorem mem_assumed_after (hc : c.strategy = .retaining) (hle : m ≤ n)
    (hv : c.after polls start m = .ok v) (hw : c.after polls start n = .ok w)
    (hp : p ∈ v.assumed) : p ∈ w.assumed := by
  induction hle generalizing w with
  | refl =>
    rw [hv, Except.ok.injEq] at hw
    exact hw ▸ hp
  | step _ ih =>
    obtain ⟨u, hu, hadvance⟩ := after_succ_eq_ok_iff.mp hw
    exact Walk.mem_assumed_advance hc hadvance (ih hu)

/-- After any number of rounds, the pairs on the stack are distinct. A discharging walk assumes
these pairs and no others, so that it assumes nothing when it ends, be it with success or not. A
retaining walk assumes them too and all that it has assumed before, and while it holds, every other
pair that it assumes follows its rule, and what the rule asks for is assumed or over. -/
theorem assumed_invariant (c : Comparison) (polls : Polls) (start : NodePair) :
    (∀ n w, c.after polls start n = .ok w →
      (w.stack.map OpenPair.pair).Nodup ∧
      (c.strategy = .discharging → ∀ p, p ∈ w.assumed ↔ p ∈ w.stack.map OpenPair.pair) ∧
      (c.strategy = .retaining →
        (∀ p ∈ w.stack.map OpenPair.pair, p ∈ w.assumed) ∧
        (∀ m ≤ n, ∀ v, c.after polls start m = .ok v → ∀ p ∈ v.assumed, p ∈ w.assumed) ∧
        (w.holds = true → ∀ p ∈ w.assumed, p ∉ w.stack.map OpenPair.pair →
          ∃ l r pending, w.Fulfills c p l r pending))) ∧
    ∀ w, c.walk polls start = .ok w → c.strategy = .discharging → ∀ p, p ∉ w.assumed := by
  refine ⟨fun n w h => ?_, fun w h hc p => ?_⟩
  · have hreach := reaches_of_after h
    refine ⟨hreach.consistent.nodup, fun hc p => hreach.mem_assumed_iff hc,
      fun hc => ⟨hreach.consistent.assumed, ?_, ?_⟩⟩
    · exact fun m hle v hv p hp => mem_assumed_after hc hle hv h hp
    · exact fun hholds p hp hs => (hreach.covered hc hholds).1.fulfills hp hs
  · obtain ⟨hreach, hs⟩ := reaches_of_walk h
    rw [hreach.mem_assumed_iff hc, hs]
    exact List.not_mem_nil

/-- After four rounds over a loop that may be left, both walks have left a pair that asks for the
pair below it on the stack and for one that is over. Only one of them still assumes it. -/
theorem assumed_invariant_loop :
    let loop : Graph :=
      ⟨#[.choice .output 0 [(0, 1), (1, 1)], .choice .input 1 [(0, 0), (1, 2)], .done], some 0⟩
    (∃ w, (discharging loop loop).after .never (0, 0) 4 = .ok w ∧
      w.stack = [⟨(0, 0), [(1, 1)], true⟩] ∧
      ∀ p, p ∈ w.assumed ↔ p ∈ w.stack.map OpenPair.pair) ∧
    (∃ w, (retaining loop loop).after .never (0, 0) 4 = .ok w ∧
      w.stack = [⟨(0, 0), [(1, 1)], true⟩] ∧ w.holds = true ∧ (1, 1) ∈ w.assumed ∧
      ∃ l r pending, w.Fulfills (retaining loop loop) (1, 1) l r pending) ∧
    ∃ w, (discharging loop loop).walk .never (0, 0) = .ok w ∧ ∀ p, p ∉ w.assumed := by
  intro loop
  refine ⟨?_, ?_, ?_⟩
  · have heval : ((discharging loop loop).after .never (0, 0) 4).toOption.map Walk.stack =
        some [⟨(0, 0), [(1, 1)], true⟩] := by decide +kernel
    obtain ⟨w, hw, hstack⟩ := Option.map_eq_some_iff.mp heval
    have hw := eq_ok_of_toOption hw
    obtain ⟨-, hexact, -⟩ := (assumed_invariant _ _ _).1 4 w hw
    exact ⟨w, hw, hstack, hexact rfl⟩
  · have heval : ((retaining loop loop).after .never (0, 0) 4).toOption.map
        (fun w => (w.stack, w.holds, decide ((1, 1) ∈ w.assumed))) =
        some ([⟨(0, 0), [(1, 1)], true⟩], true, true) := by decide +kernel
    obtain ⟨w, hw, hstate⟩ := Option.map_eq_some_iff.mp heval
    have hw := eq_ok_of_toOption hw
    simp only [Prod.mk.injEq, decide_eq_true_eq] at hstate
    obtain ⟨hstack, hholds, hmem⟩ := hstate
    obtain ⟨-, -, hkept⟩ := (assumed_invariant _ _ _).1 4 w hw
    exact ⟨w, hw, hstack, hholds, hmem, (hkept rfl).2.2 hholds (1, 1) hmem (by simp [hstack])⟩
  · have hloop : loop.InBounds := by decide
    have hS := explorable_reachable hloop.traversable hloop.traversable
    obtain ⟨w, hw⟩ : ∃ w, (discharging loop loop).walk .never (0, 0) = .ok w :=
      exists_walk hS ⟨.root rfl, .root rfl⟩
    exact ⟨w, hw, (assumed_invariant _ _ _).2 w hw rfl⟩

end Comparison

end SessionGraph
