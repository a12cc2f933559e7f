import SessionGraph.Proofs.Retaining

/-!
# The two strategies agree

A discharging walk assumes the pairs on its stack and no others, so it opens again what a retaining
walk has left for good. It cannot come to another answer there. While nothing was refuted, all that
a pair which was left asks for is granted, so whatever is looked at on its behalf a second time is
on the stack, is settled, or was left itself. The discharging walk thus follows the retaining one
with detours (`Walk.Retraces`): it is ahead of it by the pairs opened again, each of which asks only
for what the retaining walk grants, and outside of a detour both look at the same pairs.
-/

namespace SessionGraph

namespace Comparison

/-- The graphs compared by giving up assumptions. -/
abbrev discharging (left right : Graph) : Comparison := ⟨.discharging, left, right⟩

/-- The graphs compared by keeping assumptions. -/
abbrev retaining (left right : Graph) : Comparison := ⟨.retaining, left, right⟩

/-- A discharging walk assumes the pairs on its stack and no others. -/
theorem Reaches.mem_assumed_iff {c : Comparison} {polls : Polls} {start p : NodePair} {w : Walk}
    (hc : c.strategy = .discharging) (h : c.Reaches polls start w) :
    p ∈ w.assumed ↔ p ∈ w.stack.map OpenPair.pair := by
  refine ⟨?_, h.consistent.assumed p⟩
  induction h with
  | first h =>
    rcases Walk.stack_of_inspect h with ⟨-, ha⟩ | ⟨_, _, _, _, -, -, -, -, hs, ha⟩
    · rw [ha]
      exact fun hp => absurd hp (Assumptions.not_mem_empty p)
    · rw [hs, ha, Assumptions.mem_insert]
      rintro (rfl | hp)
      · exact List.mem_cons_self
      · exact absurd hp (Assumptions.not_mem_empty p)
  | round _ hs hadvance ih =>
    rcases Walk.advance_cases hs hadvance with
      ⟨_, _, _, _, _, -, hstack, hinspect⟩ | ⟨top, rest, -, hstack, rfl⟩
    · rw [hstack] at ih
      rcases Walk.stack_of_inspect hinspect with ⟨hs, ha⟩ | ⟨_, _, _, _, -, -, -, -, hs, ha⟩
      · rw [hs, ha]
        exact ih
      · rw [hs, ha, Assumptions.mem_insert]
        rintro (rfl | hp)
        · exact List.mem_cons_self
        · exact List.mem_cons_of_mem _ (ih hp)
    · rw [hstack] at ih
      rw [hc, Strategy.release, Assumptions.mem_erase]
      rintro ⟨hne, hp⟩
      exact (List.mem_cons.mp (ih hp)).resolve_left hne

end Comparison

namespace Walk

/-- The pair that the next round looks at. -/
def upcoming : Walk → Option NodePair
  | ⟨⟨_, next :: _, _⟩ :: _, _, _, true⟩ => some next
  | _ => none

theorem stack_of_upcoming {w : Walk} {next : NodePair} (h : w.upcoming = some next) :
    ∃ pair pending complete rest, w.stack = ⟨pair, next :: pending, complete⟩ :: rest ∧
      w.holds = true := by
  unfold upcoming at h
  split at h
  · cases h
    exact ⟨_, _, _, _, rfl, rfl⟩
  · cases h

theorem demandAt_of_inspect_error {c : Comparison} {w : Walk} {cancelled : Bool} {pair : NodePair}
    {fault : Fault} (h : w.inspect c cancelled pair = .error fault) :
    demandAt c.left c.right pair = .error fault := by
  cases cancelled with
  | true => cases h
  | false =>
    by_cases hmem : pair ∈ w.assumed
    · rw [inspect_of_mem hmem] at h
      cases h
    · rw [inspect_of_not_mem hmem] at h
      rcases hd : demandAt c.left c.right pair with fault' | d
      · rw [hd] at h
        cases h
        rfl
      · rw [hd] at h
        cases h

theorem upcoming_eq_some {w : Walk} {pair next : NodePair} {pending : List NodePair}
    {complete : Bool} {rest : List OpenPair}
    (hs : w.stack = ⟨pair, next :: pending, complete⟩ :: rest) (hw : w.holds = true) :
    w.upcoming = some next := by
  obtain ⟨stack, assumed, steps, holds⟩ := w
  simp only at hs hw
  subst hs hw
  rfl

end Walk

/-- The walk from `start` stops without an answer at a pair that has no nodes. -/
inductive Comparison.FaultsAt (c : Comparison) (polls : Polls) (start : NodePair) :
    NodePair → Fault → Prop
  | first {fault : Fault} (h : Walk.idle.inspect c (polls 1) start = .error fault) :
      c.FaultsAt polls start start fault
  | round {w : Walk} {pair : NodePair} {fault : Fault} (h : c.Reaches polls start w)
      (hpair : w.upcoming = some pair) (hadvance : w.advance c polls = .error fault) :
      c.FaultsAt polls start pair fault

namespace Walk

variable {left right : Graph} {start : NodePair} {again : List OpenPair} {top : OpenPair}
  {w v : Walk}

/-- The discharging walk `w` is at the place of the retaining walk `v`, on a detour through the
pairs of `again`. -/
structure Retraces (left right : Graph) (again : List OpenPair) (w v : Walk) : Prop where
  stack : w.stack = again ++ v.stack
  holds : w.holds = v.holds
  steps : v.steps ≤ w.steps
  unrefuted : again ≠ [] → v.holds = true
  granted : ∀ top ∈ again, top.complete = true ∧
    ∀ p ∈ top.pending, v.Grants (.retaining left right) p

theorem retraces_nil (hstack : w.stack = v.stack) (hholds : w.holds = v.holds)
    (hsteps : v.steps ≤ w.steps) : Retraces left right [] w v :=
  ⟨hstack, hholds, hsteps, fun h => absurd rfl h, fun _ h => absurd h List.not_mem_nil⟩

/-- Looking at a pair whose demands are granted is a detour. -/
theorem Retraces.enter {next : NodePair} {d : Demand} (hstack : w.stack = again ++ v.stack)
    (hsteps : v.steps ≤ w.steps + 1) (hv : v.holds = true)
    (hgranted : ∀ top ∈ again, top.complete = true ∧
      ∀ p ∈ top.pending, v.Grants (.retaining left right) p)
    (hd : d.MetBy (v.Grants (.retaining left right))) :
    ∃ again', Retraces left right again' (w.enter next d) v := by
  cases d with
  | settled related => exact ⟨again, hstack, hd.trans hv.symm, hsteps, fun _ => hv, hgranted⟩
  | expand pending complete =>
    refine ⟨⟨next, pending, complete⟩ :: again, ?_, hv.symm, hsteps, fun _ => hv, ?_⟩
    · rw [Walk.enter, hstack, List.cons_append]
    · exact List.forall_mem_cons.mpr ⟨hd, hgranted⟩

/-- A round of a detour does not fault and stays with the retaining walk, which does not move. -/
theorem Retraces.detour (hw : (Comparison.discharging left right).Reaches .never start w)
    (hv : (Comparison.retaining left right).Reaches .never start v)
    (h : Retraces left right (top :: again) w v) :
    ∃ w' again', w.advance (.discharging left right) .never = .ok w' ∧
      Retraces left right again' w' v := by
  obtain ⟨pair, pending, complete⟩ := top
  have hvholds : v.holds = true := h.unrefuted (List.cons_ne_nil _ _)
  have hholds : w.holds = true := h.holds.trans hvholds
  have hgranted := List.forall_mem_cons.mp h.granted
  cases pending with
  | nil =>
    refine ⟨_, again, advance_of_leave h.stack (.inr rfl), rfl, ?_, h.steps, fun _ => hvholds,
      hgranted.2⟩
    rw [hholds, hvholds, hgranted.1.1]
    rfl
  | cons next pending =>
    have hpending := List.forall_mem_cons.mp hgranted.1.2
    have hrest : ∀ top ∈ ⟨pair, pending, complete⟩ :: again, top.complete = true ∧
        ∀ p ∈ top.pending, v.Grants (.retaining left right) p :=
      List.forall_mem_cons.mpr ⟨⟨hgranted.1.1, hpending.2⟩, hgranted.2⟩
    have hsteps := Nat.le_succ_of_le h.steps
    by_cases hmem : next ∈ w.assumed
    · exact ⟨_, _, advance_of_mem h.stack hholds hmem, rfl, hvholds.symm, hsteps,
        fun _ => hvholds, hrest⟩
    · have hclosed : next ∉ v.stack.map OpenPair.pair := by
        intro hnext
        refine hmem ((hw.mem_assumed_iff rfl).mpr ?_)
        rw [h.stack, List.map_append]
        exact List.mem_append_right _ hnext
      obtain ⟨d, hd, hmet⟩ := (hv.covered rfl hvholds).1.metBy_grants hpending.1 hclosed
      obtain ⟨again', h'⟩ : ∃ again', Retraces left right again'
          (Walk.enter { w with stack := ⟨pair, pending, complete⟩ :: (again ++ v.stack) } next d)
          v :=
        Retraces.enter rfl hsteps hvholds hrest hmet
      exact ⟨_, again', advance_of_demand h.stack hholds hmem hd, h'⟩

/-- Off a detour, both walks look at the same pair or leave the same pair. -/
theorem Retraces.round (hw : (Comparison.discharging left right).Reaches .never start w)
    (hv : (Comparison.retaining left right).Reaches .never start v)
    (h : Retraces left right [] w v) (hs : v.stack ≠ []) :
    (∃ pair fault, w.upcoming = some pair ∧ v.upcoming = some pair ∧
      w.advance (.discharging left right) .never = .error fault ∧
      v.advance (.retaining left right) .never = .error fault) ∨
    ∃ w' v' again, w.advance (.discharging left right) .never = .ok w' ∧
      v.advance (.retaining left right) .never = .ok v' ∧ Retraces left right again w' v' := by
  obtain ⟨⟨pair, pending, complete⟩, rest, hvstack⟩ := List.exists_cons_of_ne_nil hs
  have hwstack : w.stack = ⟨pair, pending, complete⟩ :: rest := h.stack.trans hvstack
  by_cases hleave : v.holds = false ∨ pending = []
  · refine .inr ⟨_, _, [], advance_of_leave hwstack (h.holds ▸ hleave),
      advance_of_leave hvstack hleave, retraces_nil rfl ?_ h.steps⟩
    simp only [h.holds]
  rw [not_or, Bool.not_eq_false] at hleave
  obtain ⟨hvholds, hpending⟩ := hleave
  obtain ⟨next, pending, rfl⟩ := List.exists_cons_of_ne_nil hpending
  have hwholds : w.holds = true := h.holds.trans hvholds
  have hsteps := Nat.succ_le_succ h.steps
  by_cases hwmem : next ∈ w.assumed
  · have hstack := (hw.mem_assumed_iff rfl).mp hwmem
    rw [h.stack] at hstack
    have hvmem := hv.consistent.assumed next hstack
    exact .inr ⟨_, _, [], advance_of_mem hwstack hwholds hwmem,
      advance_of_mem hvstack hvholds hvmem, retraces_nil rfl rfl hsteps⟩
  by_cases hvmem : next ∈ v.assumed
  · -- the retaining walk has left the pair, and the discharging one opens it again
    have hclosed : next ∉ v.stack.map OpenPair.pair := by
      intro hnext
      exact hwmem ((hw.mem_assumed_iff rfl).mpr (by rw [h.stack]; exact hnext))
    obtain ⟨d, hd, hmet⟩ := (hv.covered rfl hvholds).1.metBy_grants (.inl hvmem) hclosed
    obtain ⟨again', h'⟩ : ∃ again', Retraces left right again'
        (Walk.enter { w with stack := ⟨pair, pending, complete⟩ :: rest } next d)
        ⟨⟨pair, pending, complete⟩ :: rest, v.assumed, v.steps + 1, true⟩ :=
      Retraces.enter rfl hsteps rfl (fun _ h => absurd h List.not_mem_nil) hmet
    exact .inr ⟨_, _, again', advance_of_demand hwstack hwholds hwmem hd,
      advance_of_mem hvstack hvholds hvmem, h'⟩
  rcases hd : demandAt left right next with fault | d
  · refine .inl ⟨next, fault, upcoming_eq_some hwstack hwholds,
      upcoming_eq_some hvstack hvholds, ?_⟩
    rw [advance_of_not_mem hwstack hwholds hwmem, advance_of_not_mem hvstack hvholds hvmem, hd]
    exact ⟨rfl, rfl⟩
  · refine .inr ⟨_, _, [], advance_of_demand hwstack hwholds hwmem hd,
      advance_of_demand hvstack hvholds hvmem hd, ?_⟩
    cases d with
    | settled related => exact retraces_nil rfl rfl hsteps
    | expand pending' complete' => exact retraces_nil rfl rfl hsteps

/-- Run to their ends, both walks hold or both do not, or both fault at the same pair. -/
theorem Retraces.run {w v : Walk} {again : List OpenPair}
    (hw : (Comparison.discharging left right).Reaches .never start w)
    (hv : (Comparison.retaining left right).Reaches .never start v)
    (h : Retraces left right again w v) :
    (∃ w' v', w.run (.discharging left right) .never hw.consistent = .ok w' ∧
      v.run (.retaining left right) .never hv.consistent = .ok v' ∧ w'.holds = v'.holds ∧
      v'.steps ≤ w'.steps) ∨
    ∃ pair fault, w.run (.discharging left right) .never hw.consistent = .error fault ∧
      v.run (.retaining left right) .never hv.consistent = .error fault ∧
      (Comparison.discharging left right).FaultsAt .never start pair fault ∧
      (Comparison.retaining left right).FaultsAt .never start pair fault := by
  cases again with
  | cons top again =>
    have hs : w.stack ≠ [] := by rw [h.stack]; exact List.cons_ne_nil _ _
    obtain ⟨w', again', hadvance, h'⟩ := h.detour hw hv
    have hlt := advance_lt hw.consistent hs hadvance
    rw [run_of_ok _ hs hadvance]
    exact h'.run (hw.round hs hadvance) hv
  | nil =>
    have hstack : w.stack = v.stack := h.stack
    by_cases hs : v.stack = []
    · exact .inl ⟨w, v, run_of_nil _ (hstack.trans hs), run_of_nil _ hs, h.holds, h.steps⟩
    · have hs' : w.stack ≠ [] := fun hnil => hs (hstack.symm.trans hnil)
      rcases h.round hw hv hs with
        ⟨pair, fault, hpair, hpair', hfault, hfault'⟩ | ⟨w', v', again, hadvance, hadvance', h'⟩
      · exact .inr ⟨pair, fault, run_of_error _ hs' hfault, run_of_error _ hs hfault',
          .round hw hpair hfault, .round hv hpair' hfault'⟩
      · have hlt := advance_lt hw.consistent hs' hadvance
        rw [run_of_ok _ hs' hadvance, run_of_ok _ hs hadvance']
        exact h'.run (hw.round hs' hadvance) (hv.round hs hadvance')
-- Only the discharging walk moves in every case.
termination_by w.backlog (.discharging left right)

end Walk

namespace Comparison

variable {left right : Graph} {start : NodePair}

theorem walks_agree (left right : Graph) (start : NodePair) :
    (∃ w v, (discharging left right).walk .never start = .ok w ∧
      (retaining left right).walk .never start = .ok v ∧ w.holds = v.holds ∧
      v.steps ≤ w.steps) ∨
    ∃ pair fault, (discharging left right).walk .never start = .error fault ∧
      (retaining left right).walk .never start = .error fault ∧
      (discharging left right).FaultsAt .never start pair fault ∧
      (retaining left right).FaultsAt .never start pair fault := by
  rcases hfirst : Walk.idle.inspect (discharging left right) false start with fault | w
  · exact .inr ⟨start, fault, walk_of_error hfirst, walk_of_error hfirst, .first hfirst,
      .first hfirst⟩
  · -- how a pair is looked at does not depend on the strategy
    have hfirst' : Walk.idle.inspect (retaining left right) (Polls.never 1) start = .ok w := hfirst
    rw [walk_of_ok hfirst, walk_of_ok hfirst']
    exact (Walk.retraces_nil rfl rfl (Nat.le_refl _)).run (.first hfirst) (.first hfirst')

theorem FaultsAt.demandAt_eq {c : Comparison} {polls : Polls} {pair : NodePair} {fault : Fault}
    (h : c.FaultsAt polls start pair fault) : demandAt c.left c.right pair = .error fault := by
  cases h with
  | first h => exact Walk.demandAt_of_inspect_error h
  | @round w _ _ hw hpair hadvance =>
    obtain ⟨pair', pending, complete, rest, hs, hholds⟩ := Walk.stack_of_upcoming hpair
    rw [Walk.advance_of_pending hs hholds] at hadvance
    exact Walk.demandAt_of_inspect_error hadvance

/-- Both strategies give the same answer, or both stop without one at the same pair and for the
same node that is not there. -/
theorem reports_agree (left right : Graph) :
    (∃ related steps steps',
      (discharging left right).report .never = .ok ⟨related, steps⟩ ∧
      (retaining left right).report .never = .ok ⟨related, steps'⟩) ∨
    ∃ a b pair fault, left.root = some a ∧ right.root = some b ∧
      (discharging left right).report .never = .error fault ∧
      (retaining left right).report .never = .error fault ∧
      (discharging left right).FaultsAt .never (a, b) pair fault ∧
      (retaining left right).FaultsAt .never (a, b) pair fault ∧
      ((left.size ≤ pair.1 ∧ fault = .outOfBounds left.size pair.1) ∨
        (pair.1 < left.size ∧ right.size ≤ pair.2 ∧
          fault = .outOfBounds right.size pair.2)) := by
  simp only [report, roots]
  rcases left.root with _ | a
  · exact .inl ⟨false, 0, 0, rfl, rfl⟩
  rcases right.root with _ | b
  · exact .inl ⟨false, 0, 0, rfl, rfl⟩
  simp only
  rcases walks_agree left right (a, b) with
    ⟨w, v, hw, hv, hholds, -⟩ | ⟨pair, fault, hw, hv, hfault, hfault'⟩
  · rw [hw, hv]
    exact .inl ⟨w.holds, w.steps, v.steps, rfl, by rw [hholds]; rfl⟩
  · rw [hw, hv]
    exact .inr ⟨a, b, pair, fault, rfl, rfl, rfl, rfl, hfault, hfault',
      demandAt_eq_error hfault.demandAt_eq⟩

theorem walk_holds_iff_similar {strategy : Strategy} {w : Walk}
    (hw : walk ⟨strategy, left, right⟩ .never start = .ok w) :
    w.holds = true ↔ Similar left right start := by
  refine ⟨fun hholds => ?_, fun hsim => (reaches_of_walk hw).1.holds_of_similar hsim⟩
  cases strategy with
  | retaining =>
    obtain ⟨hreach, hs⟩ := reaches_of_walk hw
    exact hreach.similar rfl hs hholds
  | discharging =>
    rcases walks_agree left right start with ⟨w', v, hw', hv, heq, -⟩ | ⟨_, _, hw', -⟩
    · rw [hw, Except.ok.injEq] at hw'
      obtain ⟨hreach, hs⟩ := reaches_of_walk hv
      exact hreach.similar rfl hs (by rw [← heq, ← hw', hholds])
    · rw [hw] at hw'
      cases hw'

/-- The comparison comes to the answer `related`. -/
def Answers (c : Comparison) (related : Bool) : Prop :=
  ∃ steps, c.report .never = .ok ⟨related, steps⟩

/-- Either strategy comes to an answer, which tells whether the roots are similar. -/
theorem answers_iff {strategy : Strategy} {a b : NodeId} (ha : left.root = some a)
    (hb : right.root = some b) (hl : left.Traversable) (hr : right.Traversable) {related : Bool} :
    Answers ⟨strategy, left, right⟩ related ↔ (related = true ↔ Similar left right (a, b)) := by
  have hstart : left.Reachable a ∧ right.Reachable b := ⟨.root ha, .root hb⟩
  obtain ⟨w, hw⟩ : ∃ w, walk ⟨strategy, left, right⟩ .never (a, b) = .ok w :=
    exists_walk (explorable_reachable hl hr) hstart
  have hreport := report_of_walk (roots_eq_some ha hb) hw
  have hsim := walk_holds_iff_similar hw
  constructor
  · rintro ⟨steps, h⟩
    rw [hreport] at h
    cases h
    exact hsim
  · intro h
    have hholds : w.holds = related := Bool.eq_iff_iff.mpr (hsim.trans h.symm)
    exact ⟨w.steps, by rw [hreport, hholds]⟩

end Comparison

end SessionGraph
