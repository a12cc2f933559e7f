import SessionGraph.Proofs.Agreement

/-!
# Walks that are cut short

A flag that is set while a walk is under way is seen by the next poll. Up to there the walk goes
through the states of one that is not disturbed (`Comparison.Reaches.of_never`), and from there on
it only unwinds its stack: nothing holds any more, so no pair is looked at and no node is looked up.
A walk is thus either not affected at all or ends without success at the poll that found the flag
set (`Comparison.report_of_setFrom`).
-/

namespace SessionGraph

/-- The flag is found set by poll `m` and all later ones, and by none before. -/
structure Polls.SetFrom (polls : Polls) (m : Nat) : Prop where
  unset : ∀ n, 1 ≤ n → n < m → polls n = false
  set : ∀ n, m ≤ n → polls n = true

namespace Walk

variable {c : Comparison} {polls polls' : Polls} {w w' : Walk}

theorem advance_congr (h : polls (w.steps + 1) = polls' (w.steps + 1)) :
    w.advance c polls = w.advance c polls' := by
  unfold advance
  split
  · rfl
  · rw [h]
  · rfl

/-- A round without an upcoming pair leaves one. It does not poll, and looks up nothing. -/
theorem advance_of_upcoming_none (hs : w.stack ≠ []) (h : w.upcoming = none) :
    ∃ top rest, w.stack = top :: rest ∧ ∀ c polls, w.advance c polls =
      .ok ⟨rest, c.strategy.release w.assumed top.pair, w.steps, w.holds && top.complete⟩ := by
  obtain ⟨⟨pair, pending, complete⟩, rest, hstack⟩ := List.exists_cons_of_ne_nil hs
  have hleave : w.holds = false ∨ pending = [] := by
    rcases hholds : w.holds with _ | _
    · exact .inl rfl
    · cases pending with
      | nil => exact .inr rfl
      | cons next pending =>
        rw [upcoming_eq_some hstack hholds] at h
        cases h
  exact ⟨_, rest, hstack, fun c polls => advance_of_leave hstack hleave⟩

/-- A round that finds the flag set takes the upcoming pair as failed and looks up nothing. -/
theorem advance_of_set {next : NodePair} (h : w.upcoming = some next)
    (hset : polls (w.steps + 1) = true) :
    ∃ stack, ∀ c : Comparison, w.advance c polls = .ok ⟨stack, w.assumed, w.steps + 1, false⟩ := by
  obtain ⟨pair, pending, complete, rest, hstack, hholds⟩ := stack_of_upcoming h
  refine ⟨⟨pair, pending, complete⟩ :: rest, fun c => ?_⟩
  rw [advance_of_pending hstack hholds, hset, inspect_cancelled]

/-- A round counts the pair that it looks at. -/
theorem steps_of_advance (hs : w.stack ≠ []) (h : w.advance c polls = .ok w') :
    (w.upcoming = none ∧ w'.steps = w.steps) ∨
    ∃ next, w.upcoming = some next ∧ w'.steps = w.steps + 1 := by
  rcases hnext : w.upcoming with _ | next
  · obtain ⟨top, rest, -, hleave⟩ := advance_of_upcoming_none hs hnext
    rw [hleave] at h
    cases h
    exact .inl ⟨rfl, rfl⟩
  · obtain ⟨pair, pending, complete, rest, hstack, hholds⟩ := stack_of_upcoming hnext
    rw [advance_of_pending hstack hholds] at h
    have hsteps := steps_of_inspect h
    exact .inr ⟨next, rfl, hsteps⟩

end Walk

namespace Comparison

variable {c : Comparison} {polls : Polls} {start : NodePair} {w : Walk} {m looks : Nat}
  {outcome : Except Fault Bool}

/-- The walk from `start` ends with `outcome` when it has looked at `looks` pairs. The pair at which
it stops without an answer is one of them. -/
inductive EndsAt (c : Comparison) (polls : Polls) (start : NodePair) :
    (looks : Nat) → (outcome : Except Fault Bool) → Prop
  | answer {w : Walk} (h : c.Reaches polls start w) (hs : w.stack = []) :
      c.EndsAt polls start w.steps (.ok w.holds)
  | first {fault : Fault} (h : Walk.idle.inspect c (polls 1) start = .error fault) :
      c.EndsAt polls start 1 (.error fault)
  | round {w : Walk} {fault : Fault} (h : c.Reaches polls start w) (hs : w.stack ≠ [])
      (hadvance : w.advance c polls = .error fault) :
      c.EndsAt polls start (w.steps + 1) (.error fault)

/-- The walk from `start` gets to look at its `m`-th pair. -/
inductive GetsTo (c : Comparison) (polls : Polls) (start : NodePair) : (m : Nat) → Prop
  | first : c.GetsTo polls start 1
  | round {w : Walk} {next : NodePair} (h : c.Reaches polls start w)
      (hnext : w.upcoming = some next) : c.GetsTo polls start (w.steps + 1)

/-- From the `m`-th look on, the walk goes on in the same way whatever graphs it is given, be it
graphs without nodes: it looks up none. -/
def Blind (c : Comparison) (polls : Polls) (start : NodePair) (m : Nat) : Prop :=
  (m ≤ 1 → ∃ w, ∀ left right,
    Walk.idle.inspect ⟨c.strategy, left, right⟩ (polls 1) start = .ok w) ∧
  ∀ w, c.Reaches polls start w → m ≤ w.steps + 1 →
    ∃ w', ∀ left right, w.advance ⟨c.strategy, left, right⟩ polls = .ok w'

theorem exists_endsAt (c : Comparison) (polls : Polls) (start : NodePair) :
    ∃ looks outcome, c.EndsAt polls start looks outcome := by
  rcases h : c.walk polls start with fault | w
  · rcases fault_of_walk h with hfirst | ⟨w, hw, hs, hadvance⟩
    · exact ⟨1, _, .first hfirst⟩
    · exact ⟨w.steps + 1, _, .round hw hs hadvance⟩
  · obtain ⟨hw, hs⟩ := reaches_of_walk h
    exact ⟨w.steps, _, .answer hw hs⟩

theorem EndsAt.report (h : c.EndsAt polls start looks outcome) (hroots : c.roots = some start) :
    c.report polls = outcome.map (⟨·, looks⟩) := by
  have hfault {fault : Fault} (hwalk : c.walk polls start = .error fault) :
      c.report polls = .error fault := by
    simp only [Comparison.report, hroots, hwalk]
    rfl
  cases h with
  | answer hw hs => exact report_of_walk hroots (by rw [hw.walk_eq, Walk.run_of_nil _ hs])
  | first h => exact hfault (walk_of_error h)
  | round hw hs hadvance => exact hfault (by rw [hw.walk_eq, Walk.run_of_error _ hs hadvance])

/-- Before a flag is set, a walk is where it would be with one that is never set. -/
theorem Reaches.of_never (hpolls : polls.SetFrom m) (h : c.Reaches .never start w)
    (hw : w.steps < m) : c.Reaches polls start w := by
  induction h with
  | first h =>
    rw [Walk.steps_of_inspect h] at hw
    refine .first ?_
    rw [hpolls.unset 1 (Nat.le_refl 1) hw]
    exact h
  | @round w w' _ hs hadvance ih =>
    rcases Walk.steps_of_advance hs hadvance with ⟨hnext, hsteps⟩ | ⟨next, hnext, hsteps⟩
    · refine (ih (hsteps ▸ hw)).round hs ?_
      obtain ⟨top, rest, -, hleave⟩ := Walk.advance_of_upcoming_none hs hnext
      rw [hleave] at hadvance ⊢
      exact hadvance
    · rw [hsteps] at hw
      refine (ih (Nat.lt_of_succ_lt hw)).round hs ?_
      rw [← hadvance]
      exact Walk.advance_congr (hpolls.unset _ (Nat.succ_pos _) hw)

/-- A walk looks at its pairs one by one. -/
theorem Reaches.getsTo (h : c.Reaches polls start w) (hm : 1 ≤ m) (hw : m ≤ w.steps) :
    c.GetsTo polls start m := by
  induction h with
  | first h =>
    rw [Walk.steps_of_inspect h] at hw
    obtain rfl : m = 1 := Nat.le_antisymm hw hm
    exact .first
  | @round w w' hreach hs hadvance ih =>
    rcases Walk.steps_of_advance hs hadvance with ⟨-, hsteps⟩ | ⟨next, hnext, hsteps⟩
    · exact ih (hsteps ▸ hw)
    · rw [hsteps] at hw
      rcases Nat.lt_or_eq_of_le hw with hlt | rfl
      · exact ih (Nat.le_of_lt_succ hlt)
      · exact .round hreach hnext

theorem EndsAt.getsTo (h : c.EndsAt polls start looks outcome) (hm : 1 ≤ m) (hle : m ≤ looks) :
    c.GetsTo polls start m := by
  cases h with
  | answer hw _ => exact hw.getsTo hm hle
  | first _ =>
    obtain rfl : m = 1 := by omega
    exact .first
  | @round w fault hw hs hadvance =>
    rcases Nat.lt_or_eq_of_le hle with hlt | rfl
    · exact hw.getsTo hm (Nat.le_of_lt_succ hlt)
    · rcases hnext : w.upcoming with _ | next
      · obtain ⟨top, rest, -, hleave⟩ := Walk.advance_of_upcoming_none hs hnext
        rw [hleave] at hadvance
        cases hadvance
      · exact .round hw hnext

/-- A walk that has failed unwinds its stack without looking at another pair. -/
theorem Reaches.endsAt_of_failed (h : c.Reaches polls start w) (hw : w.holds = false) :
    c.EndsAt polls start w.steps (.ok false) := by
  obtain ⟨stack, assumed, steps, holds⟩ := w
  obtain rfl : holds = false := hw
  induction stack generalizing assumed with
  | nil => exact .answer h rfl
  | cons top rest ih =>
    exact ih _ (h.round (List.cons_ne_nil _ _) (Walk.advance_of_leave rfl (.inl rfl)))

/-- A walk that gets to the look at which the flag is found set ends there. -/
theorem GetsTo.endsAt (hpolls : polls.SetFrom m) (h : c.GetsTo .never start m) :
    c.EndsAt polls start m (.ok false) := by
  cases h with
  | first =>
    have hfirst : Walk.idle.inspect c (polls 1) start = .ok ⟨[], .empty, 1, false⟩ := by
      rw [hpolls.set 1 (Nat.le_refl 1)]
      rfl
    exact Reaches.endsAt_of_failed (.first hfirst) rfl
  | @round w next hw hnext =>
    obtain ⟨stack, hadvance⟩ := Walk.advance_of_set hnext (hpolls.set _ (Nat.le_refl _))
    have hs : w.stack ≠ [] := by
      obtain ⟨_, _, _, _, hstack, -⟩ := Walk.stack_of_upcoming hnext
      rw [hstack]
      exact List.cons_ne_nil _ _
    have hcut := (hw.of_never hpolls (Nat.lt_succ_self _)).round hs (hadvance c)
    exact hcut.endsAt_of_failed rfl

theorem blind_of_setFrom (hpolls : polls.SetFrom m) : c.Blind polls start m := by
  refine ⟨fun hm => ?_, fun w _ hw => ?_⟩
  · rw [hpolls.set 1 hm]
    exact ⟨_, fun left right => Walk.inspect_cancelled _ _⟩
  by_cases hs : w.stack = []
  · obtain ⟨stack, assumed, steps, holds⟩ := w
    obtain rfl : stack = [] := hs
    exact ⟨_, fun left right => rfl⟩
  rcases hnext : w.upcoming with _ | next
  · obtain ⟨top, rest, -, hleave⟩ := Walk.advance_of_upcoming_none hs hnext
    exact ⟨⟨rest, c.strategy.release w.assumed top.pair, w.steps, w.holds && top.complete⟩,
      fun left right => hleave _ polls⟩
  · obtain ⟨stack, hadvance⟩ := Walk.advance_of_set hnext (hpolls.set _ hw)
    exact ⟨_, fun left right => hadvance _⟩

/-- A walk that ends before the flag is set is not affected. -/
theorem EndsAt.of_never (hpolls : polls.SetFrom m) (h : c.EndsAt .never start looks outcome)
    (hlooks : looks < m) : c.EndsAt polls start looks outcome := by
  cases h with
  | answer hw hs => exact .answer (hw.of_never hpolls hlooks) hs
  | first h =>
    refine .first ?_
    rw [hpolls.unset 1 (Nat.le_refl 1) hlooks]
    exact h
  | @round w fault hw hs hadvance =>
    refine .round (hw.of_never hpolls (Nat.lt_of_succ_lt hlooks)) hs ?_
    rw [← hadvance]
    exact Walk.advance_congr (hpolls.unset _ (Nat.succ_pos _) hlooks)

/-- When the flag is set before the `m`-th look, a comparison that ends before that look ends as
one whose flag is never set, with the same answer or the same fault. Any other answers `false` after
`m` looks and looks up no node from that look on. So two graphs that are found to be related are. -/
theorem report_of_setFrom (hroots : c.roots = some start) (hm : 1 ≤ m)
    (hpolls : polls.SetFrom m) :
    (∃ looks outcome, c.EndsAt .never start looks outcome) ∧
    (∀ looks outcome, c.EndsAt .never start looks outcome →
      c.report .never = outcome.map (⟨·, looks⟩) ∧
      (looks < m → c.EndsAt polls start looks outcome ∧
        c.report polls = outcome.map (⟨·, looks⟩)) ∧
      (m ≤ looks → c.report polls = .ok ⟨false, m⟩ ∧ c.Blind polls start m)) ∧
    ∀ steps, c.report polls = .ok ⟨true, steps⟩ → c.report .never = .ok ⟨true, steps⟩ := by
  refine ⟨c.exists_endsAt .never start, fun looks outcome hend => ⟨hend.report hroots,
    fun hlt => ?_, fun hle => ?_⟩, fun steps htrue => ?_⟩
  · have hend' := hend.of_never hpolls hlt
    exact ⟨hend', hend'.report hroots⟩
  · exact ⟨((hend.getsTo hm hle).endsAt hpolls).report hroots, blind_of_setFrom hpolls⟩
  · obtain ⟨looks, outcome, hend⟩ := c.exists_endsAt .never start
    rcases Nat.lt_or_ge looks m with hlt | hle
    · rw [hend.report hroots, ← (hend.of_never hpolls hlt).report hroots, htrue]
    · rw [((hend.getsTo hm hle).endsAt hpolls).report hroots] at htrue
      cases htrue

/-- The third look of this comparison is at a node that is not there. A flag that is set for that
look hides it, and one that is set for the next look does not. -/
theorem report_of_setFrom_dangling :
    let c : Comparison := ⟨.retaining, ⟨#[.choice .output 0 [(0, 0), (1, 7)]], some 0⟩,
      ⟨#[.choice .output 0 [(0, 0), (1, 0)]], some 0⟩⟩
    let polls : Nat → Polls := fun m n => decide (m ≤ n)
    c.roots = some (0, 0) ∧ (∀ m, (polls m).SetFrom m) ∧
    c.report .never = .error (.outOfBounds 1 7) ∧
    c.report (polls 4) = .error (.outOfBounds 1 7) ∧
    c.report (polls 3) = .ok ⟨false, 3⟩ ∧ c.Blind (polls 3) (0, 0) 3 := by
  intro c polls
  have hpolls (m : Nat) : (polls m).SetFrom m :=
    ⟨fun n _ hn => decide_eq_false (Nat.not_le_of_lt hn), fun n hn => decide_eq_true hn⟩
  let first : Walk := ⟨[⟨(0, 0), [(0, 0), (7, 0)], true⟩], Assumptions.empty.insert (0, 0), 1, true⟩
  let second : Walk := ⟨[⟨(0, 0), [(7, 0)], true⟩], Assumptions.empty.insert (0, 0), 2, true⟩
  have hfirst : c.Reaches .never (0, 0) first := .first rfl
  have hsecond : c.Reaches .never (0, 0) second := hfirst.round (List.cons_ne_nil _ _) rfl
  have hend : c.EndsAt .never (0, 0) 3 (.error (.outOfBounds 1 7)) :=
    .round hsecond (List.cons_ne_nil _ _) rfl
  obtain ⟨-, hlate, -⟩ := report_of_setFrom (c := c) rfl (by decide) (hpolls 4)
  obtain ⟨-, hearly, -⟩ := report_of_setFrom (c := c) rfl (by decide) (hpolls 3)
  obtain ⟨hnever, hkept, -⟩ := hlate 3 _ hend
  obtain ⟨-, -, hcut⟩ := hearly 3 _ hend
  exact ⟨rfl, hpolls, hnever, (hkept (by decide)).2, hcut (by decide)⟩

end Comparison

end SessionGraph
