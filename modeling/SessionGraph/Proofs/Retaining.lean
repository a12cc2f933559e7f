import SessionGraph.Proofs.Rounds

/-!
# The retaining strategy decides similarity

A walk that retains its assumptions never revisits one, so an answer may rest on pairs that were
only assumed. It is right all the same: a refutation anywhere ends the walk, and as long as there is
none, everything demanded by a pair that was left is assumed or settled (`Walk.Covered`). When the
stack is empty the assumptions are then a simulation, so a walk that holds has found one
(`Comparison.Reaches.similar`), and a simulation that exists is never refuted.
-/

namespace SessionGraph

namespace Walk

variable {c : Comparison} {polls : Polls} {cancelled : Bool} {w w' : Walk} {pair p : NodePair}
  {G G' : NodePair → Prop}

/-- The walk takes the pair to be related. -/
def Grants (c : Comparison) (w : Walk) (p : NodePair) : Prop :=
  p ∈ w.assumed ∨ demandAt c.left c.right p = .ok (.settled true)

/-- What was asked for on behalf of the open pairs and the pairs that were left is in `G`. -/
structure Covered (c : Comparison) (G : NodePair → Prop) (w : Walk) : Prop where
  opened : ∀ top ∈ w.stack, ∃ done,
    demandAt c.left c.right top.pair = .ok (.expand (done ++ top.pending) top.complete) ∧
      ∀ p ∈ done, G p
  left : ∀ pair ∈ w.assumed, pair ∉ w.stack.map OpenPair.pair →
    ∃ pending, demandAt c.left c.right pair = .ok (.expand pending true) ∧ ∀ p ∈ pending, G p

theorem covered_idle : idle.Covered c G :=
  ⟨fun _ h => absurd h List.not_mem_nil, fun pair h => absurd h (Assumptions.not_mem_empty pair)⟩

theorem Covered.mono (h : w.Covered c G) (hG : ∀ p, G p → G' p) : w.Covered c G' := by
  refine ⟨fun top htop => ?_, fun pair hpair hstack => ?_⟩
  · obtain ⟨done, hd, hdone⟩ := h.opened top htop
    exact ⟨done, hd, fun p hp => hG p (hdone p hp)⟩
  · obtain ⟨pending, hd, hpending⟩ := h.left pair hpair hstack
    exact ⟨pending, hd, fun p hp => hG p (hpending p hp)⟩

theorem Covered.inspect (hw : w.Covered c G) (h : w.inspect c cancelled pair = .ok w') :
    w'.Covered c G := by
  rcases stack_of_inspect h with ⟨hs, ha⟩ | ⟨l, r, pending, complete, -, hl, hr, hd, hs, ha⟩
  · exact ⟨hs ▸ hw.opened, by rw [hs, ha]; exact hw.left⟩
  · refine ⟨?_, fun p hp hstack => ?_⟩
    · rw [hs, List.forall_mem_cons]
      exact ⟨⟨[], demandAt_eq_ok_iff.mpr ⟨l, r, hl, hr, hd⟩, by simp⟩, hw.opened⟩
    · rw [hs, List.map_cons, List.mem_cons, not_or] at hstack
      rw [ha, Assumptions.mem_insert] at hp
      exact hw.left p (hp.resolve_left hstack.1) hstack.2

theorem mem_assumed_inspect (h : w.inspect c cancelled pair = .ok w') (hp : p ∈ w.assumed) :
    p ∈ w'.assumed := by
  rcases stack_of_inspect h with ⟨-, ha⟩ | ⟨_, _, _, _, -, -, -, -, -, ha⟩
  · exact ha ▸ hp
  · exact ha ▸ Assumptions.mem_insert.mpr (.inr hp)

theorem Grants.inspect (h : w.inspect c cancelled pair = .ok w') (hp : w.Grants c p) :
    w'.Grants c p :=
  hp.imp_left (mem_assumed_inspect h)

/-- A pair that was not refuted when it was looked at is granted. -/
theorem grants_inspect (h : w.inspect c cancelled pair = .ok w') (hw : w'.holds = true) :
    w'.Grants c pair := by
  cases cancelled with
  | true =>
    cases h
    cases hw
  | false =>
    rcases inspect_false_cases h with ⟨hmem, rfl⟩ | ⟨d, -, hd, rfl⟩
    · exact .inl hmem
    cases d with
    | settled related =>
      rw [show related = true from hw] at hd
      exact .inr hd
    | expand pending complete => exact .inl (Assumptions.mem_insert.mpr (.inl rfl))

/-- Taking the next pair off the demand of the open pair on top asks for it. -/
theorem Covered.take {next : NodePair} {pending : List NodePair} {complete : Bool}
    {rest : List OpenPair} (hw : w.Covered c G)
    (hstack : w.stack = ⟨pair, next :: pending, complete⟩ :: rest) :
    Covered c (fun p => p = next ∨ G p)
      { w with stack := ⟨pair, pending, complete⟩ :: rest } := by
  have hopened := (hw.mono fun p hp => (.inr hp : p = next ∨ G p)).opened
  have hleft := (hw.mono fun p hp => (.inr hp : p = next ∨ G p)).left
  rw [hstack, List.forall_mem_cons] at hopened
  rw [hstack] at hleft
  obtain ⟨done, hd, hdone⟩ := hopened.1
  refine ⟨List.forall_mem_cons.mpr ⟨⟨done ++ [next], by simpa using hd, ?_⟩, hopened.2⟩, hleft⟩
  intro p hp
  rcases List.mem_append.mp hp with hp | hp
  · exact hdone p hp
  · exact .inl (List.mem_singleton.mp hp)

/-- Leaving a pair without giving up its assumption: all it asked for was granted before. -/
theorem Covered.leave {top : OpenPair} {rest : List OpenPair} (hw : w.Covered c G)
    (hstack : w.stack = top :: rest) (hpending : top.pending = []) (hcomplete : top.complete = true)
    (hs : w'.stack = rest) (ha : w'.assumed = w.assumed) : w'.Covered c G := by
  have hopened := hw.opened
  rw [hstack, List.forall_mem_cons] at hopened
  refine ⟨hs ▸ hopened.2, fun p hp hp' => ?_⟩
  rw [ha] at hp
  rw [hs] at hp'
  by_cases heq : p = top.pair
  · subst heq
    obtain ⟨done, hd, hdone⟩ := hopened.1
    rw [hpending, List.append_nil, hcomplete] at hd
    exact ⟨done, hd, hdone⟩
  · refine hw.left p hp ?_
    rw [hstack, List.map_cons, List.mem_cons, not_or]
    exact ⟨heq, hp'⟩

/-- A round of a retaining walk keeps what was asked for granted. -/
theorem Covered.advance (hc : c.strategy = .retaining) (hw : w.Covered c (w.Grants c))
    (hs : w.stack ≠ []) (h : w.advance c polls = .ok w') (hholds : w'.holds = true) :
    w'.Covered c (w'.Grants c) := by
  rcases advance_cases hs h with
    ⟨pair, next, pending, complete, rest, -, hstack, hinspect⟩ | ⟨top, rest, hlast, hstack, rfl⟩
  · refine ((hw.take hstack).inspect hinspect).mono fun p hp => ?_
    rcases hp with rfl | hp
    · exact grants_inspect hinspect hholds
    · exact Grants.inspect hinspect hp
  · simp only [Bool.and_eq_true] at hholds
    have hpending : top.pending = [] := by
      rcases hlast with hlast | hlast
      · rw [hlast] at hholds
        exact absurd hholds.1 Bool.false_ne_true
      · exact hlast
    rw [hc]
    exact hw.leave hstack hpending hholds.2 rfl rfl

/-- What is demanded of a granted pair that is not open is granted. -/
theorem Covered.metBy_grants (hw : w.Covered c (w.Grants c)) (hp : w.Grants c p)
    (hs : p ∉ w.stack.map OpenPair.pair) :
    ∃ d, demandAt c.left c.right p = .ok d ∧ d.MetBy (w.Grants c) := by
  rcases hp with hp | hp
  · obtain ⟨pending, hd, hpending⟩ := hw.left p hp hs
    exact ⟨_, hd, rfl, hpending⟩
  · exact ⟨_, hp, rfl⟩

theorem Covered.isSimulation (hw : w.Covered c (w.Grants c)) (hs : w.stack = []) :
    IsSimulation c.left c.right (w.Grants c) :=
  fun _ hp => hw.metBy_grants hp (by simp [hs])

end Walk

namespace Comparison

variable {c : Comparison} {polls : Polls} {start : NodePair} {w : Walk}

theorem holds_of_advance {w' : Walk} (hs : w.stack ≠ [])
    (h : w.advance c polls = .ok w') (hw' : w'.holds = true) : w.holds = true := by
  rcases Walk.advance_cases hs h with ⟨_, _, _, _, _, hholds, -⟩ | ⟨top, rest, -, -, rfl⟩
  · exact hholds
  · simp only [Bool.and_eq_true] at hw'
    exact hw'.1

theorem Reaches.covered (hc : c.strategy = .retaining) (h : c.Reaches polls start w)
    (hw : w.holds = true) : w.Covered c (w.Grants c) ∧ w.Grants c start := by
  induction h with
  | first h => exact ⟨Walk.covered_idle.inspect h, Walk.grants_inspect h hw⟩
  | round _ hs hadvance ih =>
    obtain ⟨hcovered, hstart⟩ := ih (holds_of_advance hs hadvance hw)
    refine ⟨hcovered.advance hc hs hadvance hw, ?_⟩
    rcases Walk.advance_cases hs hadvance with
      ⟨_, _, _, _, _, -, -, hinspect⟩ | ⟨top, rest, -, -, rfl⟩
    · exact Walk.Grants.inspect hinspect hstart
    · rw [hc]
      exact hstart

theorem Reaches.similar (hc : c.strategy = .retaining) (h : c.Reaches polls start w)
    (hs : w.stack = []) (hw : w.holds = true) : Similar c.left c.right start := by
  obtain ⟨hcovered, hstart⟩ := h.covered hc hw
  exact ⟨_, hcovered.isSimulation hs, hstart⟩

theorem roots_eq_some {strategy : Strategy} {left right : Graph} {a b : NodeId}
    (ha : left.root = some a) (hb : right.root = some b) :
    roots ⟨strategy, left, right⟩ = some (a, b) := by
  simp only [roots, ha, hb]

theorem report_of_walk (hroots : c.roots = some start)
    (h : c.walk polls start = .ok w) : c.report polls = .ok ⟨w.holds, w.steps⟩ := by
  simp only [report, hroots, h]
  rfl

end Comparison

section Roots

variable {left right : Graph} {a b : NodeId}

/-- Comparing two graphs with a strategy that retains its assumptions ends with an answer, and the
answer says whether some relation that is closed under the rules has the roots. -/
theorem report_retaining_iff_closed (ha : left.root = some a) (hb : right.root = some b)
    (hl : left.Traversable) (hr : right.Traversable) (hls : left.Sorted) (hrs : right.Sorted) :
    ∃ related steps,
      Comparison.report ⟨.retaining, left, right⟩ .never = .ok ⟨related, steps⟩ ∧
      (related = true ↔ ∃ R, ClosedUnderRules left right R ∧ R a b) := by
  have hstart : left.Reachable a ∧ right.Reachable b := ⟨.root ha, .root hb⟩
  obtain ⟨w, hw⟩ : ∃ w, Comparison.walk ⟨.retaining, left, right⟩ .never (a, b) = .ok w :=
    Comparison.exists_walk (explorable_reachable hl hr) hstart
  obtain ⟨hreach, hs⟩ := Comparison.reaches_of_walk hw
  refine ⟨w.holds, w.steps, Comparison.report_of_walk (Comparison.roots_eq_some ha hb) hw, ?_⟩
  rw [← similar_iff_closed hls hrs hstart.1 hstart.2]
  exact ⟨hreach.similar rfl hs, fun hsim => hreach.holds_of_similar hsim⟩

/-- A loop against one that may also be left, and that is unrolled on the way. -/
theorem report_retaining_iff_closed_loops :
    let loop : Graph := ⟨#[.choice .output 0 [(3, 1)], .message .input 1 .int 0], some 0⟩
    let wide : Graph := ⟨#[.done, .choice .output 0 [(1, 0), (3, 2)], .message .input 1 .nat 3,
      .choice .output 0 [(3, 2), (4, 1)]], some 1⟩
    loop.InBounds ∧ wide.InBounds ∧ ∃ related steps,
      Comparison.report ⟨.retaining, loop, wide⟩ .never = .ok ⟨related, steps⟩ ∧
      (related = true ↔ ∃ R, ClosedUnderRules loop wide R ∧ R 0 1) := by
  intro loop wide
  have hl : loop.InBounds := by decide
  have hr : wide.InBounds := by decide
  exact ⟨hl, hr, report_retaining_iff_closed rfl rfl hl.traversable hr.traversable
    (Graph.sorted_of_forall (by decide)) (Graph.sorted_of_forall (by decide))⟩

end Roots

end SessionGraph
