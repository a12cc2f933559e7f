import Mathlib.Data.Set.Function
import SessionGraph.Proofs.Covering

/-!
# Comparisons in lockstep

A walk looks at ids only to look up nodes and to tell pairs apart. So two comparisons take the same
steps to the same answer when the pairs that one of them meets are found under other ids in the
other: different pairs in different places, and what is demanded of a pair demanded there of its
image (`Comparison.Mirrors`). Round by round the two walks are at the same place (`Walk.Mirrors`),
however the polls are answered.
-/

namespace SessionGraph

/-- `c'` demands of the images of the pairs of `S` the images of what `c` demands of the pairs
themselves, which is among `S` again. Different pairs of `S` have different images. -/
structure Comparison.Mirrors (c c' : Comparison) (S : NodePair → Prop)
    (image : NodePair → NodePair) : Prop where
  strategy : c'.strategy = c.strategy
  explorable : Explorable c.left c.right S
  demandAt : ∀ p d, S p → demandAt c.left c.right p = .ok d →
    demandAt c'.left c'.right (image p) = .ok (d.map image)
  injOn : Set.InjOn image {p | S p}

/-- An open pair with the given function applied to all its pairs. -/
def OpenPair.map (f : NodePair → NodePair) (top : OpenPair) : OpenPair :=
  ⟨f top.pair, top.pending.map f, top.complete⟩

namespace Walk

variable {c c' : Comparison} {S : NodePair → Prop} {image : NodePair → NodePair} {polls : Polls}
  {w v : Walk}

/-- The walk `v` is where `w` is, at the images. The pairs on the stack and those asked for are
pairs of `S`. -/
structure Mirrors (S : NodePair → Prop) (image : NodePair → NodePair) (w v : Walk) : Prop where
  stack : v.stack = w.stack.map (OpenPair.map image)
  assumed : ∀ p, S p → (image p ∈ v.assumed ↔ p ∈ w.assumed)
  steps : v.steps = w.steps
  holds : v.holds = w.holds
  met : ∀ top ∈ w.stack, S top.pair ∧ ∀ p ∈ top.pending, S p

theorem mirrors_idle : Mirrors S image idle idle where
  stack := rfl
  assumed _ _ := by simp [idle]
  steps := rfl
  holds := rfl
  met _ h := absurd h List.not_mem_nil

theorem Mirrors.inspect (hc : c.Mirrors c' S image) (h : Mirrors S image w v) (cancelled : Bool)
    {p : NodePair} (hp : S p) :
    ∃ w' v', w.inspect c cancelled p = .ok w' ∧ v.inspect c' cancelled (image p) = .ok v' ∧
      Mirrors S image w' v' := by
  have hsteps : v.steps + 1 = w.steps + 1 := congrArg (· + 1) h.steps
  cases cancelled with
  | true => exact ⟨_, _, rfl, rfl, h.stack, h.assumed, hsteps, rfl, h.met⟩
  | false =>
    by_cases hmem : p ∈ w.assumed
    · have hmem' := (h.assumed p hp).mpr hmem
      exact ⟨_, _, inspect_of_mem hmem, inspect_of_mem hmem', h.stack, h.assumed, hsteps, rfl,
        h.met⟩
    -- neither walk assumes the pair, and what the rules demand of it differs in ids only
    have hmem' : image p ∉ v.assumed := fun hp' => hmem ((h.assumed p hp).mp hp')
    obtain ⟨d, hd, hpending⟩ := hc.explorable p hp
    refine ⟨w.enter p d, v.enter (image p) (d.map image), ?_, ?_, ?_⟩
    · rw [inspect_of_not_mem hmem, hd]
      rfl
    · rw [inspect_of_not_mem hmem', hc.demandAt p d hp hd]
      rfl
    cases d with
    | settled related => exact ⟨h.stack, h.assumed, hsteps, rfl, h.met⟩
    | expand pending complete =>
      refine ⟨?_, fun q hq => ?_, hsteps, rfl, List.forall_mem_cons.mpr ⟨⟨hp, hpending⟩, h.met⟩⟩
      · simp only [enter, Demand.map, h.stack, List.map_cons, OpenPair.map]
      · simp only [enter, Demand.map, Assumptions.mem_insert, hc.injOn.eq_iff hq hp, h.assumed q hq]

theorem Mirrors.advance (hc : c.Mirrors c' S image) (h : Mirrors S image w v)
    (hs : w.stack ≠ []) :
    ∃ w' v', w.advance c polls = .ok w' ∧ v.advance c' polls = .ok v' ∧ Mirrors S image w' v' := by
  obtain ⟨⟨pair, pending, complete⟩, rest, hstack⟩ := List.exists_cons_of_ne_nil hs
  have hstack' := h.stack
  have hmet := h.met
  rw [hstack, List.map_cons] at hstack'
  rw [hstack, List.forall_mem_cons] at hmet
  by_cases hleave : w.holds = false ∨ pending = []
  · refine ⟨_, _, advance_of_leave hstack hleave, advance_of_leave hstack' ?_, rfl, fun q hq => ?_,
      h.steps, ?_, hmet.2⟩
    · rw [h.holds]
      exact hleave.imp_right fun hnil => by rw [OpenPair.map, hnil, List.map_nil]
    · rw [hc.strategy]
      cases c.strategy with
      | retaining => exact h.assumed q hq
      | discharging =>
        -- no other pair that is met has the image of the one that is given up
        simp only [Strategy.release, OpenPair.map, Assumptions.mem_erase, Ne,
          hc.injOn.eq_iff hq hmet.1.1, h.assumed q hq]
    · simp only [h.holds, OpenPair.map]
  · rw [not_or, Bool.not_eq_false] at hleave
    obtain ⟨hholds, hpending⟩ := hleave
    obtain ⟨next, pending, rfl⟩ := List.exists_cons_of_ne_nil hpending
    have hpending := List.forall_mem_cons.mp hmet.1.2
    rw [advance_of_pending hstack hholds, advance_of_pending hstack' (h.holds.trans hholds),
      h.steps]
    refine Mirrors.inspect hc ?_ _ hpending.1
    exact ⟨rfl, h.assumed, rfl, h.holds,
      List.forall_mem_cons.mpr ⟨⟨hmet.1.1, hpending.2⟩, hmet.2⟩⟩

theorem Mirrors.run {w v : Walk} (hc : c.Mirrors c' S image) (h : Mirrors S image w v)
    (hw : w.Consistent) (hv : v.Consistent) :
    ∃ w' v', w.run c polls hw = .ok w' ∧ v.run c' polls hv = .ok v' ∧ Mirrors S image w' v' := by
  by_cases hs : w.stack = []
  · have hs' : v.stack = [] := by rw [h.stack, hs, List.map_nil]
    exact ⟨w, v, run_of_nil hw hs, run_of_nil hv hs', h⟩
  · have hs' : v.stack ≠ [] := by
      rw [h.stack]
      exact fun hnil => hs (List.map_eq_nil_iff.mp hnil)
    obtain ⟨w', v', hadvance, hadvance', h'⟩ := h.advance hc hs
    have hlt := advance_lt hw hs hadvance
    rw [run_of_ok hw hs hadvance, run_of_ok hv hs' hadvance']
    exact h'.run hc _ _
termination_by w.backlog c

end Walk

/-- Comparisons in lockstep report the same, however the polls are answered. -/
theorem Comparison.Mirrors.exists_report {c c' : Comparison} {S : NodePair → Prop}
    {image : NodePair → NodePair} (hc : c.Mirrors c' S image) {start : NodePair} (hstart : S start)
    (hroots : c.roots = some start) (hroots' : c'.roots = some (image start)) (polls : Polls) :
    ∃ report, c.report polls = .ok report ∧ c'.report polls = .ok report := by
  obtain ⟨w, v, hfirst, hfirst', hmirrors⟩ : ∃ w v,
      Walk.idle.inspect c (polls 1) start = .ok w ∧
      Walk.idle.inspect c' (polls 1) (image start) = .ok v ∧ Walk.Mirrors S image w v :=
    Walk.mirrors_idle.inspect hc (polls 1) hstart
  obtain ⟨w', v', hrun, hrun', hend⟩ := hmirrors.run hc
    (Walk.consistent_idle.inspect hfirst) (Walk.consistent_idle.inspect hfirst')
  have hreport := report_of_walk hroots ((walk_of_ok hfirst).trans hrun)
  have hreport' := report_of_walk hroots' ((walk_of_ok hfirst').trans hrun')
  rw [hend.holds, hend.steps] at hreport'
  exact ⟨_, hreport, hreport'⟩

end SessionGraph
