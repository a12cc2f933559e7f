import Mathlib.Algebra.GroupWithZero.Nat
import Mathlib.Algebra.Order.BigOperators.Group.Finset
import SessionGraph.Proofs.Agreement

/-!
# How many pairs a walk looks at

A discharging walk assumes the pairs on its stack only, so what it looks at on behalf of a pair is
fixed by the pairs above which that pair is met: `Comparison.visits` counts it. While nothing is
refuted, the pairs looked at and those that the stack still asks for make up `visits` of the first
pair (`Comparison.Reaches.steps_add_outstanding`).

A retaining walk opens a pair at most once. What it has looked at and what its stack still asks for
is then no more than what the pairs opened so far ask for (`Walk.Tallied`).
-/

namespace SessionGraph

/-! ## Discharging -/

namespace Comparison

variable {c : Comparison} {path : List NodePair} {pair : NodePair}

/-- How many pairs are looked at when `pair` is met with the pairs of `path` assumed, those of each
pair asked for counted on their own. -/
def visits (c : Comparison) (path : List NodePair) (pair : NodePair) : Nat :=
  if _ : pair ∈ path then 1
  else
    match hd : demandAt c.left c.right pair with
    | .ok (.expand pending _) => 1 + (pending.map fun p => visits c (pair :: path) p).sum
    | _ => 1
termination_by DepthFirst.fresh (Walk.allPairs c) path
decreasing_by
  obtain ⟨l, r, hl, hr, -⟩ := demandAt_eq_ok_iff.mp hd
  exact DepthFirst.fresh_cons_lt (Walk.mem_allPairs hl hr) ‹pair ∉ path›

theorem visits_of_mem (h : pair ∈ path) : c.visits path pair = 1 := by
  rw [visits, dif_pos h]

theorem visits_of_settled {related : Bool}
    (hd : demandAt c.left c.right pair = .ok (.settled related)) : c.visits path pair = 1 := by
  by_cases hmem : pair ∈ path
  · exact visits_of_mem hmem
  · rw [visits, dif_neg hmem]
    split
    · simp_all
    · rfl

theorem visits_of_expand {pending : List NodePair} {complete : Bool} (hmem : pair ∉ path)
    (hd : demandAt c.left c.right pair = .ok (.expand pending complete)) :
    c.visits path pair = 1 + (pending.map (c.visits (pair :: path))).sum := by
  rw [visits, dif_neg hmem]
  split
  · rename_i pending' complete' hd'
    rw [hd, Except.ok.injEq, Demand.expand.injEq] at hd'
    rw [hd'.1]
  · rename_i hne
    exact absurd hd (hne pending complete)

theorem visits_pos : 0 < c.visits path pair := by
  unfold visits
  split
  · exact Nat.one_pos
  · split
    · omega
    · exact Nat.one_pos

end Comparison

namespace Walk

variable {c : Comparison} {w w' : Walk} {pair : NodePair}

/-- How many pairs are still to be looked at for a stack. -/
def outstanding (c : Comparison) : List OpenPair → Nat
  | [] => 0
  | top :: rest =>
    (top.pending.map (c.visits (top.pair :: rest.map OpenPair.pair))).sum + outstanding c rest

theorem outstanding_inspect (hassumed : ∀ p, p ∈ w.assumed ↔ p ∈ w.stack.map OpenPair.pair)
    (h : w.inspect c false pair = .ok w') :
    w'.steps + outstanding c w'.stack =
      w.steps + outstanding c w.stack + c.visits (w.stack.map OpenPair.pair) pair := by
  rcases inspect_false_cases h with ⟨hmem, rfl⟩ | ⟨d, hmem, hd, rfl⟩
  · rw [Comparison.visits_of_mem ((hassumed pair).mp hmem)]
    simp only
    omega
  · rw [hassumed] at hmem
    cases d with
    | settled related =>
      rw [Comparison.visits_of_settled hd]
      simp only [enter]
      omega
    | expand pending complete =>
      rw [Comparison.visits_of_expand hmem hd]
      simp only [enter, outstanding]
      omega

end Walk

namespace Comparison

variable {c : Comparison} {start : NodePair} {w : Walk}

theorem Reaches.steps_add_outstanding (hc : c.strategy = .discharging)
    (h : c.Reaches .never start w) (hholds : w.holds = true) :
    w.steps + Walk.outstanding c w.stack = c.visits [] start := by
  induction h with
  | first h =>
    have hidle := Walk.outstanding_inspect (by simp [Walk.idle]) h
    simpa [Walk.idle, Walk.outstanding] using hidle
  | @round w w' hw hs hadvance ih =>
    have hsum := ih (holds_of_advance hs hadvance hholds)
    rcases Walk.advance_cases hs hadvance with
      ⟨pair, next, pending, complete, rest, -, hstack, hinspect⟩ | ⟨top, rest, hlast, hstack, rfl⟩
    · have hassumed : ∀ p, p ∈ w.assumed ↔
          p ∈ (OpenPair.mk pair pending complete :: rest).map OpenPair.pair := by
        intro p
        rw [hw.mem_assumed_iff hc, hstack]
        rfl
      have hinspect := Walk.outstanding_inspect hassumed hinspect
      rw [hstack] at hsum
      simp only [Walk.outstanding, List.map_cons, List.sum_cons] at hsum hinspect
      omega
    · have hpending : top.pending = [] := by
        simp only [Bool.and_eq_true] at hholds
        exact hlast.resolve_left (by simp [hholds.1])
      rw [hstack] at hsum
      simpa [Walk.outstanding, hpending] using hsum

end Comparison

/-! ## Retaining -/

/-- How many pairs the rules ask for after a pair. -/
def Comparison.breadth (c : Comparison) (pair : NodePair) : Nat :=
  match demandAt c.left c.right pair with
  | .ok d => d.pending.length
  | .error _ => 0

theorem Comparison.breadth_of_ok {c : Comparison} {pair : NodePair} {d : Demand}
    (hd : demandAt c.left c.right pair = .ok d) : c.breadth pair = d.pending.length := by
  simp only [breadth, hd]

namespace Walk

variable {c : Comparison} {w w' : Walk} {pair : NodePair} {opened : Finset NodePair}

/-- How many pairs a stack asks for. -/
def asked (stack : List OpenPair) : Nat := (stack.map fun top => top.pending.length).sum

/-- With `looks` pairs looked at, the walk assumes the pairs of `opened`, and all but the first of
those looked at or still asked for are asked for by one of `opened`. What a failed walk no longer
looks at is not counted. -/
structure Tallied (c : Comparison) (opened : Finset NodePair) (looks : Nat) (w : Walk) : Prop where
  mem_iff : ∀ p, p ∈ w.assumed ↔ p ∈ opened
  mem_allPairs : ∀ p ∈ opened, p ∈ allPairs c
  looks_le : looks + asked w.stack ≤ 1 + ∑ p ∈ opened, c.breadth p
  looks_eq : w.holds = true → looks + asked w.stack = 1 + ∑ p ∈ opened, c.breadth p

theorem Tallied.inspect (hw : w.Tallied c opened (w.steps + 1)) (hholds : w.holds = true)
    (h : w.inspect c false pair = .ok w') : ∃ opened', w'.Tallied c opened' w'.steps := by
  have hlooks := hw.looks_eq hholds
  rcases inspect_false_cases h with ⟨-, rfl⟩ | ⟨d, hmem, hd, rfl⟩
  · exact ⟨opened, hw.mem_iff, hw.mem_allPairs, hw.looks_le, fun _ => hlooks⟩
  cases d with
  | settled related => exact ⟨opened, hw.mem_iff, hw.mem_allPairs, hw.looks_le, fun _ => hlooks⟩
  | expand pending complete =>
    rw [hw.mem_iff] at hmem
    -- the pair was not opened before, so what it asks for is counted once
    have hsum : w.steps + 1 + asked (⟨pair, pending, complete⟩ :: w.stack) =
        1 + ∑ p ∈ insert pair opened, c.breadth p := by
      rw [Finset.sum_insert hmem, Comparison.breadth_of_ok hd]
      simp only [asked, List.map_cons, List.sum_cons, Demand.pending] at hlooks ⊢
      omega
    refine ⟨insert pair opened, fun p => ?_, fun p hp => ?_, hsum.le, fun _ => hsum⟩
    · rw [enter, Assumptions.mem_insert, Finset.mem_insert, hw.mem_iff]
    · rcases Finset.mem_insert.mp hp with rfl | hp
      · obtain ⟨l, r, hl, hr, -⟩ := demandAt_eq_ok_iff.mp hd
        exact Walk.mem_allPairs hl hr
      · exact hw.mem_allPairs p hp

theorem Tallied.advance (hc : c.strategy = .retaining) (hw : w.Tallied c opened w.steps)
    (hs : w.stack ≠ []) (h : w.advance c .never = .ok w') :
    ∃ opened', w'.Tallied c opened' w'.steps := by
  have hle := hw.looks_le
  have heq := hw.looks_eq
  rcases advance_cases hs h with
    ⟨pair, next, pending, complete, rest, hholds, hstack, hinspect⟩ |
    ⟨top, rest, hlast, hstack, rfl⟩
  · refine Tallied.inspect (w := { w with stack := ⟨pair, pending, complete⟩ :: rest })
      ⟨hw.mem_iff, hw.mem_allPairs, ?_, fun _ => ?_⟩ hholds hinspect
    · simp only [hstack, asked, List.map_cons, List.sum_cons, List.length_cons] at hle ⊢
      omega
    · have heq := heq hholds
      simp only [hstack, asked, List.map_cons, List.sum_cons, List.length_cons] at heq ⊢
      omega
  · rw [hstack] at hle heq
    simp only [asked, List.map_cons, List.sum_cons] at hle heq
    refine ⟨opened, ?_, hw.mem_allPairs, ?_, fun hholds => ?_⟩
    · rw [hc]
      exact hw.mem_iff
    · simp only [asked]
      omega
    · simp only [Bool.and_eq_true] at hholds
      have hpending : top.pending = [] := hlast.resolve_left (by simp [hholds.1])
      have heq := heq hholds.1
      simp only [asked, hpending, List.length_nil] at heq ⊢
      omega

end Walk

namespace Comparison

variable {c : Comparison} {start : NodePair} {w : Walk}

theorem Reaches.tallied (hc : c.strategy = .retaining) (h : c.Reaches .never start w) :
    ∃ opened, w.Tallied c opened w.steps := by
  induction h with
  | first h =>
    have hidle : Walk.idle.Tallied c ∅ 1 := by
      constructor <;> simp [Walk.idle, Walk.asked]
    exact hidle.inspect rfl h
  | round _ hs hadvance ih =>
    obtain ⟨opened, hw⟩ := ih
    exact hw.advance hc hs hadvance

/-- A retaining walk looks at no more pairs than the first and what each pair of nodes can ask
for. -/
theorem Reaches.steps_le (hc : c.strategy = .retaining) (h : c.Reaches .never start w) {width : Nat}
    (hwidth : ∀ p, c.breadth p ≤ width) : w.steps ≤ 1 + width * c.left.size * c.right.size := by
  obtain ⟨opened, hw⟩ := h.tallied hc
  have hsub : opened ⊆ Finset.range c.left.size ×ˢ Finset.range c.right.size := by
    intro p hp
    have hp := hw.mem_allPairs p hp
    simp only [Walk.allPairs, List.mem_flatMap, List.mem_range, List.mem_map] at hp
    obtain ⟨l, hl, r, hr, rfl⟩ := hp
    exact Finset.mk_mem_product (Finset.mem_range.mpr hl) (Finset.mem_range.mpr hr)
  have hcard : opened.card ≤ c.left.size * c.right.size := by
    simpa using Finset.card_le_card hsub
  have hsum : ∑ p ∈ opened, c.breadth p ≤ opened.card * width :=
    Finset.sum_le_card_nsmul opened _ width fun p _ => hwidth p
  calc w.steps ≤ 1 + ∑ p ∈ opened, c.breadth p := (Nat.le_add_right _ _).trans hw.looks_le
    _ ≤ 1 + opened.card * width := by omega
    _ ≤ 1 + c.left.size * c.right.size * width :=
      Nat.add_le_add_left (Nat.mul_le_mul_right width hcard) 1
    _ = 1 + width * c.left.size * c.right.size := by rw [Nat.mul_comm, Nat.mul_assoc]

end Comparison

end SessionGraph
