import Mathlib.Logic.Relation
import SessionGraph.Proofs.Effort
import SessionGraph.Proofs.Outcome

/-!
# The product of two graphs

The pairs of nodes make up a graph of their own: an edge leads from a pair to each pair that the
rule for its nodes lists (`productEdges`). There are none where the rule is settled at once: two
messages or two choices have edges when they go the same way, name the same participant and, if
they are messages, their payloads fit (`productEdges_eq_iff`).

A walk keeps to the part of the product that is met from its first pair. A retaining walk opens no
pair twice (`Comparison.Opens.nodup_and_mem_iff`), so it goes along each edge at most once. If it
holds in the end it has left out no edge of that part, and its steps are one more than the edges.
-/

namespace SessionGraph

/-- Where the edges lead that leave a pair of nodes: the pairs that the rule for it lists. -/
def productEdges (left right : Graph) (pair : NodePair) : List NodePair :=
  match demandAt left right pair with
  | .ok d => d.pending
  | .error _ => []

/-- The edges that leave a pair of nodes, one rule at a time. The payload received on the right must
fit the one on the left, the payload sent on the left the one on the right. The labels of a choice
that is awaited on the right are looked for on the left; with a choice that is made it is the other
way round. -/
inductive Node.Edges : (left right : Node) → List NodePair → Prop
  | receive {participant : Participant} {payload payload' : Payload} {next next' : NodeId}
      (h : payload' = payload ∨ payload' = .nat ∧ payload = .int) :
      Edges (.message .input participant payload next) (.message .input participant payload' next')
        [(next, next')]
  | send {participant : Participant} {payload payload' : Payload} {next next' : NodeId}
      (h : payload = payload' ∨ payload = .nat ∧ payload' = .int) :
      Edges (.message .output participant payload next)
        (.message .output participant payload' next') [(next, next')]
  | branch {participant : Participant} {branches branches' : List (Label × NodeId)} :
      Edges (.choice .input participant branches) (.choice .input participant branches')
        ((matchLabels branches' branches).1.map Prod.swap)
  | select {participant : Participant} {branches branches' : List (Label × NodeId)} :
      Edges (.choice .output participant branches) (.choice .output participant branches')
        (matchLabels branches branches').1

theorem Node.Edges.pending_demand {l r : Node} {edges : List NodePair} (h : l.Edges r edges) :
    (l.demand r).pending = edges := by
  cases h with
  | receive h => simp [demand, Polarity.payloadFits, Payload.fits_iff.mpr h, Demand.pending]
  | send h => simp [demand, Polarity.payloadFits, Payload.fits_iff.mpr h, Demand.pending]
  | branch => simp [demand, Polarity.matchBranches, Demand.pending]
  | select => simp [demand, Polarity.matchBranches, Demand.pending]

theorem Node.edges_pending_demand {l r : Node} (h : (l.demand r).pending ≠ []) :
    l.Edges r (l.demand r).pending := by
  revert h
  fun_cases demand l r with
  | case2 polarity participant payload next polarity' participant' payload' next' hagree =>
    obtain ⟨rfl, rfl, hfits⟩ := hagree
    intro _
    cases polarity with
    | input => exact .receive (Payload.fits_iff.mp hfits)
    | output => exact .send (Payload.fits_iff.mp hfits)
  | case4 polarity participant branches polarity' participant' branches' hagree found complete
      hmatch =>
    obtain ⟨rfl, rfl⟩ := hagree
    intro _
    have hfound : found = (polarity.matchBranches branches branches').1 := by rw [hmatch]
    rw [Demand.pending, hfound]
    cases polarity with
    | input => exact .branch
    | output => exact .select
  | _ => exact fun h => absurd rfl h

/-- The pairs that are met along the edges of the product. -/
def ProductReachable (left right : Graph) : NodePair → NodePair → Prop :=
  Relation.ReflTransGen fun p q => q ∈ productEdges left right p

section Product

variable {left right : Graph} {a b : NodeId} {pair : NodePair}

theorem productEdges_of_ok {d : Demand} (hd : demandAt left right pair = .ok d) :
    productEdges left right pair = d.pending := by
  simp only [productEdges, hd]

/-- A pair has edges just when one of the rules gives it some. -/
theorem productEdges_eq_iff {edges : List NodePair} (h : edges ≠ []) :
    productEdges left right pair = edges ↔
      ∃ l r, left.node pair.1 = .ok l ∧ right.node pair.2 = .ok r ∧ l.Edges r edges := by
  constructor
  · rintro rfl
    rcases hd : demandAt left right pair with fault | d
    · exact absurd (by simp [productEdges, hd]) h
    · rw [productEdges_of_ok hd] at h ⊢
      obtain ⟨l, r, hl, hr, rfl⟩ := demandAt_eq_ok_iff.mp hd
      exact ⟨l, r, hl, hr, Node.edges_pending_demand h⟩
  · rintro ⟨l, r, hl, hr, hedges⟩
    rw [productEdges_of_ok (demandAt_eq_ok_iff.mpr ⟨l, r, hl, hr, rfl⟩), hedges.pending_demand]

theorem breadth_eq_length (c : Comparison) (pair : NodePair) :
    c.breadth pair = (productEdges c.left c.right pair).length := by
  unfold Comparison.breadth productEdges
  split <;> simp_all

/-- What is met from the pair of the roots is made of what is met from each root. -/
theorem ProductReachable.reachable (ha : left.root = some a) (hb : right.root = some b)
    (h : ProductReachable left right (a, b) pair) :
    left.Reachable pair.1 ∧ right.Reachable pair.2 := by
  induction h with
  | refl => exact ⟨.root ha, .root hb⟩
  | @tail p q _ hq ih =>
    rcases hd : demandAt left right p with fault | d
    · simp [productEdges, hd] at hq
    · rw [productEdges_of_ok hd] at hq
      exact Graph.Reachable.of_mem_pending ih.1 ih.2 hd hq

theorem explorable_productReachable (ha : left.root = some a) (hb : right.root = some b)
    (hl : left.Traversable) (hr : right.Traversable) :
    Explorable left right (ProductReachable left right (a, b)) := by
  intro p hp
  obtain ⟨d, hd, -⟩ := explorable_reachable hl hr p (hp.reachable ha hb)
  refine ⟨d, hd, fun q hq => hp.tail ?_⟩
  rwa [productEdges_of_ok hd]

theorem exists_productReachable_finset (ha : left.root = some a) (hb : right.root = some b)
    (hl : left.Traversable) (hr : right.Traversable) :
    ∃ met : Finset NodePair, ∀ p, p ∈ met ↔ ProductReachable left right (a, b) p := by
  classical
  let bounds := Finset.range left.size ×ˢ Finset.range right.size
  refine ⟨bounds.filter (ProductReachable left right (a, b)), fun p => ?_⟩
  rw [Finset.mem_filter, and_iff_right_iff_imp]
  intro hp
  have hreach := hp.reachable ha hb
  exact Finset.mem_product.mpr
    ⟨Finset.mem_range.mpr (hl _ hreach.1), Finset.mem_range.mpr (hr _ hreach.2)⟩

end Product

/-! ## The pairs that a walk opens -/

namespace Walk

variable {c : Comparison} {polls : Polls} {cancelled : Bool} {w w' : Walk} {pair : NodePair}

/-- What a round has put on the stack. -/
def opening (w w' : Walk) : List NodePair :=
  (w'.stack.take (w'.stack.length - w.stack.length)).map OpenPair.pair

theorem opening_of_inspect (h : w.inspect c cancelled pair = .ok w') :
    (w.opening w' = [] ∧ w'.assumed = w.assumed) ∨
    (pair ∉ w.assumed ∧ w.opening w' = [pair] ∧ w'.assumed = w.assumed.insert pair) := by
  rcases stack_of_inspect h with ⟨hs, ha⟩ | ⟨_, _, _, _, hnew, -, -, -, hs, ha⟩
  · exact .inl ⟨by simp [opening, hs], ha⟩
  · exact .inr ⟨hnew, by simp [opening, hs], ha⟩

theorem opening_of_advance (hs : w.stack ≠ []) (h : w.advance c polls = .ok w') :
    (w.opening w' = [] ∧
      (w'.assumed = w.assumed ∨ ∃ top, w'.assumed = c.strategy.release w.assumed top)) ∨
    ∃ next, w.upcoming = some next ∧ next ∉ w.assumed ∧ w.opening w' = [next] ∧
      w'.assumed = w.assumed.insert next := by
  rcases advance_cases hs h with
    ⟨pair, next, pending, complete, rest, hholds, hstack, hinspect⟩ | ⟨top, rest, -, hstack, rfl⟩
  · have hopening : w.opening w' =
        opening { w with stack := ⟨pair, pending, complete⟩ :: rest } w' := by
      simp [opening, hstack]
    rw [hopening]
    rcases opening_of_inspect hinspect with ⟨hnone, ha⟩ | ⟨hnew, hone, ha⟩
    · exact .inl ⟨hnone, .inl ha⟩
    · exact .inr ⟨next, upcoming_eq_some hstack hholds, hnew, hone, ha⟩
  · exact .inl ⟨by simp [opening, hstack], .inr ⟨top.pair, rfl⟩⟩

end Walk

namespace Comparison

variable {c : Comparison} {polls : Polls} {start : NodePair} {w : Walk} {opened : List NodePair}
  {S : NodePair → Prop}

/-- The walk from `start` comes to a state after it has opened the given pairs, the last one
first. -/
inductive Opens (c : Comparison) (polls : Polls) (start : NodePair) :
    (opened : List NodePair) → Walk → Prop
  | first {w : Walk} (h : Walk.idle.inspect c (polls 1) start = .ok w) :
      c.Opens polls start (Walk.idle.opening w) w
  | round {opened : List NodePair} {w w' : Walk} (h : c.Opens polls start opened w)
      (hs : w.stack ≠ []) (hadvance : w.advance c polls = .ok w') :
      c.Opens polls start (w.opening w' ++ opened) w'

theorem Reaches.exists_opens (h : c.Reaches polls start w) :
    ∃ opened, c.Opens polls start opened w := by
  induction h with
  | first h => exact ⟨_, .first h⟩
  | round _ hs hadvance ih =>
    obtain ⟨opened, ih⟩ := ih
    exact ⟨_, ih.round hs hadvance⟩

/-- A retaining walk opens a pair once, and assumes what it has opened. -/
theorem Opens.nodup_and_mem_iff (hc : c.strategy = .retaining) (h : c.Opens polls start opened w) :
    opened.Nodup ∧ ∀ p, p ∈ w.assumed ↔ p ∈ opened := by
  induction h with
  | first h =>
    rcases Walk.opening_of_inspect h with ⟨hnone, ha⟩ | ⟨-, hone, ha⟩
    · rw [hnone, ha]
      simp [Walk.idle]
    · rw [hone, ha]
      simp [Walk.idle]
  | @round opened w w' _ hs hadvance ih =>
    obtain ⟨hnodup, hassumed⟩ := ih
    rcases Walk.opening_of_advance hs hadvance with
      ⟨hnone, ha⟩ | ⟨next, -, hnew, hone, ha⟩
    · have ha : w'.assumed = w.assumed := by
        rcases ha with ha | ⟨top, ha⟩
        · exact ha
        · rw [ha, hc]
          rfl
      rw [hnone, ha, List.nil_append]
      exact ⟨hnodup, hassumed⟩
    · rw [hone, ha, List.singleton_append, List.nodup_cons]
      rw [hassumed] at hnew
      refine ⟨⟨hnew, hnodup⟩, fun p => ?_⟩
      rw [Assumptions.mem_insert, List.mem_cons, hassumed]

theorem Opens.reaches (h : c.Opens polls start opened w) : c.Reaches polls start w := by
  induction h with
  | first h => exact .first h
  | round _ hs hadvance ih => exact ih.round hs hadvance

theorem Opens.forall_mem (hS : Explorable c.left c.right S) (hstart : S start)
    (h : c.Opens polls start opened w) : ∀ p ∈ opened, S p := by
  induction h with
  | first h =>
    rcases Walk.opening_of_inspect h with ⟨hnone, -⟩ | ⟨-, hone, -⟩
    · simp [hnone]
    · simpa [hone] using hstart
  | @round opened w w' h hs hadvance ih =>
    rcases Walk.opening_of_advance hs hadvance with ⟨hnone, -⟩ | ⟨next, hnext, -, hone, -⟩
    · simpa [hnone] using ih
    · obtain ⟨pair, pending, complete, rest, hstack, -⟩ := Walk.stack_of_upcoming hnext
      have hwithin := h.reaches.within hS hstart
      rw [Walk.Within, hstack, List.forall_mem_cons, List.forall_mem_cons] at hwithin
      rw [hone, List.singleton_append, List.forall_mem_cons]
      exact ⟨hwithin.1.1, ih⟩

/-! ## Counting edges -/

/-- A retaining walk looks at the first pair and goes along edges of pairs that it has opened, each
of them once. None of these edges is left out unless the walk is refuted. -/
theorem Opens.steps_le (hc : c.strategy = .retaining) (h : c.Opens .never start opened w) :
    w.steps ≤ 1 + ∑ p ∈ opened.toFinset, (productEdges c.left c.right p).length ∧
    (w.stack = [] → w.holds = true →
      w.steps = 1 + ∑ p ∈ opened.toFinset, (productEdges c.left c.right p).length) := by
  obtain ⟨tally, hw⟩ := h.reaches.tallied hc
  have htally : opened.toFinset = tally := by
    ext p
    rw [List.mem_toFinset, ← (h.nodup_and_mem_iff hc).2, hw.mem_iff]
  simp only [htally, ← breadth_eq_length]
  refine ⟨(Nat.le_add_right _ _).trans hw.looks_le, fun hs hholds => ?_⟩
  simpa [hs, Walk.asked] using hw.looks_eq hholds

/-- When a retaining walk ends and holds, every pair that is met along edges was opened, or no edge
leaves it. -/
theorem Opens.mem_of_reachable (hc : c.strategy = .retaining) (h : c.Opens .never start opened w)
    (hs : w.stack = []) (hholds : w.holds = true) {p : NodePair}
    (hp : ProductReachable c.left c.right start p) :
    p ∈ opened ∨ productEdges c.left c.right p = [] := by
  obtain ⟨hcovered, hstart⟩ := h.reaches.covered hc hholds
  have hgrants : w.Grants c p := by
    induction hp with
    | refl => exact hstart
    | @tail p q _ hq ih =>
      obtain ⟨d, hd, hmet⟩ := hcovered.metBy_grants ih (by simp [hs])
      rw [productEdges_of_ok hd] at hq
      cases d with
      | settled related => cases hq
      | expand pending complete => exact hmet.2 q hq
  rcases hgrants with hp | hp
  · exact .inl (((h.nodup_and_mem_iff hc).2 p).mp hp)
  · exact .inr (productEdges_of_ok hp)

/-- Keeping assumptions, a comparison opens no pair twice. It takes at most one step more than there
are edges in the part of the product that is met from the roots, and exactly that many if the
graphs are related. -/
theorem retaining_steps_count {left right : Graph} {a b : NodeId} (ha : left.root = some a)
    (hb : right.root = some b) (hl : left.Traversable) (hr : right.Traversable) :
    ∃ (met : Finset NodePair) (opened : List NodePair) (w : Walk),
      (∀ p, p ∈ met ↔ ProductReachable left right (a, b) p) ∧
      (retaining left right).Opens .never (a, b) opened w ∧ w.stack = [] ∧
      (retaining left right).report .never = .ok ⟨w.holds, w.steps⟩ ∧ opened.Nodup ∧
      w.steps ≤ 1 + ∑ p ∈ met, (productEdges left right p).length ∧
      (w.holds = true → w.steps = 1 + ∑ p ∈ met, (productEdges left right p).length) := by
  obtain ⟨met, hmet⟩ := exists_productReachable_finset ha hb hl hr
  have hS := explorable_productReachable ha hb hl hr
  obtain ⟨w, hw⟩ : ∃ w, (retaining left right).walk .never (a, b) = .ok w :=
    exists_walk hS .refl
  obtain ⟨hreach, hs⟩ := reaches_of_walk hw
  obtain ⟨opened, hopens⟩ := hreach.exists_opens
  have hsub : opened.toFinset ⊆ met := by
    intro p hp
    rw [List.mem_toFinset] at hp
    exact (hmet p).mpr (hopens.forall_mem hS .refl p hp)
  obtain ⟨hle, heq⟩ := hopens.steps_le rfl
  refine ⟨met, opened, w, hmet, hopens, hs, report_of_walk (roots_eq_some ha hb) hw,
    (hopens.nodup_and_mem_iff rfl).1, ?_, fun hholds => ?_⟩
  · exact hle.trans (Nat.add_le_add_left (Finset.sum_le_sum_of_subset hsub) 1)
  · rw [heq hs hholds]
    congr 1
    refine Finset.sum_subset hsub fun p hp hnew => ?_
    rw [List.mem_toFinset] at hnew
    have hp := hopens.mem_of_reachable rfl hs hholds ((hmet p).mp hp)
    rw [hp.resolve_left hnew, List.length_nil]

/-- A loop with two branches to the same node, against the same loop unrolled in part: three pairs
are met, two of them along several edges. -/
theorem retaining_steps_count_shared :
    let loop : Graph := ⟨#[.choice .output 0 [(0, 1), (2, 1), (3, 0)], .message .input 1 .int 0],
      some 0⟩
    let twice : Graph := ⟨#[.done, .choice .output 0 [(0, 2), (1, 0), (2, 2), (3, 3)],
      .message .input 1 .nat 3, .choice .output 0 [(0, 2), (2, 2), (3, 1)]], some 1⟩
    loop.InBounds ∧ twice.InBounds ∧
    (retaining loop twice).report .never = .ok ⟨true, 8⟩ ∧
    ∃ (met : Finset NodePair) (opened : List NodePair) (w : Walk),
      (∀ p, p ∈ met ↔ ProductReachable loop twice (0, 1) p) ∧
      (retaining loop twice).Opens .never (0, 1) opened w ∧ w.stack = [] ∧
      (retaining loop twice).report .never = .ok ⟨w.holds, w.steps⟩ ∧ opened.Nodup ∧
      w.steps ≤ 1 + ∑ p ∈ met, (productEdges loop twice p).length ∧
      (w.holds = true → w.steps = 1 + ∑ p ∈ met, (productEdges loop twice p).length) := by
  intro loop twice
  have hl : loop.InBounds := by decide
  have hr : twice.InBounds := by decide
  exact ⟨hl, hr, eq_ok_of_toOption (by decide +kernel),
    retaining_steps_count rfl rfl hl.traversable hr.traversable⟩

end Comparison

end SessionGraph
