import Mathlib.Algebra.BigOperators.Fin
import SessionGraph.Proofs.Product

/-!
# Routes through the product

A route through the product of two graphs is told by the slots of the edges that it takes
(`route`). A discharging walk that is not refuted follows, from its first pair on, every route that
comes to a pair for the second time only at its end, and looks at one pair for each: `visits` is the
number of these routes (`exists_routes`). There can be many more of them than edges, so a retaining
walk takes no more steps.
-/

namespace SessionGraph

/-- The pairs on the route from `pair` that takes the given slots one after the other, if there are
edges in these slots. -/
def route (left right : Graph) : (pair : NodePair) → (slots : List Nat) → Option (List NodePair)
  | pair, [] => some [pair]
  | pair, slot :: slots =>
    match (productEdges left right pair)[slot]? with
    | some next => (route left right next slots).map (pair :: ·)
    | none => none

/-- The route comes to no pair twice and to no pair of `path`, except at its end. -/
def Avoiding (left right : Graph) (path : List NodePair) (pair : NodePair) (slots : List Nat) :
    Prop :=
  ∃ pairs, route left right pair slots = some pairs ∧ pairs.dropLast.Nodup ∧
    ∀ p ∈ pairs.dropLast, p ∉ path

section Routes

variable {left right : Graph} {path : List NodePair} {pair : NodePair} {slot : Nat}
  {slots : List Nat}

theorem ne_nil_of_route {pairs : List NodePair} (h : route left right pair slots = some pairs) :
    pairs ≠ [] := by
  cases slots with
  | nil =>
    cases h
    exact List.cons_ne_nil _ _
  | cons slot slots =>
    simp only [route] at h
    split at h
    · obtain ⟨rest, -, rfl⟩ := Option.map_eq_some_iff.mp h
      exact List.cons_ne_nil _ _
    · cases h

theorem avoiding_nil : Avoiding left right path pair [] := ⟨[pair], rfl, by simp, by simp⟩

theorem avoiding_cons_iff : Avoiding left right path pair (slot :: slots) ↔
    pair ∉ path ∧ ∃ next, (productEdges left right pair)[slot]? = some next ∧
      Avoiding left right (pair :: path) next slots := by
  unfold Avoiding
  simp only [route]
  rcases (productEdges left right pair)[slot]? with _ | next
  · simp
  simp only [Option.map_eq_some_iff, Option.some.injEq, exists_eq_left']
  constructor
  · rintro ⟨_, ⟨pairs, hroute, rfl⟩, hnodup, havoid⟩
    rw [List.dropLast_cons_of_ne_nil (ne_nil_of_route hroute)] at hnodup havoid
    rw [List.nodup_cons] at hnodup
    rw [List.forall_mem_cons] at havoid
    refine ⟨havoid.1, pairs, hroute, hnodup.2, fun p hp => ?_⟩
    rw [List.mem_cons, not_or]
    exact ⟨fun heq => hnodup.1 (heq ▸ hp), havoid.2 p hp⟩
  · rintro ⟨hnew, pairs, hroute, hnodup, havoid⟩
    refine ⟨_, ⟨pairs, hroute, rfl⟩, ?_⟩
    rw [List.dropLast_cons_of_ne_nil (ne_nil_of_route hroute), List.nodup_cons,
      List.forall_mem_cons]
    exact ⟨⟨fun hp => havoid pair hp List.mem_cons_self, hnodup⟩, hnew,
      fun p hp hmem => havoid p hp (List.mem_cons_of_mem _ hmem)⟩

theorem avoiding_iff_nil (h : pair ∈ path ∨ productEdges left right pair = []) :
    Avoiding left right path pair slots ↔ slots = [] := by
  cases slots with
  | nil => exact iff_of_true avoiding_nil rfl
  | cons slot slots =>
    refine iff_of_false (fun havoiding => ?_) (List.cons_ne_nil _ _)
    obtain ⟨hnew, next, hnext, -⟩ := avoiding_cons_iff.mp havoiding
    rw [h.resolve_left hnew] at hnext
    cases hnext

end Routes

/-! ## Counting routes -/

/-- The routes that take one of the given edges first, and then one of the routes of its end. -/
def branching (edges : List NodePair) (routes : NodePair → Finset (List Nat)) :
    Finset (List Nat) :=
  Finset.univ.biUnion fun slot : Fin edges.length => (routes edges[slot]).image (slot.val :: ·)

section Branching

variable {edges : List NodePair} {routes : NodePair → Finset (List Nat)}

theorem mem_branching {slots : List Nat} : slots ∈ branching edges routes ↔
    ∃ slot rest next, slots = slot :: rest ∧ edges[slot]? = some next ∧ rest ∈ routes next := by
  simp only [branching, Finset.mem_biUnion, Finset.mem_univ, true_and, Finset.mem_image]
  constructor
  · rintro ⟨slot, rest, hrest, rfl⟩
    exact ⟨slot, rest, edges[slot], rfl, List.getElem?_eq_getElem slot.isLt, hrest⟩
  · rintro ⟨slot, rest, next, rfl, hnext, hrest⟩
    obtain ⟨hslot, rfl⟩ := List.getElem?_eq_some_iff.mp hnext
    exact ⟨⟨slot, hslot⟩, rest, hrest, rfl⟩

theorem card_branching :
    (branching edges routes).card = (edges.map fun p => (routes p).card).sum := by
  rw [branching, Finset.card_biUnion]
  · simp only [Finset.card_image_of_injective _ List.cons_injective]
    exact Fin.sum_univ_fun_getElem edges fun p => (routes p).card
  · -- routes that differ in the first slot differ
    intro slot _ slot' _ hne
    simp only [Function.onFun, Finset.disjoint_left, Finset.mem_image]
    rintro _ ⟨rest, -, rfl⟩ ⟨rest', -, heq⟩
    rw [List.cons.injEq] at heq
    exact hne (Fin.ext heq.1.symm)

end Branching

namespace Comparison

/-- There are as many routes that avoid a path as pairs looked at on behalf of a pair that is met
with the path assumed. -/
theorem exists_routes (c : Comparison) (path : List NodePair) (pair : NodePair) :
    ∃ routes : Finset (List Nat),
      (∀ slots, slots ∈ routes ↔ Avoiding c.left c.right path pair slots) ∧
      routes.card = c.visits path pair := by
  have hnone {path : List NodePair} {pair : NodePair}
      (h : pair ∈ path ∨ productEdges c.left c.right pair = []) :
      ∀ slots, slots ∈ ({[]} : Finset (List Nat)) ↔ Avoiding c.left c.right path pair slots := by
    intro slots
    rw [Finset.mem_singleton, avoiding_iff_nil h]
  induction path, pair using visits.induct c with
  | case1 path pair hmem => exact ⟨{[]}, hnone (.inl hmem), by simp [visits_of_mem hmem]⟩
  | case2 path pair hnew pending complete hd ih =>
    choose routes hroutes hcard using ih
    have hedges : productEdges c.left c.right pair = pending := productEdges_of_ok hd
    refine ⟨insert [] (branching pending routes), fun slots => ?_, ?_⟩
    · rw [Finset.mem_insert, mem_branching]
      cases slots with
      | nil => exact iff_of_true (.inl rfl) avoiding_nil
      | cons slot slots =>
        rw [avoiding_cons_iff, hedges]
        simp [hnew, hroutes]
    · have hnil : [] ∉ branching pending routes := by
        rw [mem_branching]
        rintro ⟨slot, rest, next, hslots, -⟩
        cases hslots
      rw [Finset.card_insert_of_notMem hnil, card_branching, visits_of_expand hnew hd, Nat.add_comm]
      simp only [hcard]
  | case3 path pair hnew hd =>
    refine ⟨{[]}, hnone (.inr ?_), ?_⟩
    · unfold productEdges
      split
      · rename_i d hd'
        cases d with
        | settled related => rfl
        | expand pending complete => exact (hd pending complete hd').elim
      · rfl
    · rw [visits, dif_neg hnew]
      split
      · exact (hd _ _ ‹_›).elim
      · rfl

/-- Giving up assumptions never takes fewer steps than keeping them. If the graphs are related, it
takes as many as there are routes from the pair of the roots on which all pairs but the last are
distinct. -/
theorem discharging_steps_count {left right : Graph} {a b : NodeId} (ha : left.root = some a)
    (hb : right.root = some b) (hl : left.Traversable) (hr : right.Traversable) :
    ∃ (routes : Finset (List Nat)) (related : Bool) (steps steps' : Nat),
      (∀ slots, slots ∈ routes ↔
        ∃ pairs, route left right (a, b) slots = some pairs ∧ pairs.dropLast.Nodup) ∧
      (discharging left right).report .never = .ok ⟨related, steps⟩ ∧
      (retaining left right).report .never = .ok ⟨related, steps'⟩ ∧
      steps' ≤ steps ∧ (related = true → steps = routes.card) := by
  obtain ⟨routes, hroutes, hcard⟩ := (discharging left right).exists_routes [] (a, b)
  have hstart : left.Reachable a ∧ right.Reachable b := ⟨.root ha, .root hb⟩
  obtain ⟨w, hw⟩ : ∃ w, (discharging left right).walk .never (a, b) = .ok w :=
    exists_walk (explorable_reachable hl hr) hstart
  rcases walks_agree left right (a, b) with ⟨w', v, hw', hv, hholds, hsteps⟩ | ⟨_, _, hw', -⟩
  · rw [hw, Except.ok.injEq] at hw'
    subst hw'
    have hreport := report_of_walk (roots_eq_some ha hb) hv
    rw [← hholds] at hreport
    refine ⟨routes, w.holds, w.steps, v.steps, fun slots => ?_,
      report_of_walk (roots_eq_some ha hb) hw, hreport, hsteps, fun hrelated => ?_⟩
    · simp [hroutes, Avoiding]
    · obtain ⟨hreach, hs⟩ := reaches_of_walk hw
      have hvisits := hreach.steps_add_outstanding rfl hrelated
      rw [hs, Walk.outstanding, Nat.add_zero] at hvisits
      rw [hvisits, hcard]
  · rw [hw] at hw'
    cases hw'

/-- A loop with two branches to the same node, against the same loop unrolled in part: seven edges
make up seventeen routes. -/
theorem discharging_steps_count_shared :
    let loop : Graph := ⟨#[.choice .output 0 [(0, 1), (2, 1), (3, 0)], .message .input 1 .int 0],
      some 0⟩
    let twice : Graph := ⟨#[.done, .choice .output 0 [(0, 2), (1, 0), (2, 2), (3, 3)],
      .message .input 1 .nat 3, .choice .output 0 [(0, 2), (2, 2), (3, 1)]], some 1⟩
    loop.InBounds ∧ twice.InBounds ∧
    (discharging loop twice).report .never = .ok ⟨true, 17⟩ ∧
    (retaining loop twice).report .never = .ok ⟨true, 8⟩ ∧
    ∃ (routes : Finset (List Nat)) (related : Bool) (steps steps' : Nat),
      (∀ slots, slots ∈ routes ↔
        ∃ pairs, route loop twice (0, 1) slots = some pairs ∧ pairs.dropLast.Nodup) ∧
      (discharging loop twice).report .never = .ok ⟨related, steps⟩ ∧
      (retaining loop twice).report .never = .ok ⟨related, steps'⟩ ∧
      steps' ≤ steps ∧ (related = true → steps = routes.card) := by
  intro loop twice
  have hl : loop.InBounds := by decide
  have hr : twice.InBounds := by decide
  exact ⟨hl, hr, eq_ok_of_toOption (by decide +kernel), eq_ok_of_toOption (by decide +kernel),
    discharging_steps_count rfl rfl hl.traversable hr.traversable⟩

end Comparison

end SessionGraph
