import SessionGraph.Proofs.Labels

/-!
# Simulations

A simulation is a set of pairs of nodes that upholds itself: what the rules demand of a pair in it
is met by pairs in it (`IsSimulation`). Two nodes are similar when some simulation has their pair.

The same relation has a reading that does not mention how labels are matched: `Node.Rule` gives the
rules of subtyping one by one, and a relation is closed under them when each of its pairs follows
one. Where the labels that can be met ascend, similar nodes are those in some closed relation
(`similar_iff_closed`).
-/

namespace SessionGraph

namespace Graph

/-- The ids that are met on the way from the root. -/
inductive Reachable (g : Graph) : NodeId → Prop
  | root {id : NodeId} (h : g.root = some id) : g.Reachable id
  | next {id id' : NodeId} {n : Node} (h : g.Reachable id) (hn : g.node id = .ok n)
      (hmem : id' ∈ n.successors) : g.Reachable id'

/-- Every id that is met from the root is that of a node. -/
def Traversable (g : Graph) : Prop := ∀ id, g.Reachable id → id < g.size

/-- Every id of the graph, be it that of the root or one that an edge leads to, is that of a
node. -/
def InBounds (g : Graph) : Prop := (∀ id ∈ g.root, id < g.size) ∧ ∀ id ∈ g.edges, id < g.size

instance (g : Graph) : Decidable g.InBounds :=
  inferInstanceAs (Decidable ((∀ id ∈ g.root, id < g.size) ∧ ∀ id ∈ g.edges, id < g.size))

theorem exists_node {g : Graph} {id : NodeId} (h : id < g.size) : ∃ n, g.node id = .ok n :=
  ⟨g.nodes[id], node_eq_ok_iff.mpr (Array.getElem?_eq_getElem h)⟩

theorem node_eq_error_iff {g : Graph} {id : NodeId} {fault : Fault} :
    g.node id = .error fault ↔ g.size ≤ id ∧ fault = .outOfBounds g.size id := by
  unfold node
  split
  · rename_i n hn
    have hlt : id < g.size := (Array.getElem?_eq_some_iff.mp hn).1
    simp [Nat.not_le.mpr hlt]
  · rename_i hn
    have hle : g.size ≤ id := Array.getElem?_eq_none_iff.mp hn
    simp [hle, eq_comm]

theorem mem_nodes_of_node {g : Graph} {id : NodeId} {n : Node} (h : g.node id = .ok n) :
    n ∈ g.nodes.toList := by
  rw [node_eq_ok_iff, ← Array.getElem?_toList] at h
  exact List.mem_of_getElem? h

theorem InBounds.lt_of_mem_successors {g : Graph} {id id' : NodeId} {n : Node} (hg : g.InBounds)
    (hn : g.node id = .ok n) (hmem : id' ∈ n.successors) : id' < g.size :=
  hg.2 id' (List.mem_flatMap.mpr ⟨n, mem_nodes_of_node hn, hmem⟩)

theorem inBounds_of_node {g : Graph} (hroot : ∀ id ∈ g.root, id < g.size)
    (h : ∀ id n, g.node id = .ok n → ∀ id' ∈ n.successors, id' < g.size) : g.InBounds := by
  refine ⟨hroot, fun id' hid' => ?_⟩
  obtain ⟨n, hn, hmem⟩ := List.mem_flatMap.mp hid'
  obtain ⟨id, hid⟩ := List.mem_iff_getElem?.mp hn
  rw [Array.getElem?_toList, ← node_eq_ok_iff] at hid
  exact h id n hid id' hmem

theorem InBounds.traversable {g : Graph} (hg : g.InBounds) : g.Traversable := by
  intro id h
  cases h with
  | root h => exact hg.1 id h
  | next _ hn hmem => exact hg.lt_of_mem_successors hn hmem

end Graph

/-- The labels of a choice ascend. -/
def Node.Sorted : Node → Prop
  | .choice _ _ branches => Ascending (branches.map Prod.fst)
  | _ => True

instance : (n : Node) → Decidable n.Sorted
  | .done => .isTrue trivial
  | .message _ _ _ _ => .isTrue trivial
  | .choice _ _ branches => inferInstanceAs (Decidable (Ascending (branches.map Prod.fst)))

/-- The labels of every choice that is met from the root ascend. -/
def Graph.Sorted (g : Graph) : Prop := ∀ id n, g.Reachable id → g.node id = .ok n → n.Sorted

theorem Graph.sorted_of_forall {g : Graph} (h : ∀ n ∈ g.nodes.toList, n.Sorted) : g.Sorted :=
  fun _ n _ hn => h n (mem_nodes_of_node hn)

namespace Demand

/-- The pairs that a demand asks for. -/
def pending : Demand → List NodePair
  | .settled _ => []
  | .expand pending _ => pending

/-- The demand is met when the pairs of `R` are related. -/
def MetBy (R : NodePair → Prop) : Demand → Prop
  | .settled related => related = true
  | .expand pending complete => complete = true ∧ ∀ p ∈ pending, R p

theorem MetBy.mono {R R' : NodePair → Prop} {d : Demand} (h : d.MetBy R)
    (hR : ∀ p ∈ d.pending, R p → R' p) : d.MetBy R' := by
  cases d with
  | settled related => exact h
  | expand pending complete => exact ⟨h.1, fun p hp => hR p hp (h.2 p hp)⟩

end Demand

/-- The rule for a pair of ids, if both have nodes. -/
def demandAt (left right : Graph) (pair : NodePair) : Except Fault Demand := do
  let l ← left.node pair.1
  let r ← right.node pair.2
  return l.demand r

section Simulation

variable {left right : Graph} {pair : NodePair} {d : Demand}

theorem demandAt_eq_ok_iff : demandAt left right pair = .ok d ↔
    ∃ l r, left.node pair.1 = .ok l ∧ right.node pair.2 = .ok r ∧ l.demand r = d := by
  unfold demandAt
  rcases left.node pair.1 with _ | l <;> rcases right.node pair.2 with _ | r <;>
    simp [bind, Except.bind, pure, Except.pure]

/-- Looking up a pair fails at the left node, or at the right one if the left one is there. -/
theorem demandAt_eq_error {fault : Fault} (h : demandAt left right pair = .error fault) :
    (left.size ≤ pair.1 ∧ fault = .outOfBounds left.size pair.1) ∨
    (pair.1 < left.size ∧ right.size ≤ pair.2 ∧ fault = .outOfBounds right.size pair.2) := by
  unfold demandAt at h
  rcases hl : left.node pair.1 with fault' | l
  · rw [hl] at h
    cases h
    exact .inl (Graph.node_eq_error_iff.mp hl)
  · rcases hr : right.node pair.2 with fault' | r
    · rw [hl, hr] at h
      cases h
      exact .inr ⟨Graph.lt_size_of_node hl, Graph.node_eq_error_iff.mp hr⟩
    · rw [hl, hr] at h
      cases h

variable (left right) in
/-- What the rules demand of each pair of `R` is met by `R`. -/
def IsSimulation (R : NodePair → Prop) : Prop :=
  ∀ pair, R pair → ∃ d, demandAt left right pair = .ok d ∧ d.MetBy R

variable (left right) in
/-- Some simulation has the pair. -/
def Similar (pair : NodePair) : Prop := ∃ R, IsSimulation left right R ∧ R pair

end Simulation

/-! ## The pairs asked for are successors -/

theorem mem_of_mem_matchLabels {needed offered : List (Label × NodeId)} {p : NodePair}
    (hp : p ∈ (matchLabels needed offered).1) :
    p.1 ∈ needed.map Prod.snd ∧ p.2 ∈ offered.map Prod.snd := by
  induction needed generalizing offered with
  | nil => simp [matchLabels] at hp
  | cons first needed ih =>
    simp only [matchLabels] at hp
    split at hp
    · rename_i label' offer offered' hdrop
      have hsub : ((label', offer) :: offered').Sublist offered :=
        hdrop ▸ List.dropWhile_sublist _
      have hsub := hsub.map Prod.snd
      split at hp
      · rcases List.mem_cons.mp hp with rfl | hp
        · exact ⟨by simp, hsub.subset (by simp)⟩
        · have hmem := ih hp
          exact ⟨List.mem_cons_of_mem _ hmem.1, hsub.subset (List.mem_cons_of_mem _ hmem.2)⟩
      · simp at hp
    · simp at hp

theorem mem_of_mem_matchBranches {polarity : Polarity} {left right : List (Label × NodeId)}
    {p : NodePair} (hp : p ∈ (polarity.matchBranches left right).1) :
    p.1 ∈ left.map Prod.snd ∧ p.2 ∈ right.map Prod.snd := by
  cases polarity with
  | input =>
    simp only [Polarity.matchBranches, List.mem_map] at hp
    obtain ⟨q, hq, rfl⟩ := hp
    exact (mem_of_mem_matchLabels hq).symm
  | output => exact mem_of_mem_matchLabels hp

theorem Node.mem_successors_of_mem_pending {l r : Node} {p : NodePair}
    (hp : p ∈ (l.demand r).pending) : p.1 ∈ l.successors ∧ p.2 ∈ r.successors := by
  unfold Node.demand at hp
  split at hp
  · simp [Demand.pending] at hp
  · split at hp
    · simp only [Demand.pending, List.mem_singleton] at hp
      subst hp
      simp [Node.successors]
    · simp [Demand.pending] at hp
  · split at hp
    · exact mem_of_mem_matchBranches hp
    · simp [Demand.pending] at hp
  · simp [Demand.pending] at hp

/-- What the rules ask for after a pair that is met from the roots is met from the roots. -/
theorem Graph.Reachable.of_mem_pending {left right : Graph} {pair p : NodePair} {d : Demand}
    (hl : left.Reachable pair.1) (hr : right.Reachable pair.2)
    (hd : demandAt left right pair = .ok d) (hp : p ∈ d.pending) :
    left.Reachable p.1 ∧ right.Reachable p.2 := by
  obtain ⟨l, r, hnl, hnr, rfl⟩ := demandAt_eq_ok_iff.mp hd
  have hmem := Node.mem_successors_of_mem_pending hp
  exact ⟨.next hl hnl hmem.1, .next hr hnr hmem.2⟩

/-! ## The rules one by one -/

/-- The rules of subtyping. A received payload may be a larger one on the left and a sent one a
smaller one; every branch that the left side takes is there on the right, and every branch that the
right side awaits is there on the left. -/
inductive Node.Rule (R : NodeId → NodeId → Prop) : Node → Node → Prop
  | done : Node.Rule R .done .done
  | receive {participant : Participant} {payload payload' : Payload} {next next' : NodeId}
      (hpayload : payload'.fits payload = true) (hnext : R next next') :
      Node.Rule R (.message .input participant payload next)
        (.message .input participant payload' next')
  | send {participant : Participant} {payload payload' : Payload} {next next' : NodeId}
      (hpayload : payload.fits payload' = true) (hnext : R next next') :
      Node.Rule R (.message .output participant payload next)
        (.message .output participant payload' next')
  | branch {participant : Participant} {branches branches' : List (Label × NodeId)}
      (h : ∀ label next, (label, next) ∈ branches →
        ∃ next', (label, next') ∈ branches' ∧ R next next') :
      Node.Rule R (.choice .output participant branches) (.choice .output participant branches')
  | select {participant : Participant} {branches branches' : List (Label × NodeId)}
      (h : ∀ label next', (label, next') ∈ branches' →
        ∃ next, (label, next) ∈ branches ∧ R next next') :
      Node.Rule R (.choice .input participant branches) (.choice .input participant branches')

/-- Every pair of `R` is a pair of nodes that follows a rule with its continuations in `R`. -/
def ClosedUnderRules (left right : Graph) (R : NodeId → NodeId → Prop) : Prop :=
  ∀ a b, R a b → ∃ l r, left.node a = .ok l ∧ right.node b = .ok r ∧ l.Rule R r

section Rules

variable {R : NodePair → Prop}

theorem matchBranches_metBy_output {branches branches' : List (Label × NodeId)}
    (h : Ascending (branches.map Prod.fst)) (h' : Ascending (branches'.map Prod.fst))
    (hR : ∀ label next, (label, next) ∈ branches →
      ∃ next', (label, next') ∈ branches' ∧ R (next, next')) :
    (Demand.expand (Polarity.output.matchBranches branches branches').1
      (Polarity.output.matchBranches branches branches').2).MetBy R :=
  (matchLabels_related_iff h h').mpr fun b hb => hR b.1 b.2 hb

theorem matchBranches_metBy_input {branches branches' : List (Label × NodeId)}
    (h : Ascending (branches.map Prod.fst)) (h' : Ascending (branches'.map Prod.fst))
    (hR : ∀ label next', (label, next') ∈ branches' →
      ∃ next, (label, next) ∈ branches ∧ R (next, next')) :
    (Demand.expand (Polarity.input.matchBranches branches branches').1
      (Polarity.input.matchBranches branches branches').2).MetBy R := by
  have hrelated := (matchLabels_related_iff (R := fun p => R p.swap) h' h).mpr
    fun b hb => hR b.1 b.2 hb
  exact ⟨hrelated.1, List.forall_mem_map.mpr hrelated.2⟩

/-- Nodes whose demand is met follow a rule, in whatever order their labels are. -/
theorem Node.rule_of_metBy_demand {l r : Node} (h : (l.demand r).MetBy R) :
    l.Rule (fun a b => R (a, b)) r := by
  unfold Node.demand at h
  split at h
  · exact .done
  · split at h
    · rename_i polarity participant payload next polarity' participant' payload' next' hrule
      obtain ⟨rfl, rfl, hfits⟩ := hrule
      have hnext := h.2 _ List.mem_cons_self
      cases polarity with
      | input => exact .receive hfits hnext
      | output => exact .send hfits hnext
    · exact absurd h Bool.false_ne_true
  · split at h
    · rename_i polarity participant branches polarity' participant' branches' hrule
      obtain ⟨rfl, rfl⟩ := hrule
      obtain ⟨hcomplete, hpending⟩ := h
      cases polarity with
      | input =>
        have hfound := exists_of_matchLabels (R := fun p => R p.swap) hcomplete
          (List.forall_mem_map.mp hpending)
        exact .select fun label next' hmem => hfound (label, next') hmem
      | output =>
        exact .branch fun label next hmem =>
          exists_of_matchLabels hcomplete hpending (label, next) hmem
    · exact absurd h Bool.false_ne_true
  · exact absurd h Bool.false_ne_true

theorem Node.metBy_demand_iff_rule {l r : Node} (hl : l.Sorted) (hr : r.Sorted) :
    (l.demand r).MetBy R ↔ l.Rule (fun a b => R (a, b)) r := by
  refine ⟨rule_of_metBy_demand, fun h => ?_⟩
  cases h with
  | done => rfl
  | receive hfits hnext => simp [Node.demand, Polarity.payloadFits, hfits, Demand.MetBy, hnext]
  | send hfits hnext => simp [Node.demand, Polarity.payloadFits, hfits, Demand.MetBy, hnext]
  | branch h =>
    simp only [Node.demand, and_self, if_true]
    exact matchBranches_metBy_output hl hr h
  | select h =>
    simp only [Node.demand, and_self, if_true]
    exact matchBranches_metBy_input hl hr h

end Rules

/-- Similar nodes that are met from the roots. -/
def Related (left right : Graph) (a b : NodeId) : Prop :=
  Similar left right (a, b) ∧ left.Reachable a ∧ right.Reachable b

theorem closedUnderRules_related {left right : Graph} (hl : left.Sorted) (hr : right.Sorted) :
    ClosedUnderRules left right (Related left right) := by
  rintro a b ⟨⟨R, hR, hab⟩, ha, hb⟩
  obtain ⟨d, hd, hmet⟩ := hR _ hab
  -- only what is met from the roots has labels that ascend
  have hmet : d.MetBy fun p => Related left right p.1 p.2 :=
    hmet.mono fun p hp hRp => ⟨⟨R, hR, hRp⟩, Graph.Reachable.of_mem_pending ha hb hd hp⟩
  obtain ⟨l, r, hnl, hnr, rfl⟩ := demandAt_eq_ok_iff.mp hd
  exact ⟨l, r, hnl, hnr, (Node.metBy_demand_iff_rule (hl _ _ ha hnl) (hr _ _ hb hnr)).mp hmet⟩

/-- Similar nodes are those in some relation that is closed under the rules. -/
theorem similar_iff_closed {left right : Graph} (hl : left.Sorted) (hr : right.Sorted)
    {a b : NodeId} (ha : left.Reachable a) (hb : right.Reachable b) :
    Similar left right (a, b) ↔ ∃ R, ClosedUnderRules left right R ∧ R a b := by
  constructor
  · intro h
    exact ⟨Related left right, closedUnderRules_related hl hr, h, ha, hb⟩
  · rintro ⟨R, hR, hab⟩
    refine ⟨fun p => R p.1 p.2 ∧ left.Reachable p.1 ∧ right.Reachable p.2, ?_, hab, ha, hb⟩
    rintro ⟨a, b⟩ ⟨hab, ha, hb⟩
    obtain ⟨l, r, hnl, hnr, hrule⟩ := hR a b hab
    have hd : demandAt left right (a, b) = .ok (l.demand r) :=
      demandAt_eq_ok_iff.mpr ⟨l, r, hnl, hnr, rfl⟩
    have hmet : (l.demand r).MetBy fun p => R p.1 p.2 :=
      (Node.metBy_demand_iff_rule (hl _ _ ha hnl) (hr _ _ hb hnr)).mpr hrule
    exact ⟨_, hd, hmet.mono fun p hp hRp => ⟨hRp, Graph.Reachable.of_mem_pending ha hb hd hp⟩⟩

end SessionGraph
