import SessionGraph.Proofs.Agreement
import SessionGraph.Proofs.Copying

/-!
# Coverings

A covering sends the nodes of one graph to nodes of another with the same action, and what follows
a node to what follows its image, slot by slot. What the rules demand of two nodes does not depend
on their ids, so it is the same of their images (`Node.demand_map`), and a graph cannot be told from
one that it covers (`similar_map_iff`). No order of the labels is needed for that.
-/

namespace SessionGraph

/-! ## Demands do not depend on ids -/

section Demands

variable (f f' : NodeId → NodeId)

theorem matchLabels_map (needed offered : List (Label × NodeId)) :
    matchLabels (needed.map (Prod.map id f)) (offered.map (Prod.map id f')) =
      ((matchLabels needed offered).1.map (Prod.map f f'), (matchLabels needed offered).2) := by
  induction needed generalizing offered with
  | nil => rfl
  | cons first needed ih =>
    obtain ⟨label, need⟩ := first
    have hdrop : (offered.map (Prod.map id f')).dropWhile (·.1 < label) =
        (offered.dropWhile (·.1 < label)).map (Prod.map id f') := by
      rw [List.dropWhile_map]
      rfl
    simp only [List.map_cons, Prod.map_apply, id, matchLabels]
    rw [hdrop]
    generalize List.dropWhile _ offered = dropped
    rcases dropped with _ | ⟨⟨label', offer⟩, offered'⟩
    · rfl
    · simp only [List.map_cons, Prod.map_apply, id, ih offered']
      split <;> rfl

theorem matchBranches_map (polarity : Polarity) (left right : List (Label × NodeId)) :
    polarity.matchBranches (left.map (Prod.map id f)) (right.map (Prod.map id f')) =
      ((polarity.matchBranches left right).1.map (Prod.map f f'),
        (polarity.matchBranches left right).2) := by
  cases polarity with
  | input =>
    simp only [Polarity.matchBranches, matchLabels_map, List.map_map]
    rfl
  | output => exact matchLabels_map f f' left right

/-- The demand with the given function applied to each pair it asks for. -/
def Demand.map (h : NodePair → NodePair) : Demand → Demand
  | .settled related => .settled related
  | .expand pending complete => .expand (pending.map h) complete

theorem Demand.metBy_map_iff {h : NodePair → NodePair} {R : NodePair → Prop} {d : Demand} :
    (d.map h).MetBy R ↔ d.MetBy fun p => R (h p) := by
  cases d with
  | settled related => rfl
  | expand pending complete => simp only [map, MetBy, List.forall_mem_map]

theorem Node.demand_map (l r : Node) :
    (l.map f).demand (r.map f') = (l.demand r).map (Prod.map f f') := by
  cases l <;> cases r <;> try rfl
  · simp only [map, demand]
    split <;> rfl
  · simp only [map, demand, matchBranches_map]
    split <;> rfl

end Demands

/-! ## What covers a graph cannot be told from it -/

/-- The nodes of `g'` go to nodes of `g` with the same action, their successors to the successors
of these and the root to the root. No id of `g'` points nowhere. -/
structure Graph.Covers (g' : Graph) (f : NodeId → NodeId) (g : Graph) : Prop where
  inBounds : g'.InBounds
  root : g.root = g'.root.map f
  node : ∀ id n, g'.node id = .ok n → g.node (f id) = .ok (n.map f)

/-- A graph covers itself by what leaves its ids alone. -/
theorem Graph.InBounds.covers {g : Graph} (hg : g.InBounds) {f : NodeId → NodeId}
    (hf : ∀ id < g.size, f id = id) : g.Covers f g where
  inBounds := hg
  root := by
    rcases hroot : g.root with _ | root
    · rfl
    · rw [Option.map_some, hf root (hg.1 root hroot)]
  node id₀ n hn := by
    have hmap : n.map f = n.map id :=
      Node.map_congr fun next hnext => hf next (hg.lt_of_mem_successors hn hnext)
    rw [hf id₀ (lt_size_of_node hn), hmap, Node.map_id, hn]

section Covers

variable {f f' : NodeId → NodeId} {left left' right right' : Graph} {pair : NodePair}

theorem Graph.Covers.demandAt (hl : left'.Covers f left) (hr : right'.Covers f' right)
    {d : Demand} (hd : demandAt left' right' pair = .ok d) :
    demandAt left right (pair.map f f') = .ok (d.map (Prod.map f f')) := by
  obtain ⟨l, r, hnl, hnr, rfl⟩ := demandAt_eq_ok_iff.mp hd
  exact demandAt_eq_ok_iff.mpr
    ⟨_, _, hl.node pair.1 l hnl, hr.node pair.2 r hnr, Node.demand_map f f' l r⟩

/-- Two nodes are similar exactly when the nodes they go to are. -/
theorem similar_map_iff (hl : left'.Covers f left) (hr : right'.Covers f' right)
    (hleft : pair.1 < left'.size) (hright : pair.2 < right'.size) :
    Similar left' right' pair ↔ Similar left right (pair.map f f') := by
  constructor
  · rintro ⟨R, hR, hpair⟩
    refine ⟨fun q => ∃ p, R p ∧ p.map f f' = q, ?_, pair, hpair, rfl⟩
    rintro _ ⟨p, hp, rfl⟩
    obtain ⟨d, hd, hmet⟩ := hR p hp
    refine ⟨_, hl.demandAt hr hd, Demand.metBy_map_iff.mpr (hmet.mono fun q _ hq => ?_)⟩
    exact ⟨q, hq, rfl⟩
  · rintro ⟨R, hR, hpair⟩
    refine ⟨fun p => p.1 < left'.size ∧ p.2 < right'.size ∧ R (p.map f f'), ?_,
      hleft, hright, hpair⟩
    rintro p ⟨hpl, hpr, hp⟩
    obtain ⟨l, hnl⟩ := Graph.exists_node hpl
    obtain ⟨r, hnr⟩ := Graph.exists_node hpr
    have hd : demandAt left' right' p = .ok (l.demand r) :=
      demandAt_eq_ok_iff.mpr ⟨l, r, hnl, hnr, rfl⟩
    obtain ⟨d, hd', hmet⟩ := hR _ hp
    rw [hl.demandAt hr hd, Except.ok.injEq] at hd'
    subst hd'
    refine ⟨_, hd, (Demand.metBy_map_iff.mp hmet).mono fun q hmem hq => ?_⟩
    have hsucc := Node.mem_successors_of_mem_pending hmem
    exact ⟨hl.inBounds.lt_of_mem_successors hnl hsucc.1,
      hr.inBounds.lt_of_mem_successors hnr hsucc.2, hq⟩

/-- Comparing two graphs comes to the answer that comparing those they cover comes to. -/
theorem Comparison.answers_map_iff {strategy : Strategy} {a b : NodeId}
    (hl : left'.Covers f left) (hr : right'.Covers f' right) (ha : left'.root = some a)
    (hb : right'.root = some b) (hleft : left.InBounds) (hright : right.InBounds)
    {related : Bool} :
    Answers ⟨strategy, left', right'⟩ related ↔ Answers ⟨strategy, left, right⟩ related := by
  have ha' : left.root = some (f a) := by rw [hl.root, ha, Option.map_some]
  have hb' : right.root = some (f' b) := by rw [hr.root, hb, Option.map_some]
  rw [answers_iff ha hb hl.inBounds.traversable hr.inBounds.traversable,
    answers_iff ha' hb' hleft.traversable hright.traversable,
    similar_map_iff hl hr (hl.inBounds.1 a ha) (hr.inBounds.1 b hb), Prod.map_apply]

end Covers

theorem matchLabels_self (branches : List (Label × NodeId)) :
    matchLabels branches branches = (branches.map fun b => (b.2, b.2), true) := by
  induction branches with
  | nil => rfl
  | cons b branches ih => simp [matchLabels, ih]

theorem matchBranches_self (polarity : Polarity) (branches : List (Label × NodeId)) :
    polarity.matchBranches branches branches = (branches.map fun b => (b.2, b.2), true) := by
  cases polarity <;> simp [Polarity.matchBranches, matchLabels_self]

theorem Node.metBy_demand_self (n : Node) : (n.demand n).MetBy fun p => p.1 = p.2 := by
  cases n with
  | done => rfl
  | message polarity participant payload next =>
    cases polarity <;> simp [demand, Polarity.payloadFits, Demand.MetBy]
  | choice polarity participant branches =>
    simp only [demand, and_self, if_true, matchBranches_self]
    exact ⟨rfl, List.forall_mem_map.mpr fun _ _ => rfl⟩

/-- Every node that is met from the root is similar to itself, whatever the order of its labels. -/
theorem Graph.Traversable.similar_self {g : Graph} (hg : g.Traversable) {id : NodeId}
    (hid : g.Reachable id) : Similar g g (id, id) := by
  refine ⟨fun p => p.1 = p.2 ∧ g.Reachable p.1, ?_, rfl, hid⟩
  rintro p ⟨heq, hid⟩
  obtain ⟨n, hn⟩ := exists_node (hg p.1 hid)
  refine ⟨n.demand n, demandAt_eq_ok_iff.mpr ⟨n, n, hn, heq ▸ hn, rfl⟩, ?_⟩
  refine n.metBy_demand_self.mono fun p hp heq => ⟨heq, ?_⟩
  exact .next hid hn (Node.mem_successors_of_mem_pending hp).1

theorem Comparison.exists_answer (strategy : Strategy) {left right : Graph} {a b : NodeId}
    (ha : left.root = some a) (hb : right.root = some b) (hl : left.InBounds)
    (hr : right.InBounds) : ∃ related, Answers ⟨strategy, left, right⟩ related := by
  classical
  refine ⟨decide (Similar left right (a, b)), ?_⟩
  rw [answers_iff ha hb hl.traversable hr.traversable, decide_eq_true_iff]

theorem Comparison.answers_self (strategy : Strategy) {g : Graph} {root : NodeId}
    (hroot : g.root = some root) (hg : g.InBounds) : Answers ⟨strategy, g, g⟩ true := by
  rw [answers_iff hroot hroot hg.traversable hg.traversable]
  exact iff_of_true rfl (hg.traversable.similar_self (.root hroot))

end SessionGraph
