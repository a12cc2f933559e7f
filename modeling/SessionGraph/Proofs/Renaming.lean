import Mathlib.Order.Monotone.Basic
import SessionGraph.Proofs.Lockstep
import SessionGraph.Proofs.WellFormed

/-!
# Names do not matter

A comparison tells ids and participants apart and looks at the order of labels. Other names that
keep these differences and this order for all that is met from the roots (`Renaming`) change neither
its answer nor its steps: what is asked for in the other names is the renaming of what is asked for
in the old ones, so the two comparisons are in lockstep (`Renaming.mirrors`). What is not met from
the roots is not looked at. A copy behind another graph is such a renaming.
-/

namespace SessionGraph

/-! ## Other names -/

namespace Node

/-- The same action with another participant and other labels. -/
def relabel (participants : Participant → Participant) (labels : Label → Label) : Node → Node
  | .done => .done
  | .message polarity participant payload next =>
    .message polarity (participants participant) payload next
  | .choice polarity participant branches =>
    .choice polarity (participants participant) (branches.map (Prod.map labels id))

/-- The labels of a choice. -/
def labels : Node → List Label
  | .choice _ _ branches => branches.map Prod.fst
  | _ => []

@[simp]
theorem relabel_id (n : Node) : n.relabel id id = n := by
  cases n <;> simp [relabel]

end Node

section Labels

variable {labels : Label → Label} {T : Set Label} {needed offered : List (Label × NodeId)}

theorem dropWhile_lt_relabel (hlabels : StrictMonoOn labels T) {label : Label} (hlabel : label ∈ T)
    (hoffered : ∀ b ∈ offered, b.1 ∈ T) :
    (offered.map (Prod.map labels id)).dropWhile (·.1 < labels label) =
      (offered.dropWhile (·.1 < label)).map (Prod.map labels id) := by
  induction offered with
  | nil => rfl
  | cons b offered ih =>
    rw [List.forall_mem_cons] at hoffered
    have hlt := hlabels.lt_iff_lt hoffered.1 hlabel
    simp only [List.map_cons, Prod.map_fst, List.dropWhile_cons, decide_eq_true_eq, hlt,
      ih hoffered.2]
    split <;> rfl

theorem matchLabels_relabel (hlabels : StrictMonoOn labels T) (hneeded : ∀ b ∈ needed, b.1 ∈ T)
    (hoffered : ∀ b ∈ offered, b.1 ∈ T) :
    matchLabels (needed.map (Prod.map labels id)) (offered.map (Prod.map labels id)) =
      matchLabels needed offered := by
  induction needed generalizing offered with
  | nil => rfl
  | cons first needed ih =>
    obtain ⟨label, need⟩ := first
    rw [List.forall_mem_cons] at hneeded
    have hrest : ∀ b ∈ offered.dropWhile (·.1 < label), b.1 ∈ T :=
      fun b hb => hoffered b ((List.dropWhile_sublist _).subset hb)
    simp only [List.map_cons, Prod.map_apply, id, matchLabels]
    rw [dropWhile_lt_relabel hlabels hneeded.1 hoffered]
    generalize offered.dropWhile _ = rest at hrest ⊢
    rcases rest with _ | ⟨⟨label', offer⟩, rest⟩
    · rfl
    · rw [List.forall_mem_cons] at hrest
      simp only [List.map_cons, Prod.map_apply, id, ih hneeded.2 hrest.2,
        hlabels.injOn.eq_iff hrest.1 hneeded.1]

theorem matchBranches_relabel (hlabels : StrictMonoOn labels T) (polarity : Polarity)
    {left right : List (Label × NodeId)} (hleft : ∀ b ∈ left, b.1 ∈ T)
    (hright : ∀ b ∈ right, b.1 ∈ T) :
    polarity.matchBranches (left.map (Prod.map labels id)) (right.map (Prod.map labels id)) =
      polarity.matchBranches left right := by
  cases polarity with
  | input => simp only [Polarity.matchBranches, matchLabels_relabel hlabels hright hleft]
  | output => exact matchLabels_relabel hlabels hleft hright

end Labels

/-- The rules ask the same of two nodes when participants are told apart as before and labels stay
in order. -/
theorem Node.demand_relabel {participants : Participant → Participant} {labels : Label → Label}
    {S : Set Participant} {T : Set Label} (hparticipants : Set.InjOn participants S)
    (hlabels : StrictMonoOn labels T) {l r : Node} (hl : ∀ p ∈ l.participant?, p ∈ S)
    (hr : ∀ p ∈ r.participant?, p ∈ S) (hl' : ∀ label ∈ l.labels, label ∈ T)
    (hr' : ∀ label ∈ r.labels, label ∈ T) :
    (l.relabel participants labels).demand (r.relabel participants labels) = l.demand r := by
  cases l <;> cases r <;> try rfl
  · have heq := hparticipants.eq_iff (hl _ rfl) (hr _ rfl)
    simp only [relabel, demand, heq]
  · have heq := hparticipants.eq_iff (hl _ rfl) (hr _ rfl)
    have hmatch (polarity : Polarity) := matchBranches_relabel hlabels polarity
      (List.forall_mem_map.mp hl') (List.forall_mem_map.mp hr')
    simp only [relabel, demand, heq, hmatch]

namespace Graph

/-- The participants of the nodes that are met from the root. -/
def participants (g : Graph) : Set Participant :=
  {participant | ∃ id n, g.Reachable id ∧ g.node id = .ok n ∧ participant ∈ n.participant?}

/-- The labels of the nodes that are met from the root. -/
def labels (g : Graph) : Set Label :=
  {label | ∃ id n, g.Reachable id ∧ g.node id = .ok n ∧ label ∈ n.labels}

/-- What is met from the root of `g` is found in `g'` under the given names, and different nodes
of it are found in different places. -/
structure RenamedTo (g : Graph) (ids : NodeId → NodeId) (participants : Participant → Participant)
    (labels : Label → Label) (g' : Graph) : Prop where
  root : g'.root = g.root.map ids
  node : ∀ id n, g.Reachable id → g.node id = .ok n →
    g'.node (ids id) = .ok ((n.relabel participants labels).map ids)
  injOn : Set.InjOn ids {id | g.Reachable id}

/-- Names can be checked node by node. -/
theorem renamedTo_of_forall {g g' : Graph} {ids : NodeId → NodeId}
    {participants : Participant → Participant} {labels : Label → Label} (hg : g.InBounds)
    (hroot : g'.root = g.root.map ids)
    (hnodes : ∀ id < g.size,
      g'.nodes[ids id]? = g.nodes[id]?.map fun n => (n.relabel participants labels).map ids)
    (hids : ∀ id < g.size, ∀ id' < g.size, ids id = ids id' → id = id') :
    g.RenamedTo ids participants labels g' where
  root := hroot
  node id n _ hn := by
    rw [node_eq_ok_iff, hnodes id (lt_size_of_node hn), node_eq_ok_iff.mp hn]
    rfl
  injOn id hid id' hid' := hids id (hg.traversable id hid) id' (hg.traversable id' hid')

theorem renamedTo_self (g : Graph) : g.RenamedTo id id id g where
  root := by simp
  node _ n _ hn := by simpa using hn
  injOn := Set.injOn_id _

end Graph

/-- Other names for two graphs: ids on either side, and participants and labels that are the same
for both. Only what is met from the roots needs to be named. -/
structure Renaming (left right left' right' : Graph) where
  leftIds : NodeId → NodeId
  rightIds : NodeId → NodeId
  participants : Participant → Participant
  labels : Label → Label
  left_renamedTo : left.RenamedTo leftIds participants labels left'
  right_renamedTo : right.RenamedTo rightIds participants labels right'
  injOn_participants : Set.InjOn participants (left.participants ∪ right.participants)
  strictMonoOn_labels : StrictMonoOn labels (left.labels ∪ right.labels)

/-- Both nodes of the pair are met from the roots. -/
def Met (left right : Graph) (p : NodePair) : Prop := left.Reachable p.1 ∧ right.Reachable p.2

namespace Renaming

variable {left right left' right' : Graph}

/-- Where a pair of nodes is found. -/
def pair (names : Renaming left right left' right') : NodePair → NodePair :=
  Prod.map names.leftIds names.rightIds

theorem injOn_pair (names : Renaming left right left' right') :
    Set.InjOn names.pair {p | Met left right p} := by
  intro p hp q hq heq
  simp only [pair, Prod.map, Prod.mk.injEq] at heq
  exact Prod.ext (names.left_renamedTo.injOn hp.1 hq.1 heq.1)
    (names.right_renamedTo.injOn hp.2 hq.2 heq.2)

theorem demandAt_pair (names : Renaming left right left' right') {p : NodePair}
    (hp : Met left right p) {d : Demand} (hd : demandAt left right p = .ok d) :
    demandAt left' right' (names.pair p) = .ok (d.map names.pair) := by
  obtain ⟨hl, hr⟩ := hp
  obtain ⟨l, r, hnl, hnr, rfl⟩ := demandAt_eq_ok_iff.mp hd
  refine demandAt_eq_ok_iff.mpr ⟨_, _, names.left_renamedTo.node p.1 l hl hnl,
    names.right_renamedTo.node p.2 r hr hnr, ?_⟩
  rw [Node.demand_map, Node.demand_relabel names.injOn_participants names.strictMonoOn_labels]
  · rfl
  · exact fun participant h => .inl ⟨p.1, l, hl, hnl, h⟩
  · exact fun participant h => .inr ⟨p.2, r, hr, hnr, h⟩
  · exact fun label h => .inl ⟨p.1, l, hl, hnl, h⟩
  · exact fun label h => .inr ⟨p.2, r, hr, hnr, h⟩

theorem mirrors (names : Renaming left right left' right') (strategy : Strategy)
    (hl : left.Traversable) (hr : right.Traversable) :
    Comparison.Mirrors ⟨strategy, left, right⟩ ⟨strategy, left', right'⟩ (Met left right)
      names.pair where
  strategy := rfl
  explorable := explorable_reachable hl hr
  demandAt _ _ hp hd := names.demandAt_pair hp hd
  injOn := names.injOn_pair

/-- In other names, the same report comes of a comparison, however the polls are answered. -/
theorem exists_report {strategy : Strategy} (names : Renaming left right left' right')
    {a b : NodeId} (ha : left.root = some a) (hb : right.root = some b) (hl : left.Traversable)
    (hr : right.Traversable) (polls : Polls) :
    ∃ report, Comparison.report ⟨strategy, left, right⟩ polls = .ok report ∧
      Comparison.report ⟨strategy, left', right'⟩ polls = .ok report := by
  have ha' : left'.root = some (names.leftIds a) := by rw [names.left_renamedTo.root, ha]; rfl
  have hb' : right'.root = some (names.rightIds b) := by rw [names.right_renamedTo.root, hb]; rfl
  have hmet : Met left right (a, b) := ⟨.root ha, .root hb⟩
  exact (names.mirrors strategy hl hr).exists_report hmet (Comparison.roots_eq_some ha hb)
    (Comparison.roots_eq_some ha' hb') polls

end Renaming

/-! ## Copies -/

theorem Node.eq_map_of_relink {find : NodeId → Except Fault NodeId} {f : NodeId → NodeId}
    (hfind : ∀ id id', find id = .ok id' → id' = f id) {n n' : Node}
    (h : n.relink find = .ok n') : n' = n.map f := by
  cases n with
  | done =>
    cases h
    rfl
  | message polarity participant payload next =>
    simp only [relink, bind_eq_ok_iff, pure_eq_ok_iff] at h
    obtain ⟨next', hnext, rfl⟩ := h
    rw [map, hfind next next' hnext]
  | choice polarity participant branches =>
    simp only [relink, bind_eq_ok_iff, pure_eq_ok_iff] at h
    obtain ⟨branches', hbranches, rfl⟩ := h
    rw [map, Node.choice.injEq]
    refine ⟨rfl, rfl, ?_⟩
    induction branches generalizing branches' with
    | nil =>
      cases hbranches
      rfl
    | cons b branches ih =>
      obtain ⟨next', rest, hnext, hrest, rfl⟩ := relinkBranches_cons_eq_ok_iff.mp hbranches
      rw [List.map_cons, ← ih rest hrest, hfind b.2 next' hnext]
      rfl

theorem Block.eq_of_image {block : Block} {id id' : NodeId} (h : block.image id = .ok id') :
    id' = id + block.offset := by
  unfold Block.image at h
  split at h
  · exact (NodeId.ofIndex_eq_ok_iff.mp h).2
  · cases h

namespace Graph

variable {g g' source : Graph} {rooted : Bool} {block : Block} {a root : NodeId}

/-- If a copy can be made at all, its nodes are those of the source with all ids moved. -/
theorem nodes_of_graft (h : g.graft source rooted = .ok (g', block)) :
    g'.nodes = (g.withCopy source).nodes ∧ block = ⟨g.size, source.size⟩ := by
  obtain ⟨copied, root, rfl, rfl, hcopied, -⟩ := exists_of_graft h
  have hmap : List.Forall₂ (fun n n' => n' = n.map (· + g.size)) source.nodes.toList copied :=
    (mapM_eq_ok_iff.mp hcopied).imp fun _ _ =>
      Node.eq_map_of_relink fun _ _ => Block.eq_of_image
  have hcopied : copied = source.nodes.toList.map (Node.map (· + g.size)) := by
    rw [← List.forall₂_eq_eq_eq, List.forall₂_map_right_iff]
    exact hmap.flip
  exact ⟨by rw [hcopied]; rfl, rfl⟩

theorem renamedTo_of_graft (h : g.graft source rooted = .ok (g', block))
    (ha : source.root = some a) (hroot : block.image a = .ok root) :
    source.RenamedTo (· + g.size) id id (g'.withRoot root) := by
  obtain ⟨hnodes, rfl⟩ := nodes_of_graft h
  refine ⟨?_, fun id n _ hn => ?_, fun _ _ _ _ heq => Nat.add_right_cancel heq⟩
  · rw [ha, Block.eq_of_image hroot]
    rfl
  · have hcopy := node_of_withCopy (g := g) hn
    rw [node_eq_ok_iff, ← hnodes, ← node_eq_ok_iff] at hcopy
    rw [Node.relabel_id]
    exact hcopy

end Graph

/-- Putting a copy of the left graph that lies behind another graph in its place is a renaming. -/
def Renaming.ofGraft {g g' left right : Graph} {rooted : Bool} {block : Block} {a root : NodeId}
    (h : g.graft left rooted = .ok (g', block)) (ha : left.root = some a)
    (hroot : block.image a = .ok root) : Renaming left right (g'.withRoot root) right where
  leftIds := (· + g.size)
  rightIds := id
  participants := id
  labels := id
  left_renamedTo := Graph.renamedTo_of_graft h ha hroot
  right_renamedTo := right.renamedTo_self
  injOn_participants := Set.injOn_id _
  strictMonoOn_labels := strictMono_id.strictMonoOn _

namespace Comparison

/-- A comparison answers the same after as many steps when what is met from the roots is given other
names that keep ids and participants apart and labels in order, whatever else the graphs hold. So it
does when the left graph is replaced by a copy of it behind any graph, and such a copy can be made
as long as the node ids suffice. -/
theorem report_unchanged (strategy : Strategy) (polls : Polls) {left right : Graph} {a b : NodeId}
    (ha : left.root = some a) (hb : right.root = some b) (hl : left.Traversable)
    (hr : right.Traversable) :
    (∀ left' right', Renaming left right left' right' →
      ∃ r, report ⟨strategy, left, right⟩ polls = .ok r ∧
        report ⟨strategy, left', right'⟩ polls = .ok r) ∧
    ∀ (g : Graph) (rooted : Bool),
      (∀ g' block root, g.graft left rooted = .ok (g', block) → block.image a = .ok root →
        ∃ r, report ⟨strategy, left, right⟩ polls = .ok r ∧
          report ⟨strategy, g'.withRoot root, right⟩ polls = .ok r) ∧
      (left.InBounds → g.size + left.size ≤ NodeId.limit →
        ∃ g' block root, g.graft left rooted = .ok (g', block) ∧ block.image a = .ok root) := by
  refine ⟨fun left' right' names => names.exists_report ha hb hl hr polls,
    fun g rooted => ⟨fun g' block root hgraft hroot => ?_, fun hbounds hspace => ?_⟩⟩
  · exact (Renaming.ofGraft hgraft ha hroot).exists_report ha hb hl hr polls
  · exact ⟨_, _, _, Graph.graft_eq_ok hbounds hspace rooted,
      Block.image_eq_ok (hbounds.1 a ha) hspace⟩

/-- Two loops whose nodes, participants and labels are all numbered anew, among nodes that are not
met, and a copy of the first of them behind another graph. -/
theorem report_unchanged_loops :
    let left : Graph := ⟨#[.choice .output 0 [(0, 1), (5, 0)], .message .input 1 .int 0], some 0⟩
    let right : Graph := ⟨#[.choice .output 0 [(0, 1), (3, 1), (5, 0)], .message .input 1 .nat 0],
      some 0⟩
    let left' : Graph := ⟨#[.done, .message .output 4 .bool 0, .message .input 4 .int 3,
      .choice .output 3 [(0, 2), (10, 3)]], some 3⟩
    let right' : Graph := ⟨#[.done, .choice .output 3 [(0, 2), (6, 2), (10, 1)],
      .message .input 4 .nat 1], some 1⟩
    let g : Graph := ⟨#[.message .output 4 .bool 1, .done], none⟩
    left.InBounds ∧ right.InBounds ∧
    report ⟨.discharging, left, right⟩ .never = .ok ⟨true, 4⟩ ∧
    (∃ r, report ⟨.discharging, left, right⟩ .never = .ok r ∧
      report ⟨.discharging, left', right'⟩ .never = .ok r) ∧
    ∃ g' block root, g.graft left false = .ok (g', block) ∧ block.image 0 = .ok root ∧
      ∃ r, report ⟨.discharging, left, right⟩ .never = .ok r ∧
        report ⟨.discharging, g'.withRoot root, right⟩ .never = .ok r := by
  intro left right left' right' g
  have hl : left.InBounds := by decide
  have hr : right.InBounds := by decide
  let names : Renaming left right left' right' :=
    { leftIds := fun id => 3 - id
      rightIds := fun id => id + 1
      participants := fun participant => participant + 3
      labels := fun label => 2 * label
      left_renamedTo := Graph.renamedTo_of_forall hl rfl (by decide) (by decide)
      right_renamedTo := Graph.renamedTo_of_forall hr rfl (by decide) (by decide)
      injOn_participants := fun _ _ _ _ heq => Nat.add_right_cancel heq
      strictMonoOn_labels := fun _ _ _ _ hlt => Nat.mul_lt_mul_of_pos_left hlt Nat.two_pos }
  obtain ⟨hnames, hcopies⟩ :=
    report_unchanged .discharging .never rfl rfl hl.traversable hr.traversable
  obtain ⟨g', block, root, hgraft, hroot⟩ := (hcopies g false).2 hl (by decide)
  exact ⟨hl, hr, eq_ok_of_toOption (by decide +kernel), hnames left' right' names,
    g', block, root, hgraft, hroot, (hcopies g false).1 g' block root hgraft hroot⟩

end Comparison

end SessionGraph
