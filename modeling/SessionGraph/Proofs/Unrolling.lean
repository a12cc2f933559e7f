import SessionGraph.Graph.Unrolling
import SessionGraph.Proofs.Covering

/-!
# Unrolling keeps the type

An unrolled graph is a row of copies of the graph, so its ids modulo the size of the graph are ids
of the graph. This is a covering as long as edges lead to the right place modulo the size, and it
stays one when a copy is added (`Graph.Covers.withCopy`) and when an edge is led elsewhere in the
same class (`Graph.Covers.setSuccessor`). Unrolling does nothing else.
-/

namespace SessionGraph

/-- One successor of a node is exchanged and nothing else changes. -/
theorem Node.exists_setSuccessor {n : Node} {slot : Nat} {old : NodeId}
    (hslot : n.successors[slot]? = some old) (target : NodeId) :
    ∃ n', n.setSuccessor slot target = .ok n' ∧ n'.successors = n.successors.set slot target ∧
      ∀ f : NodeId → NodeId, f target = f old → n'.map f = n.map f := by
  cases n with
  | done => simp [successors] at hslot
  | message polarity participant payload next =>
    obtain ⟨rfl, rfl⟩ : slot = 0 ∧ next = old := by
      cases slot <;> simp_all [successors]
    exact ⟨_, rfl, rfl, fun f hf => by simp [map, hf]⟩
  | choice polarity participant branches =>
    simp only [successors, List.getElem?_map, Option.map_eq_some_iff] at hslot
    obtain ⟨⟨label, _⟩, hbranch, rfl⟩ := hslot
    refine ⟨.choice polarity participant (branches.set slot (label, target)), ?_, ?_, ?_⟩
    · simp [setSuccessor, hbranch]
    · simp [successors, List.map_set]
    · intro f hf
      have hsame : (branches.map (Prod.map id f))[slot]? = some (label, f target) := by
        rw [List.getElem?_map, hbranch, hf]
        rfl
      obtain ⟨hlt, hget⟩ := List.getElem?_eq_some_iff.mp hsame
      simp only [map, List.map_set, Node.choice.injEq, true_and, Prod.map_apply, id]
      rw [← hget, List.set_getElem_self]

namespace Graph

theorem exists_slot_of_mem_edgesTo {g : Graph} {target : NodeId} {edge : NodeId × Nat}
    (h : edge ∈ g.edgesTo target) :
    ∃ n, g.node edge.1 = .ok n ∧ n.successors[edge.2]? = some target := by
  simp only [edgesTo, List.mem_flatMap, List.mem_map, List.mem_filter, Prod.exists] at h
  obtain ⟨n, id, hn, next, slot, ⟨hslot, hnext⟩, rfl⟩ := h
  rw [List.mem_zipIdx_iff_getElem?] at hn hslot
  refine ⟨n, ?_, ?_⟩
  · rwa [node_eq_ok_iff, ← Array.getElem?_toList]
  · rw [hslot, of_decide_eq_true hnext]

theorem node_of_setIfInBounds {g : Graph} {id id' : NodeId} {n n' m : Node}
    (hn : g.node id = .ok n)
    (hm : Graph.node { g with nodes := g.nodes.setIfInBounds id n' } id' = .ok m) :
    (id' = id ∧ m = n') ∨ g.node id' = .ok m := by
  rw [node_eq_ok_iff] at hm ⊢
  by_cases hid : id' = id
  · subst hid
    rw [Array.getElem?_setIfInBounds_self_of_lt (lt_size_of_node hn), Option.some.injEq] at hm
    exact .inl ⟨rfl, hm.symm⟩
  · rw [Array.getElem?_setIfInBounds_ne (Ne.symm hid)] at hm
    exact .inr hm

namespace Covers

variable {g g' : Graph} {f : NodeId → NodeId}

/-- An edge of a covering graph may be led to any other node over the same one. -/
theorem setSuccessor (h : g'.Covers f g) {id : NodeId} {n : Node} {slot : Nat} {old target : NodeId}
    (hn : g'.node id = .ok n) (hslot : n.successors[slot]? = some old)
    (hsame : f target = f old) (htarget : target < g'.size) :
    ∃ g'', g'.setSuccessor id slot target = .ok g'' ∧ g''.Covers f g ∧ g''.size = g'.size := by
  obtain ⟨n', hset, hsuccessors, hmap⟩ := Node.exists_setSuccessor hslot target
  have hsize : (g'.nodes.setIfInBounds id n').size = g'.size := Array.size_setIfInBounds
  refine ⟨⟨g'.nodes.setIfInBounds id n', g'.root⟩, ?_, ⟨?_, h.root, ?_⟩, hsize⟩
  · rw [Graph.setSuccessor, hn]
    simp only [bind, Except.bind, hset]
    rfl
  · refine inBounds_of_node (fun id' hid' => ?_) fun id' m hm next hnext => ?_
    · rw [Graph.size, hsize]
      exact h.inBounds.1 id' hid'
    · rw [Graph.size, hsize]
      rcases node_of_setIfInBounds hn hm with ⟨rfl, rfl⟩ | hm
      · rw [hsuccessors] at hnext
        rcases List.mem_or_eq_of_mem_set hnext with hmem | rfl
        · exact h.inBounds.lt_of_mem_successors hn hmem
        · exact htarget
      · exact h.inBounds.lt_of_mem_successors hm hnext
  · intro id' m hm
    rcases node_of_setIfInBounds hn hm with ⟨rfl, rfl⟩ | hm
    · rw [hmap f hsame]
      exact h.node id' n hn
    · exact h.node id' m hm

/-- A copy of a graph may be put behind one that covers it. -/
theorem withCopy (h : g'.Covers f g) (hg : g.InBounds)
    (hf : ∀ id < g.size, f (id + g'.size) = id) : (g'.withCopy g).Covers f g where
  inBounds := by
    refine inBounds_of_node (fun id hid => ?_) fun id n hn next hnext => ?_ <;> rw [size_withCopy]
    · exact Nat.lt_add_right _ (h.inBounds.1 id hid)
    · rcases node_withCopy hn with hn | ⟨id₀, n₀, rfl, hn₀, rfl⟩
      · exact Nat.lt_add_right _ (h.inBounds.lt_of_mem_successors hn hnext)
      · rw [Node.successors_map, List.mem_map] at hnext
        obtain ⟨next₀, hnext₀, rfl⟩ := hnext
        rw [Nat.add_comm g'.size]
        exact Nat.add_lt_add_right (hg.lt_of_mem_successors hn₀ hnext₀) _
  root := h.root
  node id n hn := by
    rcases node_withCopy hn with hn | ⟨id₀, n₀, rfl, hn₀, rfl⟩
    · exact h.node id n hn
    · have hback : (n₀.map (· + g'.size)).map f = n₀.map id := by
        rw [Node.map_map]
        exact Node.map_congr fun next hnext => hf next (hg.lt_of_mem_successors hn₀ hnext)
      rw [hf id₀ (lt_size_of_node hn₀), hback, Node.map_id, hn₀]

end Covers

section Unroll

variable {g v : Graph} {root : NodeId} {copies : Nat}

/-- Splicing in one more copy keeps the ids modulo the size a covering. -/
theorem Covers.spliceCopy (h : v.Covers (· % g.size) g) (hsize : v.size = copies * g.size)
    (hg : g.InBounds) (hroot : g.root = some root)
    (hspace : (copies + 1) * g.size ≤ NodeId.limit) {edge : NodeId × Nat}
    (hedge : edge ∈ g.edgesTo root) :
    ∃ v', g.spliceCopy root v edge = .ok v' ∧ v'.Covers (· % g.size) g ∧
      v'.size = (copies + 1) * g.size := by
  have hroot' : root < g.size := hg.1 root hroot
  have hmod : ∀ id < g.size, (id + v.size) % g.size = id := by
    intro id hid
    rw [hsize, Nat.add_mul_mod_self_right, Nat.mod_eq_of_lt hid]
  have hspace' : v.size + g.size ≤ NodeId.limit := by
    rwa [hsize, ← Nat.succ_mul]
  have hcopy : (v.withCopy g).Covers (· % g.size) g := h.withCopy hg hmod
  -- The edge is still there in the first copy, and leads to some node over the root.
  obtain ⟨n₀, hn₀, hslot₀⟩ := exists_slot_of_mem_edgesTo hedge
  have hid : edge.1 < g.size := lt_size_of_node hn₀
  obtain ⟨n, hn⟩ : ∃ n, (v.withCopy g).node edge.1 = .ok n := by
    refine exists_node (Nat.lt_of_lt_of_le hid ?_)
    rw [size_withCopy]
    exact Nat.le_add_left _ _
  have hover := hcopy.node edge.1 n hn
  rw [Nat.mod_eq_of_lt hid, hn₀, Except.ok.injEq] at hover
  rw [hover, Node.successors_map, List.getElem?_map, Option.map_eq_some_iff] at hslot₀
  obtain ⟨old, hslot, hold⟩ := hslot₀
  have htarget : root + v.size < (v.withCopy g).size := by
    rw [size_withCopy, Nat.add_comm]
    exact Nat.add_lt_add_left hroot' _
  obtain ⟨v', hv', hcovers, hsize'⟩ :=
    hcopy.setSuccessor hn hslot ((hmod root hroot').trans hold.symm) htarget
  refine ⟨v', ?_, hcovers, by rw [hsize', size_withCopy, hsize, Nat.succ_mul]⟩
  rw [Graph.spliceCopy, graft_eq_ok hg hspace' false]
  have himage : Block.image ⟨v.size, g.size⟩ root = .ok (root + v.size) :=
    Block.image_eq_ok hroot' hspace'
  simp only [bind, Except.bind, himage]
  exact hv'

/-- Splicing in a copy for each of some edges to the root. -/
theorem Covers.foldlM_spliceCopy (h : v.Covers (· % g.size) g) (hsize : v.size = copies * g.size)
    (hg : g.InBounds) (hroot : g.root = some root)
    {edges : List (NodeId × Nat)} (hedges : ∀ edge ∈ edges, edge ∈ g.edgesTo root)
    (hspace : (copies + edges.length) * g.size ≤ NodeId.limit) :
    ∃ u, edges.foldlM (g.spliceCopy root) v = .ok u ∧ u.Covers (· % g.size) g := by
  induction edges generalizing v copies with
  | nil => exact ⟨v, rfl, h⟩
  | cons edge edges ih =>
    obtain ⟨hedge, hedges⟩ := List.forall_mem_cons.mp hedges
    rw [List.length_cons, Nat.add_comm edges.length, ← Nat.add_assoc] at hspace
    obtain ⟨v', hv', hcovers, hsize'⟩ := h.spliceCopy hsize hg hroot
      (Nat.le_trans (Nat.mul_le_mul_right _ (Nat.le_add_right _ _)) hspace) hedge
    obtain ⟨u, hu, hcovers'⟩ := ih hcovers hsize' hedges hspace
    exact ⟨u, by rw [List.foldlM_cons, hv']; exact hu, hcovers'⟩

theorem exists_unroll (hg : g.InBounds) (hroot : g.root = some root)
    (hspace : (g.unrollingCopies + 1) * g.size ≤ NodeId.limit) :
    ∃ u, g.unroll = .ok u ∧ u.Covers (· % g.size) g := by
  have hself : g.Covers (· % g.size) g := hg.covers fun _ hid => Nat.mod_eq_of_lt hid
  simp only [unrollingCopies, hroot, Nat.add_comm _ 1] at hspace
  have hone : g.size ≤ (1 + (g.edgesTo root).length) * g.size :=
    Nat.le_mul_of_pos_left _ (Nat.add_pos_left Nat.one_pos _)
  obtain ⟨u, hu, hcovers⟩ := hself.foldlM_spliceCopy (Nat.one_mul _).symm hg hroot
    (fun _ hedge => hedge) hspace
  refine ⟨u, ?_, hcovers⟩
  rw [unroll, copy_eq_ok hg (Nat.le_trans hone hspace), hroot]
  exact hu

/-- An unrolled graph and the graph itself are related both ways, and neither can be told from the
other by comparing it with a third. -/
theorem answers_unroll (hroot : g.root = some root) (hg : g.InBounds)
    (hspace : (g.unrollingCopies + 1) * g.size ≤ NodeId.limit) :
    ∃ u, g.unroll = .ok u ∧ ∀ strategy,
      Comparison.Answers ⟨strategy, g, u⟩ true ∧ Comparison.Answers ⟨strategy, u, g⟩ true ∧
      ∀ (s : Graph) (start : NodeId), s.root = some start → s.InBounds →
        (∃ related, Comparison.Answers ⟨strategy, u, s⟩ related ∧
          Comparison.Answers ⟨strategy, g, s⟩ related) ∧
        ∃ related, Comparison.Answers ⟨strategy, s, u⟩ related ∧
          Comparison.Answers ⟨strategy, s, g⟩ related := by
  obtain ⟨u, hu, hcovers⟩ := exists_unroll hg hroot hspace
  obtain ⟨first, hfirst, -⟩ : ∃ first, u.root = some first ∧ first % g.size = root := by
    rw [← Option.map_eq_some_iff, ← hroot, hcovers.root]
  have hself : ∀ {s : Graph}, s.InBounds → s.Covers id s := fun hs => hs.covers fun _ _ => rfl
  refine ⟨u, hu, fun strategy => ⟨?_, ?_, fun s start hstart hs => ⟨?_, ?_⟩⟩⟩
  · rw [Comparison.answers_map_iff (hself hg) hcovers hroot hfirst hg hg]
    exact Comparison.answers_self strategy hroot hg
  · rw [Comparison.answers_map_iff hcovers (hself hg) hfirst hroot hg hg]
    exact Comparison.answers_self strategy hroot hg
  · obtain ⟨related, hrelated⟩ := Comparison.exists_answer strategy hroot hstart hg hs
    refine ⟨related, ?_, hrelated⟩
    rwa [Comparison.answers_map_iff hcovers (hself hs) hfirst hstart hg hs]
  · obtain ⟨related, hrelated⟩ := Comparison.exists_answer strategy hstart hroot hs hg
    refine ⟨related, ?_, hrelated⟩
    rwa [Comparison.answers_map_iff (hself hs) hcovers hstart hfirst hs hg]

/-- A label that comes twice and leads back both times, labels that do not ascend, and a node that
is not met from the root but leads to it. -/
theorem answers_unroll_tangle :
    let g : Graph := ⟨#[.choice .output 0 [(5, 1), (2, 0), (2, 0)], .message .input 1 .nat 0,
      .message .output 2 .bool 0], some 0⟩
    let s : Graph := ⟨#[.message .input 1 .nat 1, .choice .output 0 [(5, 0), (2, 1), (2, 1)]],
      some 1⟩
    g.unrollingCopies = 4 ∧ g.InBounds ∧ s.InBounds ∧ ∃ u, g.unroll = .ok u ∧
      Comparison.Answers ⟨.discharging, g, u⟩ true ∧ Comparison.Answers ⟨.retaining, u, g⟩ true ∧
      (∃ related, Comparison.Answers ⟨.retaining, u, s⟩ related ∧
        Comparison.Answers ⟨.retaining, g, s⟩ related) ∧
      ∃ related, Comparison.Answers ⟨.discharging, s, u⟩ related ∧
        Comparison.Answers ⟨.discharging, s, g⟩ related := by
  intro g s
  have hg : g.InBounds := by decide
  have hs : s.InBounds := by decide
  obtain ⟨u, hu, h⟩ := answers_unroll (g := g) rfl hg (by decide)
  obtain ⟨hleft, -, hother⟩ := h .discharging
  obtain ⟨-, hright, hother'⟩ := h .retaining
  exact ⟨rfl, hg, hs, u, hu, hleft, hright, (hother' s 1 rfl hs).1, (hother s 1 rfl hs).2⟩

end Unroll

end Graph

end SessionGraph
