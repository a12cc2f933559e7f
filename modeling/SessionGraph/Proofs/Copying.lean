import SessionGraph.Graph.Copy
import SessionGraph.Proofs.Outcome
import SessionGraph.Proofs.Simulation

/-!
# What a copy is

Where every id of a graph is that of a node and the ids suffice, a copy behind another graph is the
nodes of the source with all ids moved by the same distance (`Graph.graft_eq_ok`). A copy on its own
is the source itself (`Graph.copy_eq_ok`).
-/

namespace SessionGraph

namespace Node

/-- The same action with `f` applied to each successor. -/
def map (f : NodeId → NodeId) : Node → Node
  | .done => .done
  | .message polarity participant payload next => .message polarity participant payload (f next)
  | .choice polarity participant branches =>
    .choice polarity participant (branches.map (Prod.map id f))

@[simp]
theorem map_id (n : Node) : n.map id = n := by
  cases n <;> simp [map]

theorem map_map (f f' : NodeId → NodeId) (n : Node) : (n.map f).map f' = n.map (f' ∘ f) := by
  cases n <;> simp [map]

theorem map_congr {f f' : NodeId → NodeId} {n : Node} (h : ∀ id ∈ n.successors, f id = f' id) :
    n.map f = n.map f' := by
  cases n with
  | done => rfl
  | message => simpa [map, successors] using h
  | choice polarity participant branches =>
    simp only [map, Node.choice.injEq, true_and]
    refine List.map_congr_left fun b hb => ?_
    exact Prod.ext rfl (h b.2 (List.mem_map_of_mem hb))

@[simp]
theorem successors_map (f : NodeId → NodeId) (n : Node) :
    (n.map f).successors = n.successors.map f := by
  cases n <;> simp [map, successors]

section Relink

variable {find : NodeId → Except Fault NodeId} {f : NodeId → NodeId}

theorem relinkBranches_eq_ok {branches : List (Label × NodeId)}
    (h : ∀ b ∈ branches, find b.2 = .ok (f b.2)) :
    relinkBranches find branches = .ok (branches.map (Prod.map id f)) := by
  induction branches with
  | nil => rfl
  | cons b branches ih =>
    obtain ⟨hb, hbranches⟩ := List.forall_mem_cons.mp h
    rw [relinkBranches, hb, ih hbranches]
    rfl

theorem relink_eq_ok {n : Node} (h : ∀ id ∈ n.successors, find id = .ok (f id)) :
    n.relink find = .ok (n.map f) := by
  cases n with
  | done => rfl
  | message polarity participant payload next =>
    rw [relink, h next List.mem_cons_self]
    rfl
  | choice polarity participant branches =>
    rw [relink, relinkBranches_eq_ok fun b hb => h b.2 (List.mem_map_of_mem hb)]
    rfl

end Relink

end Node

theorem Block.image_eq_ok {block : Block} {id : Nat} (hid : id < block.length)
    (hspace : block.offset + block.length ≤ NodeId.limit) :
    block.image id = .ok (id + block.offset) := by
  rw [image, if_pos hid, NodeId.ofIndex_eq_ok_iff]
  exact ⟨by omega, rfl⟩

namespace Graph

/-- The graph with the nodes of `source` behind its own, and their ids moved accordingly. -/
def withCopy (g source : Graph) : Graph :=
  { g with nodes := g.nodes ++ source.nodes.toList.map (Node.map (· + g.size)) }

theorem toList_withCopy (g source : Graph) : (g.withCopy source).nodes.toList =
    g.nodes.toList ++ source.nodes.toList.map (Node.map (· + g.size)) :=
  Array.toList_appendList

theorem size_withCopy (g source : Graph) : (g.withCopy source).size = g.size + source.size := by
  simp only [size, ← Array.length_toList, toList_withCopy, List.length_append, List.length_map]

/-- A node is one of the graph itself, or the copy of one of the source. -/
theorem node_withCopy {g source : Graph} {id : NodeId} {n : Node}
    (h : (g.withCopy source).node id = .ok n) :
    g.node id = .ok n ∨ ∃ id₀ n₀, id = id₀ + g.size ∧ source.node id₀ = .ok n₀ ∧
      n = n₀.map (· + g.size) := by
  simp only [node_eq_ok_iff, ← Array.getElem?_toList, toList_withCopy] at h ⊢
  rcases Nat.lt_or_ge id g.nodes.toList.length with hid | hid
  · rw [List.getElem?_append_left hid] at h
    exact .inl h
  · rw [List.getElem?_append_right hid, List.getElem?_map, Option.map_eq_some_iff] at h
    obtain ⟨n₀, hn₀, rfl⟩ := h
    exact .inr ⟨_, n₀, (Nat.sub_add_cancel hid).symm, hn₀, rfl⟩

/-- A copy leaves the nodes before it alone. -/
theorem node_withCopy_of_node {g source : Graph} {id : NodeId} {n : Node} (h : g.node id = .ok n) :
    (g.withCopy source).node id = .ok n := by
  have hlt : id < g.nodes.toList.length := lt_size_of_node h
  rw [node_eq_ok_iff, ← Array.getElem?_toList] at h ⊢
  rw [toList_withCopy, List.getElem?_append_left hlt, h]

theorem node_of_withCopy {g source : Graph} {id : NodeId} {n : Node} (h : source.node id = .ok n) :
    (g.withCopy source).node (id + g.size) = .ok (n.map (· + g.size)) := by
  rw [node_eq_ok_iff, ← Array.getElem?_toList] at h ⊢
  have hge : g.nodes.toList.length ≤ id + g.size := Nat.le_add_left _ _
  rw [toList_withCopy, List.getElem?_append_right hge, List.getElem?_map,
    show id + g.size - g.nodes.toList.length = id from Nat.add_sub_cancel _ _, h]
  rfl

theorem graft_eq_ok {g source : Graph} (hsource : source.InBounds)
    (hspace : g.size + source.size ≤ NodeId.limit) (rooted : Bool) :
    g.graft source rooted =
      .ok ({ g.withCopy source with
        root := if rooted then source.root.map (· + g.size) else g.root },
        ⟨g.size, source.size⟩) := by
  have himage : ∀ id < source.size, Block.image ⟨g.size, source.size⟩ id = .ok (id + g.size) :=
    fun id hid => Block.image_eq_ok hid hspace
  have hcopied : source.nodes.toList.mapM (Node.relink (Block.image ⟨g.size, source.size⟩)) =
      .ok (source.nodes.toList.map (Node.map (· + g.size))) := by
    rw [mapM_eq_ok_iff, List.forall₂_map_right_iff, List.forall₂_same]
    intro n hn
    refine Node.relink_eq_ok fun id hid => himage id ?_
    exact hsource.2 id (List.mem_flatMap.mpr ⟨n, hn, hid⟩)
  have hroot : source.root.mapM (Block.image ⟨g.size, source.size⟩) =
      .ok (source.root.map (· + g.size)) := by
    rcases hr : source.root with _ | root
    · rfl
    · simp only [Option.mapM_some, himage root (hsource.1 root hr)]
      rfl
  cases rooted with
  | false =>
    simp only [graft, hcopied]
    rfl
  | true =>
    simp only [graft, hcopied, hroot]
    rfl

theorem copy_eq_ok {g : Graph} (hg : g.InBounds) (hspace : g.size ≤ NodeId.limit) :
    g.copy = .ok g := by
  have hsize : empty.size + g.size ≤ NodeId.limit := by simpa [empty, size] using hspace
  have hnodes : g.nodes.toList.map (Node.map (· + empty.size)) = g.nodes.toList := by
    rw [List.map_congr_left fun n _ => n.map_id, List.map_id']
  rw [copy, graft_eq_ok hg hsize true, withCopy, hnodes]
  simp [bind, Except.bind, pure, Except.pure, empty, size]

end Graph

end SessionGraph
