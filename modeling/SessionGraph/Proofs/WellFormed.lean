import SessionGraph.Graph.Unrolling
import SessionGraph.Proofs.Outcome
import SessionGraph.Proofs.Simulation

/-!
# Well-formed graphs

A graph is well formed when its root and all its edges lead to its nodes and the labels of each
choice ascend. Graphs may be changed at will, but the operations that work on whole graphs keep them
well formed whenever they come to a result: copies, exchanged edges and unrolling.
-/

namespace SessionGraph

/-! ## Nodes -/

namespace Node

variable {n n' : Node} {bound bound' : Nat}

/-- The labels of the node ascend and its successors are below `bound`. -/
def Within (bound : Nat) (n : Node) : Prop := n.Sorted ∧ ∀ id ∈ n.successors, id < bound

theorem Within.mono (h : n.Within bound) (hle : bound ≤ bound') : n.Within bound' :=
  ⟨h.1, fun id hid => Nat.lt_of_lt_of_le (h.2 id hid) hle⟩

theorem relinkBranches_cons_eq_ok_iff {f : NodeId → Except Fault NodeId} {label : Label}
    {next : NodeId} {branches branches' : List (Label × NodeId)} :
    relinkBranches f ((label, next) :: branches) = .ok branches' ↔
      ∃ next' rest, f next = .ok next' ∧ relinkBranches f branches = .ok rest ∧
        branches' = (label, next') :: rest := by
  simp only [relinkBranches, bind_eq_ok_iff, pure_eq_ok_iff]
  constructor
  · rintro ⟨next', hnext, rest, hrest, h⟩
    exact ⟨next', rest, hnext, hrest, h⟩
  · rintro ⟨next', rest, hnext, hrest, h⟩
    exact ⟨next', hnext, rest, hrest, h⟩

theorem relinkBranches_spec {f : NodeId → Except Fault NodeId}
    {branches branches' : List (Label × NodeId)} (h : relinkBranches f branches = .ok branches') :
    branches'.map Prod.fst = branches.map Prod.fst ∧ ∀ b ∈ branches', ∃ id, f id = .ok b.2 := by
  induction branches generalizing branches' with
  | nil =>
    cases h
    exact ⟨rfl, fun _ h => absurd h List.not_mem_nil⟩
  | cons b branches ih =>
    obtain ⟨next', rest, hnext, hrest, rfl⟩ := relinkBranches_cons_eq_ok_iff.mp h
    obtain ⟨hlabels, himages⟩ := ih hrest
    exact ⟨by rw [List.map_cons, List.map_cons, hlabels],
      List.forall_mem_cons.mpr ⟨⟨b.2, hnext⟩, himages⟩⟩

theorem within_of_relink {f : NodeId → Except Fault NodeId} (hn : n.Sorted)
    (hf : ∀ id id', f id = .ok id' → id' < bound) (h : n.relink f = .ok n') : n'.Within bound := by
  cases n with
  | done =>
    cases h
    exact ⟨trivial, fun _ h => absurd h List.not_mem_nil⟩
  | message polarity participant payload next =>
    simp only [relink, bind_eq_ok_iff, pure_eq_ok_iff] at h
    obtain ⟨next', hnext, rfl⟩ := h
    refine ⟨trivial, fun id hid => ?_⟩
    rw [List.mem_singleton.mp hid]
    exact hf next next' hnext
  | choice polarity participant branches =>
    simp only [relink, bind_eq_ok_iff, pure_eq_ok_iff] at h
    obtain ⟨branches', hbranches, rfl⟩ := h
    obtain ⟨hlabels, himages⟩ := relinkBranches_spec hbranches
    refine ⟨?_, fun id hid => ?_⟩
    · rw [Sorted, hlabels]
      exact hn
    · obtain ⟨b, hb, rfl⟩ := List.mem_map.mp hid
      obtain ⟨id, hid⟩ := himages b hb
      exact hf id b.2 hid

theorem Within.setSuccessor {slot : Nat} {target : NodeId} (hn : n.Within bound)
    (htarget : target < bound) (h : n.setSuccessor slot target = .ok n') : n'.Within bound := by
  unfold Node.setSuccessor at h
  split at h
  · cases h
    exact ⟨trivial, fun id hid => (List.mem_singleton.mp hid) ▸ htarget⟩
  · rename_i polarity participant branches
    split at h
    · rename_i label _ hbranch
      cases h
      refine ⟨?_, fun id hid => ?_⟩
      · -- the branch keeps its label
        have hlabel : (branches.map Prod.fst)[slot]? = some label := by
          rw [List.getElem?_map, hbranch]
          rfl
        obtain ⟨hlt, hget⟩ := List.getElem?_eq_some_iff.mp hlabel
        rw [Sorted, List.map_set, ← hget, List.set_getElem_self]
        exact hn.1
      · rw [successors, List.map_set] at hid
        rcases List.mem_or_eq_of_mem_set hid with hid | rfl
        · exact hn.2 id hid
        · exact htarget
    · cases h
  · cases h

end Node

theorem Block.lt_of_image {block : Block} {id id' : NodeId}
    (h : block.image id = .ok id') : id' < block.offset + block.length := by
  unfold Block.image at h
  split at h
  · rename_i hid
    obtain ⟨-, rfl⟩ := NodeId.ofIndex_eq_ok_iff.mp h
    rw [Nat.add_comm]
    exact Nat.add_lt_add_left hid _
  · cases h

/-! ## Graphs -/

namespace Graph

variable {g g' source : Graph}

/-- The root and all edges lead to nodes of the graph, and the labels of each choice ascend. -/
structure WellFormed (g : Graph) : Prop where
  root : ∀ id ∈ g.root, id < g.size
  nodes : ∀ n ∈ g.nodes.toList, n.Within g.size

theorem WellFormed.inBounds (hg : g.WellFormed) : g.InBounds := by
  refine ⟨hg.root, fun id hid => ?_⟩
  obtain ⟨n, hn, hid⟩ := List.mem_flatMap.mp hid
  exact (hg.nodes n hn).2 id hid

theorem wellFormed_empty : empty.WellFormed := ⟨nofun, nofun⟩

theorem wellFormed_of_nodes {nodes : List Node} {root : NodeId} (hroot : root < nodes.length)
    (hnodes : ∀ n ∈ nodes, n.Within nodes.length) : WellFormed ⟨nodes.toArray, some root⟩ := by
  refine ⟨fun id hid => ?_, hnodes⟩
  obtain rfl := Option.some.inj hid
  exact hroot

theorem WellFormed.push {id : NodeId} {n : Node} (hg : g.WellFormed) (hn : n.Within (g.size + 1))
    (h : g.push n = .ok (id, g')) : g'.WellFormed ∧ id = g.size ∧ g'.size = g.size + 1 := by
  simp only [Graph.push, bind_eq_ok_iff, NodeId.ofIndex_eq_ok_iff, pure_eq_ok_iff,
    Prod.mk.injEq] at h
  obtain ⟨_, ⟨-, rfl⟩, rfl, rfl⟩ := h
  have hsize : Graph.size { g with nodes := g.nodes.push n } = g.size + 1 := Array.size_push _
  refine ⟨⟨fun id hid => ?_, fun m hm => ?_⟩, rfl, hsize⟩
  · rw [hsize]
    exact Nat.lt_succ_of_lt (hg.root id hid)
  · rw [hsize]
    rw [Array.toList_push, List.mem_append, List.mem_singleton] at hm
    rcases hm with hm | rfl
    · exact (hg.nodes m hm).mono (Nat.le_succ _)
    · exact hn

theorem WellFormed.setSuccessor {id target : NodeId} {slot : Nat} (hg : g.WellFormed)
    (htarget : target < g.size) (h : g.setSuccessor id slot target = .ok g') :
    g'.WellFormed ∧ g'.size = g.size := by
  simp only [Graph.setSuccessor, bind_eq_ok_iff, pure_eq_ok_iff] at h
  obtain ⟨n, hn, n', hset, rfl⟩ := h
  have hsize : Graph.size { g with nodes := g.nodes.setIfInBounds id n' } = g.size :=
    Array.size_setIfInBounds
  refine ⟨⟨fun id hid => ?_, fun m hm => ?_⟩, hsize⟩
  · rw [hsize]
    exact hg.root id hid
  · rw [hsize]
    rw [Array.toList_setIfInBounds] at hm
    rcases List.mem_or_eq_of_mem_set hm with hm | rfl
    · exact hg.nodes m hm
    · exact (hg.nodes n (mem_nodes_of_node hn)).setSuccessor htarget hset

/-- What a copy behind a graph consists of. -/
theorem exists_of_graft {rooted : Bool} {block : Block}
    (h : g.graft source rooted = .ok (g', block)) :
    ∃ (copied : List Node) (root : Option NodeId), g' = ⟨g.nodes ++ copied, root⟩ ∧
      block = ⟨g.size, source.size⟩ ∧
      source.nodes.toList.mapM (Node.relink block.image) = .ok copied ∧
      (if rooted then source.root.mapM block.image else .ok g.root) = .ok root := by
  cases rooted with
  | false =>
    simp only [Graph.graft, Bool.false_eq_true, if_false, bind_eq_ok_iff, pure_eq_ok_iff,
      Prod.mk.injEq] at h
    obtain ⟨copied, hcopied, root, hroot, rfl, rfl⟩ := h
    exact ⟨copied, root, rfl, rfl, hcopied, hroot⟩
  | true =>
    simp only [Graph.graft, if_true, bind_eq_ok_iff, pure_eq_ok_iff, Prod.mk.injEq] at h
    obtain ⟨copied, hcopied, root, hroot, rfl, rfl⟩ := h
    exact ⟨copied, root, rfl, rfl, hcopied, hroot⟩

theorem WellFormed.graft {rooted : Bool} {block : Block} (hg : g.WellFormed)
    (hsource : source.WellFormed) (h : g.graft source rooted = .ok (g', block)) :
    g'.WellFormed ∧ g'.size = g.size + source.size ∧ block = ⟨g.size, source.size⟩ := by
  obtain ⟨copied, root, rfl, rfl, hcopied, hroot⟩ := exists_of_graft h
  have hsize : Graph.size ⟨g.nodes ++ copied, root⟩ = g.size + source.size := by
    simp only [Graph.size, ← Array.length_toList, Array.toList_appendList, List.length_append,
      (mapM_eq_ok_iff.mp hcopied).length_eq]
  refine ⟨⟨fun id hid => ?_, fun n hn => ?_⟩, hsize, rfl⟩
  · rw [hsize]
    cases rooted with
    | false =>
      cases hroot
      exact Nat.lt_add_right _ (hg.root id hid)
    | true =>
      obtain rfl : root = some id := hid
      rw [if_pos rfl, option_mapM_eq_ok_iff] at hroot
      generalize source.root = root at hroot
      cases hroot with
      | some himage => exact Block.lt_of_image himage
  · rw [hsize]
    rw [Array.toList_appendList, List.mem_append] at hn
    rcases hn with hn | hn
    · exact (hg.nodes n hn).mono (Nat.le_add_right _ _)
    · obtain ⟨n₀, hn₀, hrelink⟩ := exists_of_mem_mapM hcopied hn
      exact Node.within_of_relink (hsource.nodes n₀ hn₀).1 (fun _ _ => Block.lt_of_image) hrelink

theorem WellFormed.copy (hg : g.WellFormed) (h : g.copy = .ok g') : g'.WellFormed := by
  simp only [Graph.copy, bind_eq_ok_iff, pure_eq_ok_iff, Prod.exists] at h
  obtain ⟨g'', block, hgraft, rfl⟩ := h
  exact (wellFormed_empty.graft hg hgraft).1

theorem WellFormed.spliceCopy {root : NodeId} {v v' : Graph} {edge : NodeId × Nat}
    (hg : g.WellFormed) (hv : v.WellFormed) (h : g.spliceCopy root v edge = .ok v') :
    v'.WellFormed := by
  simp only [Graph.spliceCopy, bind_eq_ok_iff, Prod.exists] at h
  obtain ⟨w, block, hgraft, target, htarget, hset⟩ := h
  obtain ⟨hw, hsize, rfl⟩ := hv.graft hg hgraft
  refine (hw.setSuccessor ?_ hset).1
  rw [hsize]
  exact Block.lt_of_image htarget

theorem WellFormed.unroll (hg : g.WellFormed) (h : g.unroll = .ok g') : g'.WellFormed := by
  simp only [Graph.unroll, bind_eq_ok_iff] at h
  obtain ⟨first, hcopy, h⟩ := h
  have hfirst := hg.copy hcopy
  clear hcopy
  split at h
  · cases h
    exact hfirst
  · rename_i root hroot
    -- what is spliced in is a copy of `g` each time, so any list of edges will do
    generalize g.edgesTo root = edges at h
    induction edges generalizing first with
    | nil =>
      cases h
      exact hfirst
    | cons edge edges ih =>
      rw [List.foldlM_cons, bind_eq_ok_iff] at h
      obtain ⟨v, hv, h⟩ := h
      exact ih v (hg.spliceCopy hfirst hv) h

end Graph

end SessionGraph
