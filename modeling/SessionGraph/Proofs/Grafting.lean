import SessionGraph.Proofs.Operations
import SessionGraph.Proofs.Renaming

/-!
# When a copy can be made

A copy looks for the image of every id that the source holds, by node and then by slot, and of the
root in the end if the copy is to be rooted (`Graph.references`). It stops at the first id that has
no image (`Block.Misses`), and no other cause stops it (`Graph.graft_eq_error_iff`). If all of them
have one, the graph keeps its nodes and is followed by those of the source with all ids moved by the
same distance (`Graph.ExtendedBy`). A copy on its own is moved by nothing, so it is the source again.
-/

namespace SessionGraph

/-! ## Ids without an image -/

namespace Block

variable {block : Block} {id : NodeId} {fault : Fault}

/-- The id has no image in the block: it is not one of the source, or its image would be too large
for an id. -/
def Misses (block : Block) (id : NodeId) : Prop :=
  block.length ≤ id ∨ NodeId.limit ≤ id + block.offset

instance (block : Block) (id : NodeId) : Decidable (block.Misses id) :=
  inferInstanceAs (Decidable (_ ∨ _))

/-- An id that is not one of the source is not tried any further. -/
theorem image_eq_error_iff : block.image id = .error fault ↔
    block.Misses id ∧ fault = if block.length ≤ id then .foreign id else .idSpace := by
  unfold image NodeId.ofIndex Misses
  by_cases hid : id < block.length
  · have hle : ¬ block.length ≤ id := Nat.not_le.mpr hid
    by_cases hspace : id + block.offset < NodeId.limit
    · simp [hid, hle, hspace, Nat.not_le.mpr hspace]
    · simp [hid, hle, hspace, Nat.not_lt.mp hspace, eq_comm]
  · simp [hid, Nat.not_lt.mp hid, eq_comm]

theorem ids_eq_ok (hspace : block.offset + block.length ≤ NodeId.limit) :
    block.ids = .ok (List.range' block.offset block.length) := by
  rw [ids, mapM_eq_ok_iff, List.forall₂_same]
  intro index hindex
  rw [List.mem_range'_1] at hindex
  exact NodeId.ofIndex_eq_ok_iff.mpr ⟨Nat.lt_of_lt_of_le hindex.2 hspace, rfl⟩

/-- The images of the ids of the source are the ids of the block, and no two are the same. -/
theorem image_bijective (hspace : block.offset + block.length ≤ NodeId.limit) :
    ∃ targets, block.ids = .ok targets ∧
      (∀ id < block.length, ∃ target ∈ targets, block.image id = .ok target) ∧
      ∀ target ∈ targets, block.offset ≤ target ∧
        ∃! id, id < block.length ∧ block.image id = .ok target := by
  refine ⟨_, ids_eq_ok hspace, fun id hid => ⟨_, ?_, image_eq_ok hid hspace⟩, fun target h => ?_⟩
  · rw [List.mem_range'_1]
    omega
  · rw [List.mem_range'_1] at h
    obtain ⟨id, rfl⟩ := Nat.exists_eq_add_of_le' h.1
    have hid : id < block.length := by omega
    refine ⟨h.1, id, ⟨hid, image_eq_ok hid hspace⟩, fun id' hid' => ?_⟩
    have heq := eq_of_image hid'.2
    exact (Nat.add_right_cancel heq).symm

end Block

/-! ## The first id without an image -/

theorem Node.successors_relinkBranches (f : NodeId → Except Fault NodeId)
    (branches : List (Label × NodeId)) :
    (relinkBranches f branches).map (List.map Prod.snd) = (branches.map Prod.snd).mapM f := by
  induction branches with
  | nil => rfl
  | cons b branches ih =>
    rw [relinkBranches, List.map_cons, List.mapM_cons, ← ih]
    rcases f b.2 with _ | next
    · rfl
    · rcases relinkBranches f branches with _ | rest <;> rfl

theorem Node.successors_relink (f : NodeId → Except Fault NodeId) (n : Node) :
    (n.relink f).map successors = n.successors.mapM f := by
  cases n with
  | done => rfl
  | message polarity participant payload next =>
    rw [relink, successors, List.mapM_cons, List.mapM_nil]
    rcases f next with _ | next' <;> rfl
  | choice polarity participant branches =>
    rw [relink, successors, ← successors_relinkBranches]
    rcases relinkBranches f branches with _ | branches' <;> rfl

/-- New successors for the nodes of a list are found one after the other, in the order of the
edges. -/
theorem edges_mapM_relink (f : NodeId → Except Fault NodeId) (nodes : List Node) :
    (nodes.mapM (Node.relink f)).map (List.flatMap Node.successors) =
      (nodes.flatMap Node.successors).mapM f := by
  induction nodes with
  | nil => rfl
  | cons n nodes ih =>
    rw [List.mapM_cons, List.flatMap_cons, List.mapM_append, ← ih, ← Node.successors_relink]
    rcases n.relink f with _ | n'
    · rfl
    · rcases nodes.mapM (Node.relink f) with _ | nodes' <;> rfl

namespace Graph

variable {g g' source : Graph} {rooted : Bool} {block : Block} {fault : Fault}

/-- The ids that a copy has to find images for, in order. -/
def references (g : Graph) (rooted : Bool) : List NodeId :=
  g.edges ++ if rooted then g.root.toList else []

theorem graft_eq_error_iff_mapM : g.graft source rooted = .error fault ↔
    (source.references rooted).mapM (Block.image ⟨g.size, source.size⟩) = .error fault := by
  rw [references, edges, List.mapM_append, ← edges_mapM_relink, graft]
  generalize Block.image ⟨g.size, source.size⟩ = image
  rcases source.nodes.toList.mapM (Node.relink image) with fault' | copied
  · simp [bind, Except.bind, Except.map]
  -- all edges have been led to their images, and only the root is left
  cases rooted with
  | false => simp [bind, Except.bind, pure, Except.pure, Except.map]
  | true =>
    rcases source.root with _ | root
    · simp [bind, Except.bind, pure, Except.pure, Except.map]
    · rcases h : image root with _ | root' <;>
        simp [h, bind, Except.bind, pure, Except.pure, Except.map, Functor.map]

/-- A copy fails at the first id that has no image, and only there. -/
theorem graft_eq_error_iff : g.graft source rooted = .error fault ↔
    ∃ id, (source.references rooted).find? (Block.Misses ⟨g.size, source.size⟩ ·) = some id ∧
      fault = if source.size ≤ id then .foreign id else .idSpace := by
  rw [graft_eq_error_iff_mapM, mapM_eq_error_iff fun id => ?_]
  · refine exists_congr fun id => and_congr_right fun hfind => ?_
    have hmisses : Block.Misses ⟨g.size, source.size⟩ id := by simpa using List.find?_some hfind
    simp only [Block.image_eq_error_iff, hmisses, true_and]
  · simp only [Block.image_eq_error_iff, exists_and_left, exists_eq, and_true, decide_eq_true_eq]

theorem exists_graft_eq_error_iff : (∃ fault, g.graft source rooted = .error fault) ↔
    ∃ id ∈ source.references rooted, Block.Misses ⟨g.size, source.size⟩ id := by
  simp only [graft_eq_error_iff]
  rw [exists_comm]
  simp only [exists_and_left, exists_eq, and_true]
  rw [← Option.isSome_iff_exists, List.find?_isSome]
  simp only [decide_eq_true_eq]

theorem exists_graft_eq_ok
    (h : ∀ id ∈ source.references rooted, ¬ Block.Misses ⟨g.size, source.size⟩ id) :
    ∃ g', g.graft source rooted = .ok (g', ⟨g.size, source.size⟩) := by
  rcases hgraft : g.graft source rooted with fault | ⟨g', block⟩
  · obtain ⟨id, hid, hmisses⟩ := exists_graft_eq_error_iff.mp ⟨fault, hgraft⟩
    exact absurd hmisses (h id hid)
  · obtain ⟨-, rfl⟩ := nodes_of_graft hgraft
    exact ⟨g', rfl⟩

/-! ## What a copy adds -/

/-- The graph with the nodes of `source` behind its own is `g'`: all ids of the source are moved to
where its nodes are. -/
structure ExtendedBy (g source : Graph) (rooted : Bool) (g' : Graph) : Prop where
  size : g'.size = g.size + source.size
  kept : ∀ id < g.size, g'.node id = g.node id
  copied : ∀ id n, source.node id = .ok n → g'.node (g.size + id) = .ok (n.map (g.size + ·))
  root : g'.root = if rooted then source.root.map (g.size + ·) else g.root

theorem root_of_graft (h : g.graft source rooted = .ok (g', block)) :
    g'.root = if rooted then source.root.map (g.size + ·) else g.root := by
  obtain ⟨copied, root, rfl, rfl, -, hroot⟩ := exists_of_graft h
  cases rooted with
  | false =>
    cases hroot
    rfl
  | true =>
    rw [if_pos rfl, option_mapM_eq_ok_iff] at hroot
    generalize source.root = root₀ at hroot ⊢
    cases hroot with
    | none => rfl
    | some himage =>
      rw [Block.eq_of_image himage, Nat.add_comm]
      rfl

theorem extendedBy_of_graft (h : g.graft source rooted = .ok (g', block)) :
    g.ExtendedBy source rooted g' := by
  obtain ⟨hnodes, -⟩ := nodes_of_graft h
  have hnode (id : NodeId) : g'.node id = (g.withCopy source).node id := by
    rw [node, node, size, size, hnodes]
  refine ⟨?_, fun id hid => ?_, fun id n hn => ?_, root_of_graft h⟩
  · rw [← size_withCopy, size, hnodes, size]
  · obtain ⟨n, hn⟩ := exists_node hid
    rw [hnode, hn, node_withCopy_of_node hn]
  · rw [hnode, Nat.add_comm, node_of_withCopy hn]
    simp only [Nat.add_comm]

/-- What follows no nodes is not moved. -/
theorem ExtendedBy.eq_source (h : empty.ExtendedBy source true g') : g' = source := by
  obtain ⟨hsize, -, hcopied, hroot⟩ := h
  have hzero : empty.size = 0 := rfl
  simp only [hzero, Nat.zero_add] at hsize hcopied hroot
  have hnodes : g'.nodes = source.nodes := by
    refine Array.ext_getElem? fun id => ?_
    rcases Nat.lt_or_ge id source.size with hid | hid
    · obtain ⟨n, hn⟩ := exists_node hid
      have hn' : g'.node id = .ok n := (hcopied id n hn).trans (congrArg _ n.map_id)
      rw [node_eq_ok_iff.mp hn, node_eq_ok_iff.mp hn']
    · rw [Array.getElem?_eq_none hid, Array.getElem?_eq_none (hsize.le.trans hid)]
  have hroot : g'.root = source.root := hroot.trans Option.map_id'
  rw [Graph.mk.injEq]
  exact ⟨hnodes, hroot⟩

theorem eq_of_copy (h : source.copy = .ok g') : g' = source := by
  simp only [copy, bind_eq_ok_iff, pure_eq_ok_iff, Prod.exists] at h
  obtain ⟨g', block, hgraft, rfl⟩ := h
  exact (extendedBy_of_graft hgraft).eq_source

end Graph

namespace Workspace

variable {w w' : Workspace} {name other : String} {reply : Reply} {source : Graph}

theorem eq_of_copySource (h : w.copySource name other = .ok source) : source = w.get other := by
  unfold copySource at h
  split at h
  · exact Graph.eq_of_copy h
  · cases h
    rfl

/-- Copying one graph of a workspace over another puts the same graph in its place. -/
theorem eq_set_of_copyFrom (h : (w.act name (.copyFrom other)).Yields (w', reply)) :
    w' = w.set name (w.get other) := by
  obtain ⟨source, hsource, h⟩ := h.bind
  obtain ⟨g, hg, h⟩ := h.bind
  cases h.pure
  rw [Graph.eq_of_copy hg.lift, eq_of_copySource hsource.lift]

end Workspace

/-- A copy fails just when some id of the source, or its root if the copy is to be rooted, is not
one of its nodes or is moved past the last node id, and then it fails at the first of these. A copy
that does not fail leaves the nodes before it as they are and adds those of the source, with their
successors moved behind them and nothing else changed; the root is moved likewise, or kept. As long
as the ids suffice, the ids of the source have different images, which are the ids of the copied
nodes and not among those of the nodes before. So a graph that is copied on its own, or over another
one, is the same graph again. -/
theorem Graph.graft_exact (g source : Graph) (rooted : Bool) :
    ((∃ fault, g.graft source rooted = .error fault) ↔
      ∃ id ∈ source.references rooted, Block.Misses ⟨g.size, source.size⟩ id) ∧
    (∀ fault, g.graft source rooted = .error fault →
      ∃ id, (source.references rooted).find? (Block.Misses ⟨g.size, source.size⟩ ·) = some id ∧
        fault = (if source.size ≤ id then .foreign id else .idSpace) ∧
        fault.message = (if source.size ≤ id then NodeId.text id ++ " is not in the copied arena"
          else "node index exceeds the u32 id space")) ∧
    ((∀ id ∈ source.references rooted, ¬ Block.Misses ⟨g.size, source.size⟩ id) →
      ∃ g' block, g.graft source rooted = .ok (g', block) ∧ g.ExtendedBy source rooted g' ∧
        (g.size + source.size ≤ NodeId.limit → ∃ targets, block.ids = .ok targets ∧
          (∀ id < source.size, ∃ target ∈ targets, block.image id = .ok target) ∧
          ∀ target ∈ targets, g.size ≤ target ∧
            ∃! id, id < source.size ∧ block.image id = .ok target)) ∧
    (∀ g', source.copy = .ok g' → g' = source) ∧
    ∀ (w w' : Workspace) (name other : String) (reply : Reply),
      (w.act name (.copyFrom other)).Yields (w', reply) →
        w'.get name = w.get other ∧ ∀ name' ≠ name, w'.get name' = w.get name' := by
  refine ⟨exists_graft_eq_error_iff, fun fault h => ?_, fun h => ?_, fun g' => eq_of_copy,
    fun w w' name other reply h => ?_⟩
  · obtain ⟨id, hfind, rfl⟩ := graft_eq_error_iff.mp h
    refine ⟨id, hfind, rfl, ?_⟩
    split <;> rfl
  · obtain ⟨g', hgraft⟩ := exists_graft_eq_ok h
    exact ⟨g', _, hgraft, extendedBy_of_graft hgraft, fun hspace => Block.image_bijective hspace⟩
  · rw [Workspace.eq_set_of_copyFrom h]
    exact ⟨Workspace.get_set_self, fun name' hne => Workspace.get_set_of_ne hne⟩

/-- A loop is copied behind two nodes and over another graph. Where an edge and the root both lead out
of the source, the edge stops the copy. Behind a graph that leaves one id free, the edge to the
second node of the loop does. -/
theorem Graph.graft_exact_loop :
    let g : Graph := ⟨#[.message .output 1 .nat 1, .done], some 0⟩
    let loop : Graph := ⟨#[.choice .output 0 [(2, 1), (5, 0)], .message .input 1 .int 0], some 1⟩
    let stray : Graph := ⟨#[.choice .output 0 [(2, 0), (5, 7)], .done], some 9⟩
    let full : Graph := ⟨Array.replicate 0xffffffff .done, none⟩
    (∃ g' block targets, g.graft loop true = .ok (g', block) ∧ g.ExtendedBy loop true g' ∧
      block.ids = .ok targets ∧ ∀ target ∈ targets, g.size ≤ target ∧
        ∃! id, id < loop.size ∧ block.image id = .ok target) ∧
    (∃ fault, g.graft stray true = .error fault ∧ fault.message = "#7 is not in the copied arena") ∧
    (∃ fault, full.graft loop false = .error fault ∧
      fault.message = "node index exceeds the u32 id space") ∧
    (∃ copied, loop.copy = .ok copied ∧ copied = loop) ∧
    let w : Workspace := ⟨[("a", g), ("b", loop)], ⟨0, 0⟩⟩
    ∃ w' reply, (w.act "a" (.copyFrom "b")).Yields (w', reply) ∧ w'.get "a" = w.get "b" := by
  intro g loop stray full
  refine ⟨?_, ?_, ?_, ?_, ?_⟩
  · obtain ⟨-, -, hok, -⟩ := graft_exact g loop true
    obtain ⟨g', block, hgraft, hextended, htargets⟩ := hok (by decide)
    obtain ⟨targets, hids, -, honce⟩ := htargets (by decide)
    exact ⟨g', block, targets, hgraft, hextended, hids, honce⟩
  · obtain ⟨hfails, hfault, -⟩ := graft_exact g stray true
    obtain ⟨fault, h⟩ := hfails.mpr ⟨7, by decide, by decide⟩
    obtain ⟨id, hfind, -, hmessage⟩ := hfault fault h
    obtain rfl : id = 7 := Option.some.inj (hfind.symm.trans (by decide))
    exact ⟨fault, h, hmessage⟩
  · have hsize : full.size = 0xffffffff := Array.size_replicate
    obtain ⟨hfails, hfault, -⟩ := graft_exact full loop false
    -- the nodes are too many to be looked at, so their number is put in first
    rw [hsize] at hfails hfault
    obtain ⟨fault, h⟩ := hfails.mpr ⟨1, by decide, by decide⟩
    obtain ⟨id, hfind, -, hmessage⟩ := hfault fault h
    obtain rfl : id = 1 := Option.some.inj (hfind.symm.trans (by decide))
    exact ⟨fault, h, hmessage⟩
  · obtain ⟨-, -, -, hcopy, -⟩ := graft_exact g loop true
    have h : loop.copy = .ok loop := copy_eq_ok (by decide) (by decide)
    exact ⟨loop, h, hcopy loop h⟩
  · intro w
    obtain ⟨-, -, -, -, hover⟩ := graft_exact g loop true
    have h : (w.act "a" (.copyFrom "b")).Yields (w.set "a" loop, .nothing) := ⟨#[], #[], rfl⟩
    exact ⟨_, _, h, (hover _ _ _ _ _ h).1⟩

end SessionGraph
