import SessionGraph.Proofs.Guarded
import SessionGraph.Proofs.Splicing
import SessionGraph.Term.Translate

/-!
# Trees of loops

However it is grown, a tree of loops is a binary tree whose open ends all lead back to the root
(`LoopTree`). Putting one more node at an open end keeps it one: this edge now leads to the new
node, which brings two open ends, and all other edges stay (`Grown`). The open ends that a tree is
grown at are always its edges to the root, each of them once, so there is one to draw and no node is
cut off.

All nodes of such a tree do the same, so it covers the loop of a single node, and no two of them can
be told apart.
-/

namespace SessionGraph

/-! ## Edges -/

namespace Graph

variable {g g' : Graph} {id target : NodeId} {slot : Nat}

theorem mem_edgesTo_iff : (id, slot) ∈ g.edgesTo target ↔
    ∃ n, g.node id = .ok n ∧ n.successors[slot]? = some target := by
  simp only [List.mem_iff_getElem?, getElem?_edgesTo_iff]
  constructor
  · rintro ⟨j, n, hn, hslot, -⟩
    exact ⟨n, hn, hslot⟩
  · rintro ⟨n, hn, hslot⟩
    exact ⟨_, n, hn, hslot, rfl⟩

theorem nodup_edgesTo (g : Graph) (target : NodeId) : (g.edgesTo target).Nodup := by
  rw [List.nodup_iff_getElem?_ne_getElem?]
  intro i j hlt hj heq
  -- the place of an edge is told by the edge
  rw [List.getElem?_eq_getElem hj] at heq
  obtain ⟨-, -, -, hi⟩ := getElem?_edgesTo_iff.mp heq
  obtain ⟨-, -, -, hj⟩ := getElem?_edgesTo_iff.mp (List.getElem?_eq_getElem hj)
  exact Nat.ne_of_lt hlt (hi.symm.trans hj)

theorem eq_of_mem_edgesTo {target' : NodeId} {edge : NodeId × Nat} (h : edge ∈ g.edgesTo target)
    (h' : edge ∈ g.edgesTo target') : target = target' := by
  obtain ⟨n, hn, hslot⟩ := mem_edgesTo_iff.mp h
  obtain ⟨n', hn', hslot'⟩ := mem_edgesTo_iff.mp h'
  obtain rfl := Except.ok.inj (hn.symm.trans hn')
  exact Option.some.inj (hslot.symm.trans hslot')

theorem push_eq_ok_iff {n : Node} : g.push n = .ok (id, g') ↔
    g.size < NodeId.limit ∧ id = g.size ∧ g' = ⟨g.nodes.push n, g.root⟩ := by
  simp only [push, bind_eq_ok_iff, NodeId.ofIndex_eq_ok_iff, pure_eq_ok_iff, Prod.mk.injEq]
  constructor
  · rintro ⟨_, ⟨hlt, rfl⟩, rfl, rfl⟩
    exact ⟨hlt, rfl, rfl⟩
  · rintro ⟨hlt, rfl, rfl⟩
    exact ⟨_, ⟨hlt, rfl⟩, rfl, rfl⟩

theorem node_push {n m : Node} : Graph.node ⟨g.nodes.push n, g.root⟩ id = .ok m ↔
    (id = g.size ∧ m = n) ∨ g.node id = .ok m := by
  rw [node_eq_ok_iff, node_eq_ok_iff, Array.getElem?_push]
  by_cases hid : id = g.nodes.size
  · simp [hid, size, eq_comm]
  · simp [hid, size]

theorem mem_edgesTo_push {n : Node} :
    (id, slot) ∈ Graph.edgesTo ⟨g.nodes.push n, g.root⟩ target ↔
      (id, slot) ∈ g.edgesTo target ∨ (id = g.size ∧ n.successors[slot]? = some target) := by
  simp only [mem_edgesTo_iff, node_push]
  constructor
  · rintro ⟨m, ⟨rfl, rfl⟩ | hm, hslot⟩
    · exact .inr ⟨rfl, hslot⟩
    · exact .inl ⟨m, hm, hslot⟩
  · rintro (⟨m, hm, hslot⟩ | ⟨rfl, hslot⟩)
    · exact ⟨m, .inr hm, hslot⟩
    · exact ⟨n, .inl ⟨rfl, rfl⟩, hslot⟩

theorem mem_edgesTo_setSuccessor {id' next : NodeId} {slot' : Nat} {n n' : Node}
    (hn : g.node id' = .ok n) (hslot' : slot' < n.successors.length) (hn' : g'.node id' = .ok n')
    (hsuccessors : n'.successors = n.successors.set slot' next)
    (hkeep : ∀ id ≠ id', g'.node id = g.node id) :
    (id, slot) ∈ g'.edgesTo target ↔
      if (id, slot) = (id', slot') then target = next else (id, slot) ∈ g.edgesTo target := by
  simp only [mem_edgesTo_iff, Prod.mk.injEq]
  by_cases hid : id = id'
  · subst hid
    simp only [hn, hn', Except.ok.injEq, exists_eq_left', hsuccessors, true_and, List.getElem?_set]
    by_cases hslot : slot = slot'
    · simp [hslot, hslot', eq_comm]
    · simp [hslot, Ne.symm hslot]
  · simp [hid, hkeep id hid]

end Graph

/-! ## Runs of draws -/

namespace Drawing

variable {σ α β : Type} {x : Drawing σ α} {f : α → Drawing σ β} {a : α} {s s' : σ} {fault : Fault}

theorem run_bind_of_ok (h : x.run s = .ok (a, s')) : (x >>= f).run s = (f a).run s' := by
  rw [StateT.run_bind, h]
  rfl

theorem run_bind_of_error (h : x.run s = .error fault) : (x >>= f).run s = .error fault := by
  rw [StateT.run_bind, h]
  rfl

theorem run_lift_of_ok {y : Except Fault α} (h : y = .ok a) :
    (liftM y : Drawing σ α).run s = .ok (a, s) := by
  rw [h]
  rfl

theorem run_lift_of_error {y : Except Fault α} (h : y = .error fault) :
    (liftM y : Drawing σ α).run s = .error fault := by
  rw [h]
  rfl

end Drawing

namespace LoopFamily

variable {σ : Type} {source : Source σ} {count : Nat} {g : Graph}

/-! ## Loop trees -/

/-- A choice between two labels. -/
def fork (first second : NodeId) : Node := .choice .output 0 [(0, first), (1, second)]

/-- The graph is a binary tree of forks that starts at the node 0: one edge leads to each other
node, from a smaller id. All edges that are left lead to the root, and they are one more than the
nodes. -/
structure LoopTree (count : Nat) (g : Graph) : Prop where
  size : g.size = count
  root : g.root = some 0
  node : ∀ id < count, ∃ first < count, ∃ second < count, g.node id = .ok (fork first second)
  parent : ∀ id, 0 < id → id < count → ∃ parent slot, g.edgesTo id = [(parent, slot)] ∧ parent < id
  ends : (g.edgesTo 0).length = count + 1

theorem loopTree_openNode : LoopTree 1 ⟨#[openNode], some 0⟩ where
  size := rfl
  root := rfl
  node id hid := by
    obtain rfl := Nat.lt_one_iff.mp hid
    exact ⟨0, Nat.one_pos, 0, Nat.one_pos, rfl⟩
  parent id hpos hid := absurd hid (Nat.not_lt.mpr hpos)
  ends := rfl

theorem exists_setSuccessor_fork {bound : Nat} {first second old target : NodeId} {slot : Nat}
    (hfirst : first < bound) (hsecond : second < bound) (htarget : target < bound)
    (hslot : (fork first second).successors[slot]? = some old) :
    ∃ first' < bound, ∃ second' < bound,
      (fork first second).setSuccessor slot target = .ok (fork first' second') ∧
      (fork first' second').successors = (fork first second).successors.set slot target := by
  match slot with
  | 0 => exact ⟨target, htarget, second, hsecond, rfl, rfl⟩
  | 1 => exact ⟨first, hfirst, target, htarget, rfl, rfl⟩
  | slot + 2 => cases hslot

namespace LoopTree

theorem lt_of_mem_edgesTo (h : LoopTree count g) {target : NodeId} {edge : NodeId × Nat}
    (hedge : edge ∈ g.edgesTo target) : edge.1 < count ∧ target < count := by
  obtain ⟨n, hn, hslot⟩ := Graph.mem_edgesTo_iff.mp hedge
  have hid : edge.1 < count := h.size ▸ Graph.lt_size_of_node hn
  obtain ⟨first, hfirst, second, hsecond, hfork⟩ := h.node edge.1 hid
  obtain rfl := Except.ok.inj (hn.symm.trans hfork)
  refine ⟨hid, ?_⟩
  have hmem := List.mem_of_getElem? hslot
  simp only [fork, Node.successors, List.map_cons, List.map_nil, List.mem_cons, List.not_mem_nil,
    or_false] at hmem
  rcases hmem with rfl | rfl
  · exact hfirst
  · exact hsecond

end LoopTree

/-! ## Growing -/

/-- `g'` is a graph of forks like `g` with one more, to which the edge `edge` leads. -/
structure Grown (count : Nat) (g : Graph) (edge : OpenEnd) (g' : Graph) : Prop where
  size : g'.size = count + 1
  root : g'.root = g.root
  node : ∀ id < count + 1, ∃ first < count + 1, ∃ second < count + 1,
    g'.node id = .ok (fork first second)
  edges : ∀ e target, e ∈ g'.edgesTo target ↔ if e = edge then target = count
    else e ∈ g.edgesTo target ∨ (e ∈ [(count, 0), (count, 1)] ∧ target = 0)

theorem mem_edgesTo_push_openNode {e : NodeId × Nat} {target : NodeId} :
    e ∈ Graph.edgesTo ⟨g.nodes.push openNode, g.root⟩ target ↔
      e ∈ g.edgesTo target ∨ (e ∈ [(g.size, 0), (g.size, 1)] ∧ target = 0) := by
  obtain ⟨id, slot⟩ := e
  have hslot : openNode.successors[slot]? = some target ↔ (slot = 0 ∨ slot = 1) ∧ target = 0 := by
    rcases slot with _ | _ | slot <;> simp [openNode, Node.successors, eq_comm]
  rw [Graph.mem_edgesTo_push, hslot]
  simp only [List.mem_cons, Prod.mk.injEq, List.not_mem_nil, or_false, ← and_or_left, and_assoc]

/-- A new node can be put at any open end. -/
theorem LoopTree.exists_grown (h : LoopTree count g) (hspace : count < NodeId.limit)
    {edge : OpenEnd} (hedge : edge ∈ g.edgesTo 0) :
    ∃ g₁ g₂, g.push openNode = .ok (count, g₁) ∧
      g₁.setSuccessor edge.1 edge.2 count = .ok g₂ ∧ Grown count g edge g₂ := by
  obtain rfl := h.size
  obtain ⟨n, hn, hslot⟩ := Graph.mem_edgesTo_iff.mp hedge
  obtain ⟨first, hfirst, second, hsecond, hfork⟩ := h.node edge.1 (Graph.lt_size_of_node hn)
  obtain rfl := Except.ok.inj (hn.symm.trans hfork)
  obtain ⟨first', hfirst', second', hsecond', hset, hsuccessors⟩ := exists_setSuccessor_fork
    (Nat.lt_succ_of_lt hfirst) (Nat.lt_succ_of_lt hsecond) (Nat.lt_succ_self g.size) hslot
  have hn₁ : Graph.node ⟨g.nodes.push openNode, g.root⟩ edge.1 = .ok (fork first second) :=
    Graph.node_push.mpr (.inr hn)
  obtain ⟨g₂, hset₂, hsize, hroot, hn₂, hkeep⟩ := Graph.exists_setSuccessor hn₁ hset
  refine ⟨_, g₂, Graph.push_eq_ok_iff.mpr ⟨hspace, rfl, rfl⟩, hset₂, ?_, hroot, ?_, ?_⟩
  · rw [hsize, Graph.size, Array.size_push, Graph.size]
  · intro id hid
    by_cases hedge : id = edge.1
    · exact ⟨first', hfirst', second', hsecond', hedge ▸ hn₂⟩
    · rw [hkeep id hedge]
      rcases Nat.lt_succ_iff_lt_or_eq.mp hid with hid | rfl
      · obtain ⟨a, ha, b, hb, hn⟩ := h.node id hid
        exact ⟨a, Nat.lt_succ_of_lt ha, b, Nat.lt_succ_of_lt hb, Graph.node_push.mpr (.inr hn)⟩
      · exact ⟨0, Nat.succ_pos _, 0, Nat.succ_pos _, Graph.node_push.mpr (.inl ⟨rfl, rfl⟩)⟩
  · intro e target
    have hlt := (List.getElem?_eq_some_iff.mp hslot).1
    rw [← mem_edgesTo_push_openNode]
    exact Graph.mem_edgesTo_setSuccessor hn₁ hlt hn₂ hsuccessors hkeep

section Growing

variable {g' : Graph} {edge : OpenEnd}

/-- The open end is taken and the new node brings two. -/
theorem Grown.perm_ends (hgrown : Grown count g edge g') (h : LoopTree count g)
    (hedge : edge ∈ g.edgesTo 0) :
    (g'.edgesTo 0).Perm ((g.edgesTo 0).erase edge ++ [(count, 0), (count, 1)]) := by
  have hnew : ∀ e ∈ g.edgesTo 0, e ∉ [(count, 0), (count, 1)] := by
    intro e he hmem
    have hlt := (h.lt_of_mem_edgesTo he).1
    simp only [List.mem_cons, List.not_mem_nil, or_false] at hmem
    rcases hmem with rfl | rfl <;> exact Nat.lt_irrefl _ hlt
  have hnodup : ((g.edgesTo 0).erase edge ++ [(count, 0), (count, 1)]).Nodup := by
    refine List.nodup_append.mpr ⟨(g.nodup_edgesTo 0).erase edge, by simp, ?_⟩
    rintro e he e' he' rfl
    exact hnew e (List.mem_of_mem_erase he) he'
  refine (List.perm_ext_iff_of_nodup (g'.nodup_edgesTo 0) hnodup).mpr fun e => ?_
  rw [hgrown.edges, List.mem_append, (g.nodup_edgesTo 0).mem_erase_iff]
  by_cases he : e = edge
  · subst he
    have hpos := (h.lt_of_mem_edgesTo hedge).2
    simp only [if_true, Nat.ne_of_lt hpos, ne_eq, not_true, false_and, false_or, hnew e hedge]
  · simp only [he, if_false, ne_eq, not_false_eq_true, true_and, and_true]

theorem Grown.loopTree (hgrown : Grown count g edge g') (h : LoopTree count g)
    (hedge : edge ∈ g.edgesTo 0) : LoopTree (count + 1) g' where
  size := hgrown.size
  root := hgrown.root.trans h.root
  node := hgrown.node
  parent id hpos hid := by
    rcases Nat.lt_succ_iff_lt_or_eq.mp hid with hlt | rfl
    · -- the edge that is taken led to the root, so it is not the one to this node
      obtain ⟨parent, slot, hparent, hlt'⟩ := h.parent id hpos hlt
      refine ⟨parent, slot, ?_, hlt'⟩
      rw [← List.perm_singleton, ← hparent,
        List.perm_ext_iff_of_nodup (g'.nodup_edgesTo id) (g.nodup_edgesTo id)]
      intro e
      rw [hgrown.edges]
      by_cases he : e = edge
      · subst he
        rw [if_pos rfl]
        refine iff_of_false (Nat.ne_of_lt hlt) fun hmem => ?_
        exact Nat.ne_of_lt hpos (Graph.eq_of_mem_edgesTo hedge hmem)
      · simp [he, Nat.ne_of_gt hpos]
    · refine ⟨edge.1, edge.2, ?_, (h.lt_of_mem_edgesTo hedge).1⟩
      rw [← List.perm_singleton,
        List.perm_ext_iff_of_nodup (g'.nodup_edgesTo id) (List.nodup_singleton _)]
      intro e
      have hnone : e ∉ g.edgesTo id := fun hmem => Nat.lt_irrefl _ (h.lt_of_mem_edgesTo hmem).2
      simp [hgrown.edges, hnone, Nat.ne_of_gt hpos]
  ends := by
    have hends := h.ends
    rw [(hgrown.perm_ends h hedge).length_eq, List.length_append, List.length_erase_of_mem hedge]
    simp only [List.length_cons, List.length_nil]
    omega

end Growing

/-! ## Runs -/

/-- As `growTree`, with guarded draws. -/
def growTreeGuarded (source : Source σ) :
    (count : Nat) → (ends : Array OpenEnd) → Graph → Drawing σ Graph
  | 0, _, g => return g
  | count + 1, ends, g => do
    let (id, g) ← g.push openNode
    let index ← source.belowGuarded .full ends.size
    let (parent, slot) ← Drawing.entry ends.toList index
    let g ← g.setSuccessor parent slot id
    growTreeGuarded source count ((ends.eraseIdxIfInBounds index).push (id, 0) |>.push (id, 1)) g

/-- As `draw`, with guarded draws. -/
def drawGuarded (count : Nat) (source : Source σ) : Drawing σ Graph :=
  growTreeGuarded source (count - 1) #[(0, 0), (0, 1)] ⟨#[openNode], some 0⟩

theorem growTreeGuarded_eq {ends : Array OpenEnd} (hends : 0 < ends.size) :
    growTreeGuarded source count ends g = growTree source count ends g := by
  induction count generalizing ends g with
  | zero => rw [growTreeGuarded, growTree]
  | succ count ih =>
    rw [growTreeGuarded, growTree, dif_pos hends]
    refine bind_congr fun pushed => ?_
    obtain ⟨id, g₁⟩ := pushed
    dsimp only
    rw [Source.belowGuarded_bind hends]
    refine bind_congr fun index => ?_
    have hentry : Drawing.entry ends.toList index.val = (pure ends[index] : Drawing σ OpenEnd) :=
      Drawing.entry_get ends.toList index
    rw [hentry, pure_bind]
    refine bind_congr fun g₂ => ?_
    have herase : ends.eraseIdxIfInBounds index.val = ends.eraseIdx index index.isLt :=
      dif_pos index.isLt
    rw [herase, ih (by simp)]

theorem perm_ends_of_eraseIdx {ends : List OpenEnd} {edge : OpenEnd} {index : Nat} {g' : Graph}
    (hends : ends.Perm (g.edgesTo 0)) (hedge : ends[index]? = some edge)
    (hends' : (g'.edgesTo 0).Perm ((g.edgesTo 0).erase edge ++ [(count, 0), (count, 1)])) :
    (ends.eraseIdx index ++ [(count, 0), (count, 1)]).Perm (g'.edgesTo 0) := by
  have hmem : edge ∈ g.edgesTo 0 := hends.mem_iff.mp (List.mem_of_getElem? hedge)
  obtain ⟨hindex, rfl⟩ := List.getElem?_eq_some_iff.mp hedge
  have hcons := (List.getElem_cons_eraseIdx_perm hindex).trans
    (hends.trans (List.perm_cons_erase hmem))
  exact (hcons.cons_inv.append_right _).trans hends'.symm

theorem run_growTree_succ {more : Nat} {ends : Array OpenEnd} {edge : OpenEnd} {id : NodeId}
    {g₁ g₂ : Graph} {hends : 0 < ends.size} {index : Fin ends.size} {s s' : σ}
    (hpush : g.push openNode = .ok (id, g₁))
    (hbelow : (source.below .full ends.size hends).run s = .ok (index, s'))
    (hedge : ends.toList[index.val]? = some edge)
    (hset : g₁.setSuccessor edge.1 edge.2 id = .ok g₂) :
    (growTree source (more + 1) ends g).run s = (growTree source more
      ((ends.eraseIdx index index.isLt).push (id, 0) |>.push (id, 1)) g₂).run s' := by
  obtain rfl : ends[index] = edge := by simpa using hedge
  rw [growTree, dif_pos hends, Drawing.run_bind_of_ok (Drawing.run_lift_of_ok hpush),
    Drawing.run_bind_of_ok hbelow, Drawing.run_bind_of_ok (Drawing.run_lift_of_ok hset)]

/-- Growing a tree by `more` nodes gives a tree, if the source does not fault and ids do not run
out. -/
theorem LoopTree.run_growTree {ends : Array OpenEnd} {faults : Fault → Prop}
    (h : LoopTree count g) (hends : ends.toList.Perm (g.edgesTo 0)) (more : Nat)
    (hsource : ∀ width bound positive, (source.below width bound positive).FaultsIn faults)
    (s : σ) :
    (∃ g' s', (growTree source more ends g).run s = .ok (g', s') ∧ LoopTree (count + more) g') ∨
      ∃ fault, (growTree source more ends g).run s = .error fault ∧
        (faults fault ∨ NodeId.limit < count + more) := by
  induction more generalizing count g ends s with
  | zero => exact .inl ⟨g, s, rfl, h⟩
  | succ more ih =>
    have hpositive : 0 < ends.size := by
      rw [← Array.length_toList, hends.length_eq, h.ends]
      exact Nat.succ_pos count
    obtain rfl := h.size
    rcases hpush : g.push openNode with fault | ⟨id, g₁⟩
    · have hfull : NodeId.limit ≤ g.size := by
        refine Nat.le_of_not_lt fun hspace => ?_
        rw [Graph.push_eq_ok_iff.mpr ⟨hspace, rfl, rfl⟩] at hpush
        cases hpush
      refine .inr ⟨fault, ?_, .inr (by omega)⟩
      rw [growTree, dif_pos hpositive, Drawing.run_bind_of_error (Drawing.run_lift_of_error hpush)]
    · obtain ⟨hspace, rfl, -⟩ := Graph.push_eq_ok_iff.mp hpush
      rcases hbelow : (source.below .full ends.size hpositive).run s with fault | ⟨index, s₁⟩
      · refine .inr ⟨fault, ?_, .inl (hsource _ _ _ s fault hbelow)⟩
        rw [growTree, dif_pos hpositive, Drawing.run_bind_of_ok (Drawing.run_lift_of_ok hpush),
          Drawing.run_bind_of_error hbelow]
      · have hindex : ends.toList[index.val]? = some (ends.toList.get index) := by simp
        have hedge : ends.toList.get index ∈ g.edgesTo 0 :=
          hends.mem_iff.mp (List.mem_of_getElem? hindex)
        obtain ⟨_, g₂, hpush', hset, hgrown⟩ := h.exists_grown hspace hedge
        obtain ⟨-, rfl⟩ := Prod.mk.inj (Except.ok.inj (hpush.symm.trans hpush'))
        have hends' : ((ends.eraseIdx index index.isLt).push (g.size, 0)
            |>.push (g.size, 1)).toList.Perm (g₂.edgesTo 0) := by
          simpa using perm_ends_of_eraseIdx hends hindex (hgrown.perm_ends h hedge)
        rw [run_growTree_succ hpush hbelow hindex hset, ← Nat.add_assoc, Nat.add_right_comm]
        exact ih (hgrown.loopTree h hedge) hends' s₁

/-! ## What is drawn -/

theorem draw_eq_drawGuarded (hcount : 0 < count) :
    draw count source = .ok (drawGuarded count source) := by
  rw [draw, if_neg (Nat.ne_of_gt hcount), drawGuarded, growTreeGuarded_eq (by decide)]

theorem run_drawGuarded {faults : Fault → Prop} (hcount : 0 < count)
    (hsource : ∀ width bound positive, (source.below width bound positive).FaultsIn faults)
    (s : σ) :
    (∃ g s', (drawGuarded count source).run s = .ok (g, s') ∧ LoopTree count g) ∨
      ∃ fault, (drawGuarded count source).run s = .error fault ∧
        (faults fault ∨ NodeId.limit < count) := by
  have hends : #[(0, 0), (0, 1)].toList.Perm (Graph.edgesTo ⟨#[openNode], some 0⟩ 0) := .refl _
  have hrun := loopTree_openNode.run_growTree hends (count - 1) hsource s
  rwa [Nat.add_sub_cancel' hcount, ← growTreeGuarded_eq (by decide)] at hrun

/-- A graph of the family, whatever it was drawn from. -/
def Member (g : Graph) : Prop :=
  ∃ (σ : Type) (source : Source σ) (count : Nat) (drawing : Drawing σ Graph),
    draw count source = .ok drawing ∧ drawing.Gives g

theorem Member.exists_loopTree (h : Member g) : ∃ count, LoopTree count g := by
  obtain ⟨σ, source, count, drawing, hdraw, s, s', hrun⟩ := h
  have hcount : 0 < count := by
    refine Nat.pos_of_ne_zero ?_
    rintro rfl
    cases hdraw
  rw [draw_eq_drawGuarded hcount] at hdraw
  obtain rfl := Except.ok.inj hdraw
  have hany : ∀ width bound positive, (source.below width bound positive).FaultsIn fun _ => True :=
    fun _ _ _ _ _ _ => trivial
  rcases run_drawGuarded hcount hany s with ⟨g', s₁, hrun', htree⟩ | ⟨fault, hrun', -⟩
  · obtain ⟨rfl, -⟩ := Prod.mk.inj (Except.ok.inj (hrun.symm.trans hrun'))
    exact ⟨count, htree⟩
  · rw [hrun] at hrun'
    cases hrun'

/-- The loop of one node as a term. -/
def loop : Term := .mu 0 (.choice .output 0 [(0, .var 0), (1, .var 0)])

namespace LoopTree

theorem inBounds (h : LoopTree count g) : g.InBounds := by
  refine Graph.inBounds_of_node (fun id hid => ?_) fun id n hn next hnext => ?_
  · have hpos : 0 < (g.edgesTo 0).length := by
      rw [h.ends]
      exact Nat.succ_pos count
    obtain ⟨edge, hedge⟩ := List.exists_mem_of_length_pos hpos
    obtain rfl := Option.some.inj (h.root.symm.trans hid)
    exact h.size ▸ (h.lt_of_mem_edgesTo hedge).2
  · obtain ⟨slot, hslot⟩ := List.mem_iff_getElem?.mp hnext
    exact h.size ▸ (h.lt_of_mem_edgesTo (Graph.mem_edgesTo_iff.mpr ⟨n, hn, hslot⟩)).2

/-- All nodes of a tree of loops do what the node of the loop does. -/
theorem covers (h : LoopTree count g) : g.Covers (fun _ => 0) ⟨#[openNode], some 0⟩ where
  inBounds := h.inBounds
  root := by rw [h.root, Option.map_some]
  node id n hn := by
    obtain ⟨first, -, second, -, hfork⟩ := h.node id (h.size ▸ Graph.lt_size_of_node hn)
    obtain rfl := Except.ok.inj (hn.symm.trans hfork)
    rfl

theorem answers {count' : Nat} {g' : Graph} (h : LoopTree count g) (h' : LoopTree count' g')
    (strategy : Strategy) : Comparison.Answers ⟨strategy, g, g'⟩ true := by
  have hloop := loopTree_openNode.inBounds
  rw [Comparison.answers_map_iff h.covers h'.covers h.root h'.root hloop hloop]
  exact Comparison.answers_self strategy rfl hloop

end LoopTree

/-- Unless its source faults, drawing `count` nodes gives a tree of loops, and every draw for it is
within bounds. It cannot be told from any other graph of the family, nor from the loop. -/
theorem draw_loopTree (count : Nat) (source : Source σ) {faults : Fault → Prop} (hcount : 0 < count)
    (hlimit : count ≤ NodeId.limit)
    (hsource : ∀ width bound positive, (source.below width bound positive).FaultsIn faults) :
    draw count source = .ok (drawGuarded count source) ∧
      (∀ s, (∃ g s', (drawGuarded count source).run s = .ok (g, s') ∧ LoopTree count g) ∨
        ∃ fault, (drawGuarded count source).run s = .error fault ∧ faults fault) ∧
      ∀ g g', Member g ∨ loop.toGraph = .ok g → Member g' ∨ loop.toGraph = .ok g' →
        ∀ strategy, Comparison.Answers ⟨strategy, g, g'⟩ true := by
  have htree : ∀ g, Member g ∨ loop.toGraph = .ok g → ∃ count, LoopTree count g := by
    rintro g (h | h)
    · exact h.exists_loopTree
    · obtain rfl : g = ⟨#[openNode], some 0⟩ := (Except.ok.inj h).symm
      exact ⟨1, loopTree_openNode⟩
  refine ⟨draw_eq_drawGuarded hcount, fun s => ?_, fun g g' hg hg' strategy => ?_⟩
  · rcases run_drawGuarded hcount hsource s with hg | ⟨fault, hrun, hfault⟩
    · exact .inl hg
    · exact .inr ⟨fault, hrun, hfault.resolve_right (Nat.not_lt.mpr hlimit)⟩
  · obtain ⟨n, hn⟩ := htree g hg
    obtain ⟨n', hn'⟩ := htree g' hg'
    exact hn.answers hn' strategy

/-- A source that takes its draws from a list. -/
def listed : Source (List Nat) where
  below _ bound positive draws :=
    .ok (⟨draws.headD 0 % bound, Nat.mod_lt _ positive⟩, draws.tail)
  flip draws := .ok (draws.headD 0 % 2 = 1, draws.tail)
  patience := 0

/-- Three nodes are put at the ends 1, 0 and 3 of those that are open each time. -/
theorem draw_loopTree_listed :
    (0 < 4 ∧ 4 ≤ NodeId.limit ∧ ∀ width bound positive,
        (listed.below width bound positive).FaultsIn fun _ => False) ∧
      draw 4 listed = .ok (drawGuarded 4 listed) ∧
      ∃ g s' g', (drawGuarded 4 listed).run [1, 0, 3] = .ok (g, s') ∧ LoopTree 4 g ∧
        g.nodes = #[fork 2 1, fork 0 0, fork 0 3, fork 0 0] ∧ loop.toGraph = .ok g' ∧
        ∀ strategy, Comparison.Answers ⟨strategy, g, g'⟩ true ∧
          Comparison.Answers ⟨strategy, g', g⟩ true := by
  have hsource : ∀ width bound positive,
      (listed.below width bound positive).FaultsIn fun _ => False := nofun
  obtain ⟨hdraw, hruns, hanswers⟩ := draw_loopTree 4 listed (by decide) (by decide) hsource
  have hnodes : (((drawGuarded 4 listed).run [1, 0, 3]).toOption.map fun result => result.1.nodes) =
      some #[fork 2 1, fork 0 0, fork 0 3, fork 0 0] := by decide +kernel
  refine ⟨⟨by decide, by decide, hsource⟩, hdraw, ?_⟩
  rcases hruns [1, 0, 3] with ⟨g, s', hrun, htree⟩ | ⟨fault, -, hfault⟩
  · have hg : Member g := ⟨_, listed, 4, _, hdraw, _, _, hrun⟩
    rw [hrun] at hnodes
    exact ⟨g, s', _, hrun, htree, Option.some.inj hnodes, rfl, fun strategy =>
      ⟨hanswers g _ (.inl hg) (.inr rfl) strategy, hanswers _ g (.inr rfl) (.inl hg) strategy⟩⟩
  · cases hfault

end LoopFamily

end SessionGraph
