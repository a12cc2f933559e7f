import SessionGraph.Proofs.Unrolling

/-!
# What an unrolled graph consists of

An unrolled graph is a row of blocks, each as long as the graph. The blocks behind the first are
copies of the graph. The first is the graph itself, except that its edges to the root lead to the
roots of the copies, the first edge to that of the first copy and so on. Which edge is the first is
told by counting those that come before it (`Graph.edgesBefore`), and `Graph.getElem?_edgesTo_iff`
says that the edges are spliced in this order.

Nothing leads to the root of an unrolled graph any more, so unrolling it once more gives it back.
-/

namespace SessionGraph

/-! ## Exchanging successors -/

namespace Node

variable {f f' : Nat → NodeId → NodeId} {n : Node}

/-- The same action with `f` applied to each slot and the successor in it. -/
def mapSlots (f : Nat → NodeId → NodeId) : Node → Node
  | .done => .done
  | .message polarity participant payload next => .message polarity participant payload (f 0 next)
  | .choice polarity participant branches =>
    .choice polarity participant (branches.mapIdx fun slot b => (b.1, f slot b.2))

@[simp]
theorem successors_mapSlots (f : Nat → NodeId → NodeId) (n : Node) :
    (n.mapSlots f).successors = n.successors.mapIdx f := by
  cases n <;> simp [mapSlots, successors, List.mapIdx_eq_zipIdx_map, List.zipIdx_map]

theorem mapSlots_congr
    (h : ∀ slot next, n.successors[slot]? = some next → f slot next = f' slot next) :
    n.mapSlots f = n.mapSlots f' := by
  cases n with
  | done => rfl
  | message polarity participant payload next => simp [mapSlots, h 0 next rfl]
  | choice polarity participant branches =>
    simp only [mapSlots, Node.choice.injEq, true_and]
    refine List.ext_getElem (by simp) fun slot hslot _ => ?_
    have hlt : slot < branches.length := by simpa using hslot
    have hnext := h slot branches[slot].2 (by simp [successors, hlt])
    simp [hnext]

theorem mapSlots_self (h : ∀ slot next, n.successors[slot]? = some next → f slot next = next) :
    n.mapSlots f = n := by
  rw [mapSlots_congr h]
  cases n with
  | done => rfl
  | message => rfl
  | choice polarity participant branches => simp [mapSlots, List.mapIdx_eq_zipIdx_map]

/-- Exchanging one successor changes the function at its slot. -/
theorem setSuccessor_mapSlots {slot : Nat} {old : NodeId} (h : n.successors[slot]? = some old)
    (target : NodeId) : (n.mapSlots f).setSuccessor slot target =
      .ok (n.mapSlots fun slot' next => if slot' = slot then target else f slot' next) := by
  cases n with
  | done => simp [successors] at h
  | message polarity participant payload next =>
    obtain rfl : slot = 0 := by
      cases slot <;> simp_all [successors]
    simp [mapSlots, setSuccessor]
  | choice polarity participant branches =>
    simp only [successors, List.getElem?_map, Option.map_eq_some_iff] at h
    obtain ⟨b, hb, rfl⟩ := h
    simp only [mapSlots, setSuccessor, List.getElem?_mapIdx, hb, Option.map_some]
    refine congrArg (fun bs => Except.ok (Node.choice polarity participant bs)) ?_
    refine List.ext_getElem (by simp) fun slot' hslot' _ => ?_
    have hlt : slot' < branches.length := by simpa using hslot'
    rw [List.getElem_set]
    by_cases heq : slot = slot'
    · subst heq
      obtain ⟨-, rfl⟩ := List.getElem?_eq_some_iff.mp hb
      simp
    · simp [heq, Ne.symm heq]

end Node

namespace Graph

variable {g v : Graph} {root : NodeId} {copies : Nat}

theorem exists_setSuccessor {id target : NodeId} {n n' : Node} {slot : Nat}
    (hn : v.node id = .ok n) (hset : n.setSuccessor slot target = .ok n') :
    ∃ v', v.setSuccessor id slot target = .ok v' ∧ v'.size = v.size ∧ v'.root = v.root ∧
      v'.node id = .ok n' ∧ ∀ id', id' ≠ id → v'.node id' = v.node id' := by
  refine ⟨{ v with nodes := v.nodes.setIfInBounds id n' }, ?_, Array.size_setIfInBounds, rfl, ?_,
    ?_⟩
  · rw [setSuccessor, hn]
    simp only [bind, Except.bind, hset]
    rfl
  · rw [node_eq_ok_iff]
    exact Array.getElem?_setIfInBounds_self_of_lt (lt_size_of_node hn)
  · intro id' hid'
    simp only [node, Array.getElem?_setIfInBounds_ne (Ne.symm hid'), size,
      Array.size_setIfInBounds]

/-! ## The order of the edges -/

/-- How many edges to `target` come before the one in `slot` of the node `id`, by node and then by
slot. -/
def edgesBefore (g : Graph) (target id : NodeId) (slot : Nat) : Nat :=
  (g.edges.take (((g.nodes.toList.take id).flatMap Node.successors).length + slot)).count target

theorem edgesBefore_eq {target id : NodeId} {n : Node} {slot : Nat} {next : NodeId}
    (hn : g.node id = .ok n) (hslot : n.successors[slot]? = some next) :
    g.edgesBefore target id slot =
      ((g.nodes.toList.take id).flatMap Node.successors).count target +
        (n.successors.take slot).count target := by
  rw [node_eq_ok_iff, ← Array.getElem?_toList] at hn
  obtain ⟨hid, rfl⟩ := List.getElem?_eq_some_iff.mp hn
  obtain ⟨hlt, -⟩ := List.getElem?_eq_some_iff.mp hslot
  have hsplit : g.edges =
      (g.nodes.toList.take id).flatMap Node.successors ++ (g.nodes.toList[id].successors ++
        (g.nodes.toList.drop (id + 1)).flatMap Node.successors) := by
    rw [edges, ← List.flatMap_cons, ← List.flatMap_append, ← List.drop_eq_getElem_cons hid,
      List.take_append_drop]
  rw [edgesBefore, hsplit, List.take_length_add_append, List.count_append,
    List.take_append_of_le_length (Nat.le_of_lt hlt)]

/-- The slots of a list of successors that lead to `target`, when the first slot is `start`. -/
def slotsTo (target : NodeId) (ids : List NodeId) (start : Nat) : List Nat :=
  ((ids.zipIdx start).filter fun p => p.1 = target).map Prod.snd

theorem slotsTo_cons (target id : NodeId) (ids : List NodeId) (start : Nat) :
    slotsTo target (id :: ids) start =
      if id = target then start :: slotsTo target ids (start + 1)
      else slotsTo target ids (start + 1) := by
  unfold slotsTo
  by_cases h : id = target <;> simp [h]

theorem length_slotsTo (target : NodeId) (ids : List NodeId) (start : Nat) :
    (slotsTo target ids start).length = ids.count target := by
  induction ids generalizing start with
  | nil => rfl
  | cons id ids ih =>
    rw [slotsTo_cons]
    by_cases h : id = target <;> simp [h, ih]

theorem getElem?_slotsTo_iff {target : NodeId} (ids : List NodeId) (start j slot : Nat) :
    (slotsTo target ids start)[j]? = some slot ↔
      ∃ i, slot = start + i ∧ ids[i]? = some target ∧ (ids.take i).count target = j := by
  induction ids generalizing start j with
  | nil => simp [slotsTo]
  | cons id ids ih =>
    rw [slotsTo_cons]
    split
    · rename_i hid
      constructor
      · intro h
        cases j with
        | zero => exact ⟨0, by simpa using h.symm, by simp [hid], by simp⟩
        | succ j =>
          obtain ⟨i, rfl, hi, hj⟩ := (ih (start + 1) j).mp (by simpa using h)
          exact ⟨i + 1, by omega, by simpa using hi, by simp [hid, hj]⟩
      · rintro ⟨i, rfl, hi, rfl⟩
        cases i with
        | zero => simp
        | succ i =>
          simp only [List.take_succ_cons, hid, List.count_cons_self, List.getElem?_cons_succ]
          exact (ih (start + 1) _).mpr ⟨i, by omega, by simpa using hi, rfl⟩
    · rename_i hid
      rw [ih]
      constructor
      · rintro ⟨i, rfl, hi, rfl⟩
        exact ⟨i + 1, by omega, by simpa using hi, by simp [hid]⟩
      · rintro ⟨i, rfl, hi, rfl⟩
        cases i with
        | zero => simp [hid] at hi
        | succ i => exact ⟨i, by omega, by simpa using hi, by simp [hid]⟩

/-- The edges to `target` from `nodes`, when the first of these is `start`. -/
def edgesFrom (target : NodeId) (nodes : List Node) (start : Nat) : List (NodeId × Nat) :=
  (nodes.zipIdx start).flatMap fun p => (slotsTo target p.1.successors 0).map (p.2, ·)

theorem edgesFrom_cons (target : NodeId) (n : Node) (nodes : List Node) (start : Nat) :
    edgesFrom target (n :: nodes) start =
      (slotsTo target n.successors 0).map (start, ·) ++ edgesFrom target nodes (start + 1) := by
  rw [edgesFrom, List.zipIdx_cons, List.flatMap_cons]
  rfl

theorem length_edgesFrom (target : NodeId) (nodes : List Node) (start : Nat) :
    (edgesFrom target nodes start).length = (nodes.flatMap Node.successors).count target := by
  induction nodes generalizing start with
  | nil => rfl
  | cons n nodes ih =>
    rw [edgesFrom_cons, List.length_append, List.length_map, length_slotsTo, ih, List.flatMap_cons,
      List.count_append]

theorem getElem?_edgesFrom_iff {target : NodeId} (nodes : List Node) (start j : Nat)
    {id slot : Nat} : (edgesFrom target nodes start)[j]? = some (id, slot) ↔
      ∃ i n, id = start + i ∧ nodes[i]? = some n ∧ n.successors[slot]? = some target ∧
        ((nodes.take i).flatMap Node.successors).count target +
          (n.successors.take slot).count target = j := by
  induction nodes generalizing start j with
  | nil => simp [edgesFrom]
  | cons n nodes ih =>
    rw [edgesFrom_cons]
    have hlength : ((slotsTo target n.successors 0).map (start, ·)).length =
        n.successors.count target := by
      rw [List.length_map, length_slotsTo]
    rcases Nat.lt_or_ge j (n.successors.count target) with hj | hj
    · -- the edge leaves the first node
      rw [List.getElem?_append_left (hlength ▸ hj), List.getElem?_map, Option.map_eq_some_iff]
      constructor
      · rintro ⟨slot', hslot', heq⟩
        obtain ⟨rfl, rfl⟩ := Prod.mk.inj heq
        obtain ⟨i, hi, hnext, hcount⟩ := (getElem?_slotsTo_iff ..).mp hslot'
        obtain rfl : slot' = i := by omega
        exact ⟨0, n, rfl, rfl, hnext, by simpa using hcount⟩
      · rintro ⟨i, m, rfl, hm, hnext, hcount⟩
        cases i with
        | zero =>
          obtain rfl : n = m := by simpa using hm
          exact ⟨slot, (getElem?_slotsTo_iff ..).mpr
            ⟨slot, by omega, hnext, by simpa using hcount⟩, rfl⟩
        | succ i =>
          simp only [List.take_succ_cons, List.flatMap_cons, List.count_append] at hcount
          omega
    · rw [List.getElem?_append_right (hlength ▸ hj), hlength, ih]
      constructor
      · rintro ⟨i, m, rfl, hm, hnext, hcount⟩
        refine ⟨i + 1, m, by omega, by simpa using hm, hnext, ?_⟩
        simp only [List.take_succ_cons, List.flatMap_cons, List.count_append]
        omega
      · rintro ⟨i, m, rfl, hm, hnext, hcount⟩
        cases i with
        | zero =>
          obtain rfl : n = m := by simpa using hm
          -- among the slots of the first node, the one given has fewer before it than there are
          have hlt : (n.successors.take slot).count target < n.successors.count target := by
            have hplace := (getElem?_slotsTo_iff n.successors 0 _ slot).mpr
              ⟨slot, (Nat.zero_add slot).symm, hnext, rfl⟩
            rw [← length_slotsTo target n.successors 0]
            exact (List.getElem?_eq_some_iff.mp hplace).1
          simp only [List.take_zero, List.flatMap_nil, List.count_nil] at hcount
          omega
        | succ i =>
          simp only [List.take_succ_cons, List.flatMap_cons, List.count_append] at hcount
          exact ⟨i, m, by omega, by simpa using hm, hnext, by omega⟩

theorem edgesTo_eq (g : Graph) (target : NodeId) :
    g.edgesTo target = edgesFrom target g.nodes.toList 0 := by
  unfold edgesTo edgesFrom slotsTo
  simp [Function.comp_def]

theorem length_edgesTo (g : Graph) (target : NodeId) :
    (g.edgesTo target).length = g.edges.count target := by
  rw [edgesTo_eq, length_edgesFrom, edges]

/-- The edges to `target` are listed in order, so that the place of each is how many come before
it. -/
theorem getElem?_edgesTo_iff {target id : NodeId} {slot j : Nat} :
    (g.edgesTo target)[j]? = some (id, slot) ↔
      ∃ n, g.node id = .ok n ∧ n.successors[slot]? = some target ∧
        g.edgesBefore target id slot = j := by
  rw [edgesTo_eq, getElem?_edgesFrom_iff]
  constructor
  · rintro ⟨i, n, hid, hn, hnext, hcount⟩
    obtain rfl : id = i := by rw [hid, Nat.zero_add]
    rw [Array.getElem?_toList, ← node_eq_ok_iff] at hn
    exact ⟨n, hn, hnext, by rw [edgesBefore_eq hn hnext, hcount]⟩
  · rintro ⟨n, hn, hnext, hcount⟩
    rw [edgesBefore_eq hn hnext] at hcount
    rw [node_eq_ok_iff, ← Array.getElem?_toList] at hn
    exact ⟨id, n, (Nat.zero_add id).symm, hn, hnext, hcount⟩

/-! ## Splicing in the copies -/

/-- Where an edge of the graph leads when as many copies are spliced in: an edge to the root that is
among the first of them leads to the root of its copy. -/
def redirect (g : Graph) (root : NodeId) (copies : Nat) (id : NodeId) (slot : Nat) (next : NodeId) :
    NodeId :=
  if next = root ∧ g.edgesBefore root id slot < copies then
    (g.edgesBefore root id slot + 1) * g.size + root
  else next

/-- `v` is the graph with its first edges to the root redirected, and a copy behind it for each. -/
structure Spliced (g : Graph) (root : NodeId) (copies : Nat) (v : Graph) : Prop where
  size : v.size = (copies + 1) * g.size
  first : ∀ id n, g.node id = .ok n → v.node id = .ok (n.mapSlots (g.redirect root copies id))
  copy : ∀ j, 1 ≤ j → j ≤ copies → ∀ id n, g.node id = .ok n →
    v.node (id + j * g.size) = .ok (n.map (· + j * g.size))
  root : v.root = some root

theorem spliced_self (hroot : g.root = some root) : g.Spliced root 0 g where
  size := by simp
  first id n hn := by rw [hn, Node.mapSlots_self (by simp [redirect])]
  copy j hj hj' := by omega
  root := hroot

/-- One more copy redirects the edge that it is for, and no other. -/
theorem redirect_succ {id id' : NodeId} {n : Node} {slot slot' : Nat} {next : NodeId}
    (hedge : (g.edgesTo root)[copies]? = some (id, slot)) (hn : g.node id' = .ok n)
    (hslot : n.successors[slot']? = some next) :
    g.redirect root (copies + 1) id' slot' next =
      if (id', slot') = (id, slot) then (copies + 1) * g.size + root
      else g.redirect root copies id' slot' next := by
  unfold redirect
  split_ifs with hnew hsame hold hsame hold
  · obtain ⟨-, -, -, hbefore⟩ := getElem?_edgesTo_iff.mp (hsame ▸ hedge)
    rw [hbefore]
  · rfl
  · -- as many edges come before this one as before the one that is spliced
    obtain ⟨rfl, hlt⟩ := hnew
    have hbefore : g.edgesBefore next id' slot' = copies :=
      Nat.le_antisymm (Nat.le_of_lt_succ hlt) (Nat.le_of_not_lt fun hlt' => hold ⟨rfl, hlt'⟩)
    have hplace := getElem?_edgesTo_iff.mpr ⟨n, hn, hslot, hbefore⟩
    exact absurd (Option.some.inj (hplace.symm.trans hedge)) hsame
  · obtain ⟨m, hm, hslot', hbefore⟩ := getElem?_edgesTo_iff.mp (hsame ▸ hedge)
    rw [hn, Except.ok.injEq] at hm
    subst hm
    rw [hslot, Option.some.injEq] at hslot'
    exact absurd ⟨hslot', by omega⟩ hnew
  · exact absurd ⟨hold.1, by omega⟩ hnew
  · rfl

theorem Spliced.spliceCopy (h : g.Spliced root copies v) (hg : g.InBounds)
    (hroot : g.root = some root) (hspace : (copies + 2) * g.size ≤ NodeId.limit)
    {edge : NodeId × Nat} (hedge : (g.edgesTo root)[copies]? = some edge) :
    ∃ v', g.spliceCopy root v edge = .ok v' ∧ g.Spliced root (copies + 1) v' := by
  obtain ⟨id, slot⟩ := edge
  obtain ⟨n, hn, hslot, -⟩ := getElem?_edgesTo_iff.mp hedge
  have hid : id < g.size := lt_size_of_node hn
  have hspace' : v.size + g.size ≤ NodeId.limit := by
    rwa [h.size, ← Nat.succ_mul]
  -- the copy is put behind `v`, and then the edge is led to its root
  have hcopied : (v.withCopy g).node id = .ok (n.mapSlots (g.redirect root copies id)) :=
    node_withCopy_of_node (h.first id n hn)
  obtain ⟨v', hv', hsize, hroot', hset, hkeep⟩ := exists_setSuccessor hcopied
    (Node.setSuccessor_mapSlots hslot (root + v.size))
  refine ⟨v', ?_, ?_, ?_, ?_, ?_⟩
  · rw [Graph.spliceCopy, graft_eq_ok hg hspace' false]
    have himage : Block.image ⟨v.size, g.size⟩ root = .ok (root + v.size) :=
      Block.image_eq_ok (hg.1 root hroot) hspace'
    simp only [bind, Except.bind, himage]
    exact hv'
  · rw [hsize, size_withCopy, h.size, ← Nat.succ_mul]
  · intro id' n' hn'
    by_cases heq : id' = id
    · subst heq
      obtain rfl : n = n' := by rwa [hn, Except.ok.injEq] at hn'
      rw [hset]
      refine congrArg Except.ok (Node.mapSlots_congr fun slot' next hnext => ?_)
      rw [redirect_succ hedge hn hnext]
      by_cases hslot' : slot' = slot
      · simp [hslot', h.size, Nat.add_comm]
      · simp [hslot']
    · rw [hkeep id' heq, node_withCopy_of_node (h.first id' n' hn')]
      refine congrArg Except.ok (Node.mapSlots_congr fun slot' next hnext => ?_)
      rw [redirect_succ hedge hn' hnext, if_neg fun hsame => heq (Prod.mk.inj hsame).1]
  · intro j hj hj' id' n' hn'
    have hle : g.size ≤ id' + j * g.size :=
      Nat.le_add_left_of_le (Nat.le_mul_of_pos_left _ hj)
    have hne : id' + j * g.size ≠ id := Nat.ne_of_gt (Nat.lt_of_lt_of_le hid hle)
    rw [hkeep _ hne]
    rcases Nat.lt_or_ge copies j with hlast | hlast
    · obtain rfl : j = copies + 1 := Nat.le_antisymm hj' hlast
      rw [← h.size]
      exact node_of_withCopy hn'
    · exact node_withCopy_of_node (h.copy j hj hlast id' n' hn')
  · rw [hroot']
    exact h.root

theorem Spliced.foldlM_spliceCopy (h : g.Spliced root copies v) (hg : g.InBounds)
    (hroot : g.root = some root) {edges : List (NodeId × Nat)}
    (hedges : (g.edgesTo root).drop copies = edges)
    (hspace : (copies + edges.length + 1) * g.size ≤ NodeId.limit) :
    ∃ u, edges.foldlM (g.spliceCopy root) v = .ok u ∧
      g.Spliced root (copies + edges.length) u := by
  induction edges generalizing v copies with
  | nil => exact ⟨v, rfl, h⟩
  | cons edge edges ih =>
    rw [List.length_cons] at hspace ⊢
    have hedge : (g.edgesTo root)[copies]? = some edge := by
      rw [← List.head?_drop, hedges, List.head?_cons]
    have hrest : (g.edgesTo root).drop (copies + 1) = edges := by
      rw [← List.drop_drop, hedges, List.drop_one, List.tail_cons]
    have hone : (copies + 2) * g.size ≤ (copies + (edges.length + 1) + 1) * g.size :=
      Nat.mul_le_mul_right _ (by omega)
    obtain ⟨v', hv', hspliced⟩ := h.spliceCopy hg hroot (Nat.le_trans hone hspace) hedge
    obtain ⟨u, hu, hspliced'⟩ := ih hspliced hrest (by rwa [Nat.add_right_comm copies 1])
    refine ⟨u, ?_, by rwa [Nat.add_right_comm copies 1] at hspliced'⟩
    rw [List.foldlM_cons, hv']
    exact hu

theorem unrollingCopies_eq (hroot : g.root = some root) :
    g.unrollingCopies = g.edges.count root := by
  rw [unrollingCopies, hroot]
  exact length_edgesTo g root

/-- A graph without edges to its root is left as it is. -/
theorem unroll_eq_self (hg : g.InBounds) (hroot : g.root = some root)
    (hspace : g.size ≤ NodeId.limit) (hedges : root ∉ g.edges) : g.unroll = .ok g := by
  have hnil : g.edgesTo root = [] := by
    rw [← List.length_eq_zero_iff, length_edgesTo, List.count_eq_zero_of_not_mem hedges]
  rw [unroll, copy_eq_ok hg hspace, hroot]
  simp only [bind, Except.bind, hnil]
  rfl

theorem exists_unroll_spliced (hg : g.InBounds) (hroot : g.root = some root)
    (hspace : (g.edges.count root + 1) * g.size ≤ NodeId.limit) :
    ∃ u, g.unroll = .ok u ∧ g.Spliced root (g.edges.count root) u := by
  have hone : g.size ≤ (g.edges.count root + 1) * g.size :=
    Nat.le_mul_of_pos_left _ (Nat.succ_pos _)
  rw [← length_edgesTo] at hspace hone ⊢
  obtain ⟨u, hu, hspliced⟩ := (spliced_self hroot).foldlM_spliceCopy hg hroot List.drop_zero
    (by rwa [Nat.zero_add])
  refine ⟨u, ?_, by rwa [Nat.zero_add] at hspliced⟩
  rw [unroll, copy_eq_ok hg (Nat.le_trans hone hspace), hroot]
  exact hu

namespace Spliced

/-- A node lies in the first block or in one of the copies. -/
theorem node_cases (h : g.Spliced root copies v) {id : NodeId} {m : Node} (hm : v.node id = .ok m) :
    (∃ n, g.node id = .ok n ∧ m = n.mapSlots (g.redirect root copies id)) ∨
    ∃ j id₀ n, 1 ≤ j ∧ g.node id₀ = .ok n ∧ m = n.map (· + j * g.size) := by
  have hid : id < (copies + 1) * g.size := h.size ▸ lt_size_of_node hm
  have hpos : 0 < g.size := Nat.pos_of_mul_pos_left (Nat.zero_lt_of_lt hid)
  obtain ⟨n, hn⟩ := exists_node (Nat.mod_lt id hpos)
  have hsplit : id % g.size + id / g.size * g.size = id := by
    rw [Nat.mul_comm, Nat.mod_add_div]
  rcases Nat.eq_zero_or_pos (id / g.size) with hzero | hblock
  · rw [hzero, Nat.zero_mul, Nat.add_zero] at hsplit
    rw [hsplit] at hn
    rw [h.first id n hn, Except.ok.injEq] at hm
    exact .inl ⟨n, hn, hm.symm⟩
  · have hle : id / g.size ≤ copies :=
      Nat.le_of_lt_succ (Nat.div_lt_of_lt_mul (by rwa [Nat.mul_comm]))
    have hcopy := h.copy _ hblock hle _ n hn
    rw [hsplit, hm, Except.ok.injEq] at hcopy
    exact .inr ⟨_, _, n, hblock, hn, hcopy⟩

end Spliced

/-- The edges to the root are among those that are redirected, if there are as many copies. -/
theorem redirect_count {id : NodeId} {n : Node} {slot : Nat} {next : NodeId}
    (hn : g.node id = .ok n) (hslot : n.successors[slot]? = some next) :
    g.redirect root (g.edges.count root) id slot next =
      if next = root then (g.edgesBefore root id slot + 1) * g.size + root else next := by
  unfold redirect
  by_cases hnext : next = root
  · subst hnext
    have hplace := getElem?_edgesTo_iff.mpr ⟨n, hn, hslot, rfl⟩
    have hlt := (List.getElem?_eq_some_iff.mp hplace).1
    rw [length_edgesTo] at hlt
    simp [hlt]
  · simp [hnext]

theorem Spliced.root_notMem_edges (h : g.Spliced root (g.edges.count root) v)
    (hroot : root < g.size) : root ∉ v.edges := by
  intro hmem
  obtain ⟨m, hm, hnext⟩ := List.mem_flatMap.mp hmem
  obtain ⟨id, hid⟩ := List.mem_iff_getElem?.mp hm
  rw [Array.getElem?_toList, ← node_eq_ok_iff] at hid
  rcases h.node_cases hid with ⟨n, hn, rfl⟩ | ⟨j, id₀, n, hj, hn, rfl⟩
  · obtain ⟨slot, hslot⟩ := List.mem_iff_getElem?.mp hnext
    rw [Node.successors_mapSlots, List.getElem?_mapIdx, Option.map_eq_some_iff] at hslot
    obtain ⟨next, hslot, heq⟩ := hslot
    rw [redirect_count hn hslot] at heq
    split at heq
    · have hpos : 0 < (g.edgesBefore root id slot + 1) * g.size :=
        Nat.mul_pos (Nat.succ_pos _) (Nat.zero_lt_of_lt hroot)
      exact absurd heq (Nat.ne_of_gt (Nat.lt_add_of_pos_left hpos))
    · exact absurd heq ‹_›
  · rw [Node.successors_map, List.mem_map] at hnext
    obtain ⟨next, -, heq⟩ := hnext
    have hle : g.size ≤ next + j * g.size := Nat.le_add_left_of_le (Nat.le_mul_of_pos_left _ hj)
    exact absurd heq (Nat.ne_of_gt (Nat.lt_of_lt_of_le hroot hle))

/-- An unrolled graph is the graph with each edge to the root led to the root of its own copy, the
copies following in the order of the edges. No edge leads to its root, so that unrolling it again
changes nothing, and neither does unrolling a graph without edges to the root. -/
theorem unroll_blocks (hroot : g.root = some root) (hg : g.InBounds)
    (hspace : (g.edges.count root + 1) * g.size ≤ NodeId.limit) :
    ∃ u, g.unroll = .ok u ∧ u.size = (g.edges.count root + 1) * g.size ∧ u.root = some root ∧
      (∀ id n, g.node id = .ok n → u.node id = .ok (n.mapSlots fun slot next =>
        if next = root then (g.edgesBefore root id slot + 1) * g.size + root else next)) ∧
      (∀ j, 1 ≤ j → j ≤ g.edges.count root → ∀ id n, g.node id = .ok n →
        u.node (id + j * g.size) = .ok (n.map (· + j * g.size))) ∧
      root ∉ u.edges ∧ u.unroll = .ok u ∧ (g.edges.count root = 0 → u = g) := by
  obtain ⟨u, hu, hspliced⟩ := exists_unroll_spliced hg hroot hspace
  have hedges : root ∉ u.edges := hspliced.root_notMem_edges (hg.1 root hroot)
  have hbounds : u.InBounds := by
    obtain ⟨u', hu', hcovers⟩ := exists_unroll hg hroot (by rwa [unrollingCopies_eq hroot])
    rw [hu, Except.ok.injEq] at hu'
    exact hu' ▸ hcovers.inBounds
  refine ⟨u, hu, hspliced.size, hspliced.root, fun id n hn => ?_, hspliced.copy, hedges,
    unroll_eq_self hbounds hspliced.root (hspliced.size ▸ hspace) hedges, fun hnone => ?_⟩
  · rw [hspliced.first id n hn]
    exact congrArg Except.ok (Node.mapSlots_congr fun slot next => redirect_count hn)
  · rw [hnone, Nat.zero_add, Nat.one_mul] at hspace
    have hself := unroll_eq_self hg hroot hspace (List.count_eq_zero.mp hnone)
    rwa [hu, Except.ok.injEq] at hself

/-- A node with two edges to the root, one that leads there from below, and one that is not met. -/
theorem unroll_blocks_tangle :
    let g : Graph := ⟨#[.message .input 1 .nat 1, .choice .output 0 [(5, 1), (2, 0), (2, 1)],
      .message .output 2 .bool 1], some 1⟩
    g.InBounds ∧ (g.edges.count 1 + 1) * g.size = 15 ∧ ∃ u, g.unroll = .ok u ∧ u.size = 15 ∧
      u.node 0 = .ok (.message .input 1 .nat 4) ∧
      u.node 1 = .ok (.choice .output 0 [(5, 7), (2, 0), (2, 10)]) ∧
      u.node 2 = .ok (.message .output 2 .bool 13) ∧
      u.node 10 = .ok (.choice .output 0 [(5, 10), (2, 9), (2, 10)]) ∧ u.unroll = .ok u := by
  intro g
  have hg : g.InBounds := by decide
  obtain ⟨u, hu, hsize, -, hfirst, hcopy, -, hagain, -⟩ :=
    unroll_blocks (rfl : g.root = some 1) hg (by decide)
  exact ⟨hg, rfl, u, hu, hsize, hfirst 0 _ rfl, hfirst 1 _ rfl, hfirst 2 _ rfl,
    hcopy 3 (by decide) (by decide) 1 _ rfl, hagain⟩

end Graph

end SessionGraph
