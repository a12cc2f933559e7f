import SessionGraph.Proofs.Layout
import SessionGraph.Proofs.Separation
import SessionGraph.Proofs.WellFormed
import SessionGraph.Recipe

/-!
# Terms and families give well-formed graphs

A term is laid out, and a random type is grown, by adding nodes behind those that are there already
and leading edges to the nodes above or to what was just added. `Part` says so of a row of nodes: it
may be put below an action (`Part.cons`) and behind another part (`Part.append`), and nothing else
is done with it. The labels of a random choice are drawn until they differ, so they ascend once they
are sorted. A tree of loops is well formed from the first node on.
-/

namespace SessionGraph

/-- The edges of `nodes`, and `starts`, lead to the `next` nodes that were there before or to
`nodes`, which lie behind them. -/
structure Part (next : Nat) (starts : List NodeId) (nodes : List Node) : Prop where
  starts : ∀ id ∈ starts, id < next + nodes.length
  nodes : ∀ n ∈ nodes, n.Within (next + nodes.length)

namespace Part

variable {next : Nat} {id : NodeId} {ids : List NodeId} {n : Node} {nodes nodes' : List Node}

theorem nil (h : ∀ id ∈ ids, id < next) : Part next ids [] := ⟨h, nofun⟩

theorem cons (h : Part (next + 1) n.successors nodes) (hn : n.Sorted) :
    Part next [next] (n :: nodes) := by
  have hlength : next + (n :: nodes).length = next + 1 + nodes.length := by
    rw [List.length_cons]
    omega
  constructor
  · intro id hid
    rw [hlength, List.mem_singleton.mp hid]
    exact Nat.lt_add_right _ (Nat.lt_succ_self next)
  · rw [hlength]
    exact List.forall_mem_cons.mpr ⟨⟨hn, h.starts⟩, h.nodes⟩

theorem done : Part next [next] [.done] := cons (nil nofun) trivial

theorem append (h : Part next [id] nodes) (h' : Part (next + nodes.length) ids nodes') :
    Part next (id :: ids) (nodes ++ nodes') := by
  have hlength : next + (nodes ++ nodes').length = next + nodes.length + nodes'.length := by
    rw [List.length_append]
    omega
  constructor
  · rw [hlength]
    have hid := h.starts id List.mem_cons_self
    exact List.forall_mem_cons.mpr ⟨Nat.lt_add_right _ hid, h'.starts⟩
  · rw [hlength]
    intro n hn
    rcases List.mem_append.mp hn with hn | hn
    · exact (h.nodes n hn).mono (Nat.le_add_right _ _)
    · exact h'.nodes n hn

theorem wellFormed (h : Part 0 [id] nodes) : Graph.WellFormed ⟨nodes.toArray, some id⟩ := by
  have hid := h.starts id List.mem_cons_self
  have hnodes := h.nodes
  rw [Nat.zero_add] at hid hnodes
  exact Graph.wellFormed_of_nodes hid hnodes

end Part

/-! ## Terms -/

namespace Term

variable {scope : Scope} {next : Nat}

theorem part_of_layoutBranches {branches : List (Label × Term)} {targets : List (Label × NodeId)}
    {nodes : List Node} (hbody : ∀ b ∈ branches, ∀ {next' id nodes}, next ≤ next' →
      b.2.layout scope [] next' = .ok (id, nodes) → Part next' [id] nodes)
    (h : layoutBranches scope next branches = .ok (targets, nodes)) :
    Part next (targets.map Prod.snd) nodes ∧ targets.map Prod.fst = branches.map Prod.fst := by
  induction branches generalizing next targets nodes with
  | nil =>
    cases h
    exact ⟨.nil nofun, rfl⟩
  | cons b branches ih =>
    obtain ⟨target, nodes₁, targets', nodes₂, hfirst, hrest, rfl, rfl⟩ :=
      layoutBranches_cons_eq_ok_iff.mp h
    obtain ⟨hb, hbranches⟩ := List.forall_mem_cons.mp hbody
    obtain ⟨hpart, hlabels⟩ := ih (fun b' hb' {_ _ _} hle => hbranches b' hb' (by omega)) hrest
    refine ⟨(hb le_rfl hfirst).append hpart, ?_⟩
    rw [List.map_cons, List.map_cons, hlabels]

theorem lt_of_lookup_bind {waiting : List Variable}
    (hscope : ∀ v id, scope.lookup v = some id → id < next)
    {v : Variable} {id : NodeId} (h : (scope.bind waiting next).lookup v = some id) :
    id < next + 1 := by
  rw [Scope.lookup_bind] at h
  split at h
  · obtain rfl := Option.some.inj h
    exact Nat.lt_succ_self _
  · exact Nat.lt_succ_of_lt (hscope v id h)

theorem part_of_layout (t : Term) {waiting : List Variable} {id : NodeId} {nodes : List Node}
    (hscope : ∀ v id, scope.lookup v = some id → id < next)
    (h : t.layout scope waiting next = .ok (id, nodes)) : Part next [id] nodes := by
  induction t using inductionOn generalizing scope waiting next id nodes with
  | done =>
    obtain ⟨-, rfl, rfl⟩ := layout_done_eq_ok_iff.mp h
    exact .done
  | message polarity participant payload body ih =>
    obtain ⟨target, nodes', -, rfl, hbody, rfl⟩ := layout_message_eq_ok_iff.mp h
    exact .cons (ih (fun _ _ => lt_of_lookup_bind hscope) hbody) trivial
  | choice polarity participant branches ih =>
    obtain ⟨targets, nodes', hascending, -, rfl, hbody, rfl⟩ := layout_choice_eq_ok_iff.mp h
    obtain ⟨hpart, hlabels⟩ := part_of_layoutBranches
      (fun b hb {_ _ _} hle hlayout => ih b hb
        (fun v id hv => Nat.lt_of_lt_of_le (lt_of_lookup_bind hscope hv) hle) hlayout) hbody
    refine .cons hpart ?_
    rw [Node.Sorted, hlabels]
    exact hascending
  | mu v body ih => exact ih hscope h
  | var v =>
    obtain ⟨-, hv, rfl⟩ := layout_var_eq_ok_iff.mp h
    exact .nil fun id hid => (List.mem_singleton.mp hid) ▸ hscope v _ hv

theorem wellFormed_toGraph {t : Term} {g : Graph} (h : t.toGraph = .ok g) : g.WellFormed := by
  obtain ⟨root, nodes, hlayout, rfl⟩ := toGraph_eq_ok_iff.mp h
  exact (t.part_of_layout (fun _ _ h => by cases h) hlayout).wellFormed

end Term

/-! ## The exponential family -/

theorem ExponentialFamily.wellFormed_member {k : Nat} {g : Graph} (h : member k = .ok g) :
    g.WellFormed := by
  rcases Nat.eq_zero_or_pos k with rfl | hk
  · cases h
  · rw [member_eq hk, within_eq_ok_iff] at h
    obtain ⟨-, rfl⟩ := h
    have hroot : 0 < (nodes k).length := by
      rw [length_nodes]
      omega
    refine Graph.wellFormed_of_nodes hroot fun n hn => ?_
    obtain ⟨a, b, rfl, ha, hb⟩ := exists_fork hk hn
    refine ⟨?_, ?_⟩
    · simp [fork, Node.Sorted, Ascending]
    · simp [fork, Node.successors, ha, hb]

/-! ## Draws -/

/-- `a` may be drawn. -/
def Drawing.Gives {σ α : Type} (x : Drawing σ α) (a : α) : Prop := ∃ s s', x.run s = .ok (a, s')

namespace Drawing

variable {σ α β : Type} {x : Drawing σ α} {f : α → Drawing σ β} {a b : α}

theorem Gives.bind {b : β} (h : Gives (x >>= f) b) : ∃ a, x.Gives a ∧ (f a).Gives b := by
  obtain ⟨s, s', h⟩ := h
  rw [StateT.run_bind, bind_eq_ok_iff] at h
  obtain ⟨⟨a, s₁⟩, hx, hf⟩ := h
  exact ⟨a, ⟨s, s₁, hx⟩, s₁, s', hf⟩

theorem Gives.pure (h : Gives (pure a : Drawing σ α) b) : b = a := by
  obtain ⟨s, s', h⟩ := h
  rw [StateT.run_pure, pure_eq_ok_iff] at h
  exact congrArg Prod.fst h

theorem Gives.lift {x : Except Fault α} (h : Gives (liftM x : Drawing σ α) a) : x = .ok a := by
  obtain ⟨s, s', h⟩ := h
  rw [StateT.run_monadLift, bind_eq_ok_iff] at h
  obtain ⟨a', hx, h⟩ := h
  cases pure_eq_ok_iff.mp h
  exact hx

theorem not_gives_throw {fault : Fault} : ¬ Gives (throw fault : Drawing σ α) a := by
  rintro ⟨s, s', h⟩
  cases h

end Drawing

namespace Source

variable {σ : Type} {source : Source σ} {bound : Nat}

theorem distinctFrom_spec {tries needed : Nat} {room : needed ≤ bound} {seen : Std.TreeSet Nat}
    {values : List Nat} (h : (source.distinctFrom bound tries needed room seen).Gives values) :
    values.Nodup ∧ (∀ value ∈ values, value ∉ seen) ∧ values.length = needed := by
  induction tries generalizing needed seen values with
  | zero =>
    cases needed with
    | zero =>
      obtain rfl := h.pure
      exact ⟨List.nodup_nil, nofun, rfl⟩
    | succ needed => exact absurd h Drawing.not_gives_throw
  | succ tries ih =>
    cases needed with
    | zero =>
      obtain rfl := h.pure
      exact ⟨List.nodup_nil, nofun, rfl⟩
    | succ needed =>
      rw [distinctFrom] at h
      obtain ⟨value, -, h⟩ := h.bind
      split at h
      · exact ih h
      · rename_i hvalue
        obtain ⟨values', hvalues, h⟩ := h.bind
        obtain rfl := h.pure
        obtain ⟨hnodup, hunseen, hlength⟩ := ih hvalues
        refine ⟨List.nodup_cons.mpr ⟨fun hmem => ?_, hnodup⟩, ?_, by rw [List.length_cons, hlength]⟩
        · exact hunseen _ hmem (by simp)
        · refine List.forall_mem_cons.mpr ⟨hvalue, fun v hv hseen => hunseen v hv ?_⟩
          exact Std.TreeSet.mem_insert.mpr (.inr hseen)

end Source

namespace RandomFamily

variable {σ : Type} {source : Source σ} {family : RandomFamily} {next : Nat} {path : List NodeId}

theorem length_gaps (start : Nat) (cuts : List Nat) (stop : Nat) :
    (gaps start cuts stop).length = cuts.length + 1 := by
  induction cuts generalizing start with
  | nil => rfl
  | cons cut cuts ih => rw [gaps, List.length_cons, List.length_cons, ih]

theorem nodup_drawShares {factor size : Nat} {hfactor : 0 < factor} {hsize : 1 < size}
    {shares : List (Label × Nat)} (h : (drawShares source factor size hfactor hsize).Gives shares) :
    (shares.map Prod.fst).Nodup := by
  unfold drawShares at h
  obtain ⟨extra, -, h⟩ := h.bind
  obtain ⟨labels, hlabels, h⟩ := h.bind
  obtain ⟨cuts, hcuts, h⟩ := h.bind
  obtain rfl := h.pure
  obtain ⟨hnodup, -, hlength⟩ := Source.distinctFrom_spec hlabels
  obtain ⟨-, -, hlength'⟩ := Source.distinctFrom_spec hcuts
  rw [List.map_fst_zip]
  · exact hnodup
  · rw [length_gaps, List.length_mergeSort, List.length_map, hlength, hlength']

/-- Growing stops with an edge back or with the end of the protocol. -/
theorem gives_drawLeaf {backEdges : Bool} {id : NodeId} {nodes : List Node}
    (h : (drawLeaf source backEdges path next).Gives (id, nodes)) :
    (backEdges = true ∧ id ∈ path ∧ nodes = []) ∨ (id = next ∧ nodes = [.done]) := by
  have hdone : ∀ {id : NodeId} {nodes : List Node}, Drawing.Gives (σ := σ)
      (do let id ← liftM (NodeId.ofIndex next); pure (id, [.done])) (id, nodes) →
      id = next ∧ nodes = [.done] := by
    intro id nodes h
    obtain ⟨id', hid, hpure⟩ := h.bind
    obtain ⟨-, rfl⟩ := NodeId.ofIndex_eq_ok_iff.mp hid.lift
    cases hpure.pure
    exact ⟨rfl, rfl⟩
  unfold drawLeaf at h
  split at h
  · rename_i hinside
    obtain ⟨side, -, h⟩ := h.bind
    split at h
    · obtain ⟨index, -, h⟩ := h.bind
      cases h.pure
      exact .inl ⟨hinside.1, List.mem_reverse.mp (List.get_mem _ _), rfl⟩
    · exact .inr (hdone h)
  · exact .inr (hdone h)

theorem part_of_drawLeaf {backEdges : Bool} {id : NodeId} {nodes : List Node}
    (hpath : ∀ id ∈ path, id < next)
    (h : (drawLeaf source backEdges path next).Gives (id, nodes)) : Part next [id] nodes := by
  rcases gives_drawLeaf h with ⟨-, hid, rfl⟩ | ⟨rfl, rfl⟩
  · refine .nil fun id' hid' => ?_
    rw [List.mem_singleton.mp hid']
    exact hpath id hid
  · exact .done

theorem part_of_growBranches {grow : Nat → Nat → Drawing σ (NodeId × List Node)}
    (hgrow : ∀ {size next' id nodes}, next ≤ next' → (grow size next').Gives (id, nodes) →
      Part next' [id] nodes)
    {shares : List (Label × Nat)} {targets : List (Label × NodeId)} {nodes : List Node}
    (h : (growBranches grow shares next).Gives (targets, nodes)) :
    Part next (targets.map Prod.snd) nodes ∧ targets.map Prod.fst = shares.map Prod.fst := by
  induction shares generalizing next targets nodes with
  | nil =>
    cases h.pure
    exact ⟨.nil nofun, rfl⟩
  | cons share shares ih =>
    obtain ⟨label, size⟩ := share
    cases shares with
    | nil =>
      obtain ⟨⟨target, nodes'⟩, hgrown, h⟩ := h.bind
      cases h.pure
      exact ⟨hgrow le_rfl hgrown, rfl⟩
    | cons share' shares =>
      obtain ⟨⟨target, nodes₁⟩, hgrown, h⟩ := h.bind
      obtain ⟨⟨targets', nodes₂⟩, hrest, h⟩ := h.bind
      cases h.pure
      obtain ⟨hpart, hlabels⟩ := ih (fun hle => hgrow (by omega)) hrest
      exact ⟨(hgrow le_rfl hgrown).append hpart, by rw [List.map_cons, hlabels]; rfl⟩

/-- Labels that differ ascend once they are sorted. -/
theorem sorted_sortBranches {branches : List (Label × NodeId)}
    (h : (branches.map Prod.fst).Nodup) : Ascending ((sortBranches branches).map Prod.fst) := by
  have hsorted : (sortBranches branches).Pairwise fun a b => decide (a.1 ≤ b.1) = true :=
    List.pairwise_mergeSort (by simp only [decide_eq_true_eq]; exact fun _ _ _ => le_trans)
      (by simp only [Bool.or_eq_true, decide_eq_true_eq]; exact fun _ _ => le_total _ _) _
  have hnodup : ((sortBranches branches).map Prod.fst).Nodup :=
    ((List.mergeSort_perm _ _).map Prod.fst).nodup_iff.mpr h
  rw [Ascending, List.pairwise_map]
  exact (hsorted.and (List.pairwise_map.mp hnodup)).imp fun hab =>
    lt_of_le_of_ne (of_decide_eq_true hab.1) hab.2

/-- What is grown starts with a message, with a choice, or where growing stops. -/
theorem gives_grow {hparticipants : 0 < family.participants} {hfactor : 0 < family.labelCount}
    {depth size : Nat} {id : NodeId} {nodes : List Node}
    (h : (family.grow source hparticipants hfactor (depth + 1) size path next).Gives (id, nodes)) :
    (1 < size ∧ id = next ∧ ∃ polarity participant payload target nodes',
      participant < family.participants ∧
      (family.grow source hparticipants hfactor depth (size - 1) (next :: path) (next + 1)).Gives
        (target, nodes') ∧ nodes = .message polarity participant payload target :: nodes') ∨
    (∃ hsize : 1 < size, id = next ∧ ∃ polarity participant shares targets nodes',
      participant < family.participants ∧
      (drawShares source family.labelCount size hfactor hsize).Gives shares ∧
      (growBranches (fun size next' =>
        family.grow source hparticipants hfactor depth size (next :: path) next') shares
        (next + 1)).Gives (targets, nodes') ∧
      nodes = .choice polarity participant (sortBranches targets) :: nodes') ∨
    (size ≤ 1 ∧ (drawLeaf source family.backEdges path next).Gives (id, nodes)) := by
  rw [grow] at h
  split at h
  · rename_i hsize
    obtain ⟨participant, -, h⟩ := h.bind
    obtain ⟨id', hid, h⟩ := h.bind
    obtain ⟨-, rfl⟩ := NodeId.ofIndex_eq_ok_iff.mp hid.lift
    obtain ⟨kind, -, h⟩ := h.bind
    extract_lets polarity at h
    split at h
    · obtain ⟨payload, -, h⟩ := h.bind
      obtain ⟨⟨target, nodes'⟩, hgrown, h⟩ := h.bind
      cases h.pure
      exact .inl ⟨hsize, rfl, polarity, participant, payload, target, nodes', participant.isLt,
        hgrown, rfl⟩
    · obtain ⟨shares, hshares, h⟩ := h.bind
      obtain ⟨⟨targets, nodes'⟩, hgrown, h⟩ := h.bind
      cases h.pure
      exact .inr (.inl ⟨hsize, rfl, polarity, participant, shares, targets, nodes',
        participant.isLt, hshares, hgrown, rfl⟩)
  · rename_i hsize
    exact .inr (.inr ⟨Nat.le_of_not_lt hsize, h⟩)

theorem part_of_grow {hparticipants : 0 < family.participants} {hfactor : 0 < family.labelCount}
    {depth size : Nat} {id : NodeId} {nodes : List Node} (hpath : ∀ id ∈ path, id < next)
    (h : (family.grow source hparticipants hfactor depth size path next).Gives (id, nodes)) :
    Part next [id] nodes := by
  induction depth generalizing size path next id nodes with
  | zero => exact part_of_drawLeaf hpath h
  | succ depth ih =>
    have hpath' : ∀ id ∈ next :: path, id < next + 1 :=
      List.forall_mem_cons.mpr ⟨Nat.lt_succ_self _, fun id hid => Nat.lt_succ_of_lt (hpath id hid)⟩
    rcases gives_grow h with
      ⟨-, rfl, polarity, participant, payload, target, nodes', -, hgrown, rfl⟩ |
      ⟨hsize, rfl, polarity, participant, shares, targets, nodes', -, hshares, hgrown, rfl⟩ |
      ⟨-, hleaf⟩
    · exact .cons (ih hpath' hgrown) trivial
    · obtain ⟨hpart, hlabels⟩ := part_of_growBranches
        (fun hle => ih fun id hid => Nat.lt_of_lt_of_le (hpath' id hid) hle) hgrown
      -- the branches are grown in the order drawn and put in the order of their labels after it
      refine .cons ⟨fun id hid => hpart.starts id ?_, hpart.nodes⟩ (sorted_sortBranches ?_)
      · exact ((List.mergeSort_perm targets _).map Prod.snd).mem_iff.mp hid
      · rw [hlabels]
        exact nodup_drawShares hshares
    · exact part_of_drawLeaf hpath hleaf

theorem wellFormed_draw {drawing : Drawing σ Graph} {g : Graph}
    (h : family.draw source = .ok drawing) (hg : drawing.Gives g) : g.WellFormed := by
  unfold draw at h
  split at h
  · split at h
    · cases h
      obtain ⟨⟨root, nodes⟩, hgrown, hg⟩ := hg.bind
      cases hg.pure
      exact (part_of_grow (by simp) hgrown).wellFormed
    · cases h
  · cases h

end RandomFamily

/-! ## Trees of loops -/

namespace LoopFamily

variable {σ : Type} {source : Source σ}

theorem within_openNode {bound : Nat} (h : 0 < bound) : openNode.Within bound := by
  refine ⟨by decide, fun id hid => ?_⟩
  simp only [openNode, Node.successors, List.map_cons, List.map_nil, List.mem_cons,
    List.not_mem_nil, or_false, or_self] at hid
  rw [hid]
  exact h

theorem wellFormed_growTree {count : Nat} {ends : Array OpenEnd} {g g' : Graph}
    (hg : g.WellFormed) (h : (growTree source count ends g).Gives g') : g'.WellFormed := by
  induction count generalizing ends g with
  | zero =>
    cases h.pure
    exact hg
  | succ count ih =>
    rw [growTree] at h
    split at h
    · obtain ⟨⟨id, g₁⟩, hpush, h⟩ := h.bind
      obtain ⟨hg₁, hid, hsize⟩ := hg.push (within_openNode (Nat.succ_pos _)) hpush.lift
      obtain ⟨index, -, h⟩ := h.bind
      obtain ⟨g₂, hset, h⟩ := h.bind
      have hid : id < g₁.size := by
        rw [hid, hsize]
        exact Nat.lt_succ_self _
      exact ih (hg₁.setSuccessor hid hset.lift).1 h
    · cases h.pure
      exact hg

theorem wellFormed_draw {count : Nat} {drawing : Drawing σ Graph} {g : Graph}
    (h : draw count source = .ok drawing) (hg : drawing.Gives g) : g.WellFormed := by
  unfold draw at h
  split at h
  · cases h
  · cases h
    refine wellFormed_growTree ?_ hg
    exact Graph.wellFormed_of_nodes Nat.one_pos fun n hn => by
      rw [List.mem_singleton.mp hn]
      exact within_openNode Nat.one_pos

end LoopFamily

/-- Whatever is drawn, the members of the families are well formed. -/
theorem Family.wellFormed_draw {σ : Type} {source : Source σ} {family : Family}
    {drawing : Drawing σ Graph} {g : Graph} (h : family.draw source = .ok drawing)
    (hg : drawing.Gives g) : g.WellFormed := by
  cases family with
  | random family => exact RandomFamily.wellFormed_draw h hg
  | loops count => exact LoopFamily.wellFormed_draw h hg
  | exponential k =>
    obtain ⟨g', hmember, h⟩ := bind_eq_ok_iff.mp h
    cases h
    cases hg.pure
    exact ExponentialFamily.wellFormed_member hmember

end SessionGraph
