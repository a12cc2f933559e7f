import Mathlib.Data.List.Nodup
import Mathlib.Logic.Relation
import SessionGraph.Graph

/-!
# Trees with edges back

Terms are laid out, and random types are grown, as trees: a node is followed by all that is below
it, and an edge leads to a node that comes later in its turn or back to one on the way from the
root. `Treelike` says so of a row of nodes that lies behind others.

Counting shows what such a row is. The edges that lead to larger ids and the places where the trees
start are the nodes, once each (`Treelike.perm_range'`), and the other edges are those back
(`Treelike.countP_back`), each to the node itself or to one above it (`Treelike.above`).
-/

namespace SessionGraph

/-- `nodes` lie from `next` on as trees below the nodes of `path`, and `ids` are where the trees
start. An id is that of a node of `path`, or of the first node that is not taken. The latter is
followed by the trees that its successors start, in an order that `arrange` allows, and by those of
the ids behind it. The nodes of paths that are led back to are `backs`. -/
inductive Treelike (arrange : List NodeId → List NodeId → Prop) :
    (path : List NodeId) → (next : Nat) → (ids : List NodeId) → List Node →
      (backs : List NodeId) → Prop
  | nil {path : List NodeId} {next : Nat} : Treelike arrange path next [] [] []
  | back {path ids backs : List NodeId} {next : Nat} {id : NodeId} {nodes : List Node}
      (hid : id ∈ path) (hrest : Treelike arrange path next ids nodes backs) :
      Treelike arrange path next (id :: ids) nodes (id :: backs)
  | node {path ids starts backs backs' : List NodeId} {next : Nat} {n : Node}
      {below rest : List Node} (harrange : arrange n.successors starts)
      (hbelow : Treelike arrange (next :: path) (next + 1) starts below backs)
      (hrest : Treelike arrange path (next + 1 + below.length) ids rest backs') :
      Treelike arrange path next (next :: ids) (n :: (below ++ rest)) (backs ++ backs')

/-- The edges of nodes that lie from `next` on, each from a node to another. -/
def arrowsFrom (next : Nat) (nodes : List Node) : List (NodeId × NodeId) :=
  (nodes.zipIdx next).flatMap fun (n, id) => n.successors.map (id, ·)

theorem arrowsFrom_cons (next : Nat) (n : Node) (nodes : List Node) :
    arrowsFrom next (n :: nodes) =
      n.successors.map (next, ·) ++ arrowsFrom (next + 1) nodes := by
  simp [arrowsFrom, List.zipIdx_cons]

theorem arrowsFrom_append (next : Nat) (nodes nodes' : List Node) :
    arrowsFrom next (nodes ++ nodes') =
      arrowsFrom next nodes ++ arrowsFrom (next + nodes.length) nodes' := by
  simp [arrowsFrom, List.zipIdx_append]

namespace Treelike

variable {arrange : List NodeId → List NodeId → Prop} {path ids starts backs backs' : List NodeId}
  {next : Nat} {id : NodeId} {n : Node} {nodes nodes' below : List Node}

theorem single (harrange : arrange n.successors starts)
    (hbelow : Treelike arrange (next :: path) (next + 1) starts below backs) :
    Treelike arrange path next [next] (n :: below) backs := by
  simpa using node harrange hbelow nil

theorem append (h : Treelike arrange path next [id] nodes backs)
    (h' : Treelike arrange path (next + nodes.length) ids nodes' backs') :
    Treelike arrange path next (id :: ids) (nodes ++ nodes') (backs ++ backs') := by
  cases h with
  | back hid hrest =>
    cases hrest
    exact back hid h'
  | @node _ _ _ backs₁ _ _ n below rest harrange hbelow hrest =>
    cases hrest
    have hlength : next + (n :: (below ++ [])).length = next + 1 + below.length := by
      simp
      omega
    rw [hlength] at h'
    simpa using node harrange hbelow h'

/-- An id leads back, or to a node of the row. -/
theorem mem_or_le (h : Treelike arrange path next ids nodes backs) (hid : id ∈ ids) :
    id ∈ path ∨ (next ≤ id ∧ id < next + nodes.length) := by
  induction h with
  | nil => cases hid
  | back hmem _ ih =>
    rcases List.mem_cons.mp hid with rfl | hid
    · exact .inl hmem
    · exact ih hid
  | @node path ids starts backs backs' next n below rest _ _ _ _ ih =>
    simp only [List.length_cons, List.length_append]
    rcases List.mem_cons.mp hid with rfl | hid
    · exact .inr ⟨Nat.le_refl _, Nat.lt_add_of_pos_right (Nat.succ_pos _)⟩
    · refine (ih hid).imp_right fun ⟨hle, hlt⟩ => ⟨?_, ?_⟩
      · rw [Nat.add_assoc] at hle
        exact Nat.le_trans (Nat.le_add_right _ _) hle
      · exact Nat.lt_of_lt_of_le hlt (by omega)

theorem lt_below (hpath : ∀ id ∈ path, id < next) : ∀ id ∈ next :: path, id < next + 1 :=
  List.forall_mem_cons.mpr ⟨Nat.lt_succ_self next, fun id hid => Nat.lt_succ_of_lt (hpath id hid)⟩

theorem lt_rest (hpath : ∀ id ∈ path, id < next) (length : Nat) :
    ∀ id ∈ path, id < next + 1 + length :=
  fun id hid => Nat.lt_add_right _ (Nat.lt_succ_of_lt (hpath id hid))

section Count

/-- Behind the trees of a node, ids that do not lead back are behind its trees. -/
theorem le_iff_of_rest {length : Nat} (h : Treelike arrange path (next + length) ids nodes backs)
    (hpath : ∀ id ∈ path, id < next) (hid : id ∈ ids) : next ≤ id ↔ next + length ≤ id := by
  refine ⟨fun hle => ?_, fun hle => Nat.le_trans (Nat.le_add_right _ _) hle⟩
  rcases h.mem_or_le hid with hmem | hmem
  · exact absurd (hpath id hmem) (Nat.not_lt.mpr hle)
  · exact hmem.1

variable (harrange : ∀ l l', arrange l l' → l.Perm l')
include harrange

/-- The edges to larger ids, with the places where the trees start, lead to each node of the row
once. -/
theorem perm_range' (h : Treelike arrange path next ids nodes backs)
    (hpath : ∀ id ∈ path, id < next) :
    (((arrowsFrom next nodes).filter fun e => e.1 < e.2).map Prod.snd ++
      ids.filter fun id => next ≤ id).Perm (List.range' next nodes.length) := by
  induction h with
  | nil => simp [arrowsFrom]
  | @back path ids backs next id nodes hid _ ih =>
    rw [List.filter_cons_of_neg (by simpa using hpath id hid)]
    exact ih hpath
  | @node path ids starts backs backs' next n below rest hn hbelow hrest ihbelow ihrest =>
    have hbelow' := ihbelow (lt_below hpath)
    have hrest' := ihrest (lt_rest hpath _)
    have hown : ((n.successors.map (next, ·)).filter fun e => e.1 < e.2).map Prod.snd =
        n.successors.filter fun id => next + 1 ≤ id := by
      rw [List.filter_map, List.map_map]
      exact List.map_id _
    have hstarts := (harrange _ _ hn).filter fun id => next + 1 ≤ id
    have hids : ids.filter (fun id => next ≤ id) =
        ids.filter fun id => next + 1 + below.length ≤ id := by
      refine List.filter_congr fun id hid => ?_
      rw [Nat.add_assoc] at hrest ⊢
      simpa using hrest.le_iff_of_rest hpath hid
    have hrange : List.range' next (n :: (below ++ rest)).length =
        next :: (List.range' (next + 1) below.length ++
          List.range' (next + 1 + below.length) rest.length) := by
      rw [List.length_cons, List.length_append, List.range'_succ, List.range'_append_1]
    rw [arrowsFrom_cons, arrowsFrom_append, hrange]
    rw [List.perm_iff_count] at hbelow' hrest' hstarts ⊢
    intro id
    have h₁ := hbelow' id
    have h₂ := hrest' id
    have h₃ := hstarts id
    simp only [List.filter_append, List.map_append, List.count_append, hown, hids,
      List.filter_cons_of_pos, Nat.le_refl, decide_true, List.count_cons] at h₁ h₂ h₃ ⊢
    omega

/-- The edges of the row that do not lead to larger ids, with the places that lead back, are as many
as the nodes that are led back to. -/
theorem countP_back (h : Treelike arrange path next ids nodes backs)
    (hpath : ∀ id ∈ path, id < next) :
    ((arrowsFrom next nodes).countP fun e => e.2 ≤ e.1) + (ids.countP fun id => id < next) =
      backs.length := by
  induction h with
  | nil => simp [arrowsFrom]
  | @back path ids backs next id nodes hid _ ih =>
    rw [List.countP_cons_of_pos (by simpa using hpath id hid), List.length_cons, ← ih hpath,
      Nat.add_assoc]
  | @node path ids starts backs backs' next n below rest hn hbelow hrest ihbelow ihrest =>
    have hbelow' := ihbelow (lt_below hpath)
    have hrest' := ihrest (lt_rest hpath _)
    have hown : ((n.successors.map (next, ·)).countP fun e => e.2 ≤ e.1) =
        starts.countP fun id => id < next + 1 := by
      rw [List.countP_map, (harrange _ _ hn).countP_eq]
      refine List.countP_congr fun id _ => ?_
      simp only [Function.comp_apply, decide_eq_true_eq]
      exact Nat.lt_succ_iff.symm
    have hids : (ids.countP fun id => id < next) =
        ids.countP fun id => id < next + 1 + below.length := by
      refine List.countP_congr fun id hid => ?_
      rw [Nat.add_assoc] at hrest ⊢
      have hiff := not_congr (hrest.le_iff_of_rest hpath hid)
      simpa [Nat.not_le] using hiff
    rw [arrowsFrom_cons, arrowsFrom_append, List.countP_append, List.countP_append, hown,
      List.countP_cons_of_neg (by simp), hids, List.length_append]
    omega

/-- Every node of the row is below one where a tree starts, and its edges that do not lead to larger
ids lead to itself or to nodes above it, as far as the nodes of the path are above all. -/
theorem above {E : NodeId → NodeId → Prop} (h : Treelike arrange path next ids nodes backs)
    (hE : ∀ e ∈ arrowsFrom next nodes, e.1 < e.2 → E e.1 e.2)
    (hpath : ∀ id ∈ ids, next ≤ id → ∀ p ∈ path, Relation.ReflTransGen E p id) :
    (∀ id, next ≤ id → id < next + nodes.length →
      ∃ start ∈ ids, next ≤ start ∧ Relation.ReflTransGen E start id) ∧
    ∀ e ∈ arrowsFrom next nodes, e.2 ≤ e.1 → Relation.ReflTransGen E e.2 e.1 := by
  induction h with
  | nil => exact ⟨fun id hle hlt => absurd hlt (Nat.not_lt.mpr hle), by simp [arrowsFrom]⟩
  | @back path ids backs next id nodes hid hrest ih =>
    obtain ⟨hstarts, hbacks⟩ := ih hE (List.forall_mem_cons.mp hpath).2
    refine ⟨fun id' hle hlt => ?_, hbacks⟩
    obtain ⟨start, hstart, hrest⟩ := hstarts id' hle hlt
    exact ⟨start, List.mem_cons_of_mem _ hstart, hrest⟩
  | @node path ids starts backs backs' next n below rest hn hbelow hrest ihbelow ihrest =>
    rw [arrowsFrom_cons, arrowsFrom_append] at hE ⊢
    obtain ⟨hfirst, hpath⟩ := List.forall_mem_cons.mp hpath
    have hfirst := hfirst (Nat.le_refl next)
    have hsucc : ∀ id, id ∈ n.successors ↔ id ∈ starts := fun id => (harrange _ _ hn).mem_iff
    have hstep : ∀ id ∈ starts, next + 1 ≤ id → E next id := by
      intro id hid hle
      refine hE (next, id) (List.mem_append_left _ ?_) hle
      exact List.mem_map_of_mem ((hsucc id).mpr hid)
    obtain ⟨hstarts₁, hbacks₁⟩ := ihbelow
      (fun e he => hE e (List.mem_append_right _ (List.mem_append_left _ he))) (by
        intro id hid hle p hp
        rcases List.mem_cons.mp hp with rfl | hp
        · exact .single (hstep id hid hle)
        · exact (hfirst p hp).tail (hstep id hid hle))
    have hskip : next ≤ next + 1 + below.length := by omega
    obtain ⟨hstarts₂, hbacks₂⟩ := ihrest
      (fun e he => hE e (List.mem_append_right _ (List.mem_append_right _ he)))
      fun id hid hle => hpath id hid (Nat.le_trans hskip hle)
    constructor
    · intro id hle hlt
      rw [List.length_cons, List.length_append] at hlt
      rcases Nat.eq_or_lt_of_le hle with rfl | hle
      · exact ⟨next, List.mem_cons_self, Nat.le_refl _, .refl⟩
      · rcases Nat.lt_or_ge id (next + 1 + below.length) with hlt' | hge
        · obtain ⟨start, hstart, hle', habove⟩ := hstarts₁ id hle hlt'
          exact ⟨next, List.mem_cons_self, Nat.le_refl _, .head (hstep start hstart hle') habove⟩
        · obtain ⟨start, hstart, hle', habove⟩ := hstarts₂ id hge (by omega)
          exact ⟨start, List.mem_cons_of_mem _ hstart, Nat.le_trans hskip hle', habove⟩
    · intro e he hback
      rcases List.mem_append.mp he with he | he
      · obtain ⟨target, htarget, rfl⟩ := List.mem_map.mp he
        rcases hbelow.mem_or_le ((hsucc target).mp htarget) with hmem | ⟨hle, -⟩
        · rcases List.mem_cons.mp hmem with rfl | hmem
          · exact .refl
          · exact hfirst target hmem
        · exact absurd hback (Nat.not_le.mpr hle)
      · rcases List.mem_append.mp he with he | he
        · exact hbacks₁ e he hback
        · exact hbacks₂ e he hback

end Count

end Treelike

/-! ## Graphs -/

namespace Graph

/-- The edges of the graph, each from a node to another. -/
def arrows (g : Graph) : List (NodeId × NodeId) := arrowsFrom 0 g.nodes.toList

/-- The edges that lead to a larger id. -/
def treeEdges (g : Graph) : List (NodeId × NodeId) := g.arrows.filter fun e => e.1 < e.2

/-- The edges that do not lead to a larger id. -/
def backEdges (g : Graph) : List (NodeId × NodeId) := g.arrows.filter fun e => e.2 ≤ e.1

/-- `g.Above id id'` says that edges to larger ids lead from `id` to `id'`, if these differ. -/
def Above (g : Graph) : NodeId → NodeId → Prop :=
  Relation.ReflTransGen fun id id' => (id, id') ∈ g.treeEdges

/-- The edges to larger ids make the graph a tree: it starts at the node 0, all other nodes are
below it and are led to by one such edge each. All other edges lead back, to the node itself or to
one above it. -/
structure TreeWithBackEdges (g : Graph) : Prop where
  root : g.root = some 0
  parent : ∀ id, 0 < id → id < g.size → (g.treeEdges.countP fun e => e.2 = id) = 1
  above : ∀ id < g.size, g.Above 0 id
  back : ∀ e ∈ g.backEdges, g.Above e.2 e.1

end Graph

namespace Treelike

variable {arrange : List NodeId → List NodeId → Prop} {root : NodeId} {nodes : List Node}
  {backs : List NodeId}

theorem root_eq (h : Treelike arrange [] 0 [root] nodes backs) : root = 0 := by
  cases h with
  | back hid => cases hid
  | node => rfl

theorem treeWithBackEdges (harrange : ∀ l l', arrange l l' → l.Perm l')
    (h : Treelike arrange [] 0 [root] nodes backs) :
    Graph.TreeWithBackEdges ⟨nodes.toArray, some root⟩ ∧
      (Graph.backEdges ⟨nodes.toArray, some root⟩).length = backs.length := by
  obtain rfl := h.root_eq
  have hperm := h.perm_range' harrange nofun
  have hbacks := h.countP_back harrange nofun
  obtain ⟨habove, hback⟩ := h.above (E := fun id id' =>
    (id, id') ∈ Graph.treeEdges ⟨nodes.toArray, some 0⟩) harrange
    (fun e he hlt => List.mem_filter.mpr ⟨he, by simpa using hlt⟩) nofun
  refine ⟨⟨rfl, fun id hpos hlt => ?_, fun id hlt => ?_, fun e he => ?_⟩, ?_⟩
  · -- the root is where the only tree starts, and every other node is led to
    have hcount := hperm.count_eq id
    have hone : (List.range' 0 nodes.length).count id = 1 := by
      refine List.count_eq_one_of_mem List.nodup_range' (List.mem_range'_1.mpr ?_)
      exact ⟨Nat.zero_le _, by simpa [Graph.size] using hlt⟩
    have hnone : ([0].filter fun id => 0 ≤ id).count id = 0 :=
      List.count_eq_zero_of_not_mem (by simpa using Nat.ne_of_gt hpos)
    rw [hone, List.count_append, hnone, List.count, List.countP_map] at hcount
    exact hcount
  · obtain ⟨start, hstart, -, hstart'⟩ :=
      habove id (Nat.zero_le _) (by simpa [Graph.size] using hlt)
    rwa [List.mem_singleton.mp hstart] at hstart'
  · obtain ⟨he, hle⟩ := List.mem_filter.mp he
    exact hback e he (by simpa using hle)
  · rw [← hbacks, Graph.backEdges, ← List.countP_eq_length_filter]
    simp [Graph.arrows]

end Treelike

end SessionGraph
