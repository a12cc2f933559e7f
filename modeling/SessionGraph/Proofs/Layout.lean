import SessionGraph.Proofs.Closing
import SessionGraph.Proofs.Outcome
import SessionGraph.Proofs.Translation

/-!
# A term and its graph stand for the same tree

The graph of a term never unfolds anything: a variable is an edge back to the first action below its
binder. To see that the tree is the same, every subterm is closed with what the binders around it
stand for. A variable in scope then stands for a closed term that shows what its node shows, at all
depths up to the one that is looked at (`Term.Resolves`), and a variable that is waiting for its
node stands for a closed term with the same first action as the subterm itself. Looking below an
action takes one off the depth, so the waiting variables may enter the scope there
(`Term.Resolves.descend`).
-/

namespace SessionGraph

namespace Scope

variable {scope : Scope} {waiting : List Variable} {id : NodeId} {v : Variable}

theorem lookup_bind :
    (scope.bind waiting id).lookup v = if v ∈ waiting then some id else scope.lookup v := by
  induction waiting with
  | nil => rfl
  | cons w waiting ih =>
    simp only [bind, List.map_cons, List.cons_append, List.lookup_cons, List.mem_cons] at ih ⊢
    by_cases hv : v = w
    · simp [hv]
    · simp [beq_eq_false_iff_ne.mpr hv, hv, ih]

theorem exists_lookup_bind :
    (∃ i, (scope.bind waiting id).lookup v = some i) ↔
      v ∈ waiting ∨ ∃ i, scope.lookup v = some i := by
  rw [lookup_bind]
  by_cases hv : v ∈ waiting <;> simp [hv]

end Scope

namespace Term

/-! ## What a layout consists of -/

section Inversion

variable {scope : Scope} {waiting : List Variable} {next : Nat} {id : NodeId} {nodes : List Node}

theorem layout_done_eq_ok_iff :
    layout scope waiting next .done = .ok (id, nodes) ↔
      next < NodeId.limit ∧ id = next ∧ nodes = [.done] := by
  simp only [layout, bind_eq_ok_iff, liftM_eq_ok_iff, NodeId.ofIndex_eq_ok_iff, pure_eq_ok_iff,
    Prod.mk.injEq]
  constructor
  · rintro ⟨_, ⟨hnext, rfl⟩, rfl, rfl⟩
    exact ⟨hnext, rfl, rfl⟩
  · rintro ⟨hnext, rfl, rfl⟩
    exact ⟨_, ⟨hnext, rfl⟩, rfl, rfl⟩

theorem layout_var_eq_ok_iff {v : Variable} :
    layout scope waiting next (.var v) = .ok (id, nodes) ↔
      v ∉ waiting ∧ scope.lookup v = some id ∧ nodes = [] := by
  rw [layout]
  by_cases hv : v ∈ waiting
  · simp [hv]
  · rcases scope.lookup v with _ | id' <;> simp [hv, eq_comm]

theorem layout_message_eq_ok_iff {polarity : Polarity} {participant : Participant}
    {payload : Payload} {body : Term} :
    layout scope waiting next (.message polarity participant payload body) = .ok (id, nodes) ↔
      ∃ target nodes', next < NodeId.limit ∧ id = next ∧
        body.layout (scope.bind waiting next) [] (next + 1) = .ok (target, nodes') ∧
        nodes = .message polarity participant payload target :: nodes' := by
  simp only [layout, bind_eq_ok_iff, liftM_eq_ok_iff, NodeId.ofIndex_eq_ok_iff, pure_eq_ok_iff,
    Prod.exists, Prod.mk.injEq]
  constructor
  · rintro ⟨_, ⟨hnext, rfl⟩, target, nodes', hbody, rfl, rfl⟩
    exact ⟨target, nodes', hnext, rfl, hbody, rfl⟩
  · rintro ⟨target, nodes', hnext, rfl, hbody, rfl⟩
    exact ⟨_, ⟨hnext, rfl⟩, target, nodes', hbody, rfl, rfl⟩

theorem layout_choice_eq_ok_iff {polarity : Polarity} {participant : Participant}
    {branches : List (Label × Term)} :
    layout scope waiting next (.choice polarity participant branches) = .ok (id, nodes) ↔
      ∃ targets nodes', Ascending (branches.map Prod.fst) ∧ next < NodeId.limit ∧ id = next ∧
        layoutBranches (scope.bind waiting next) (next + 1) branches = .ok (targets, nodes') ∧
        nodes = .choice polarity participant targets :: nodes' := by
  by_cases hasc : Ascending (branches.map Prod.fst)
  · simp only [layout, hasc, not_true_eq_false, if_false, bind_eq_ok_iff, liftM_eq_ok_iff,
      NodeId.ofIndex_eq_ok_iff, pure_eq_ok_iff, Prod.exists, Prod.mk.injEq, true_and]
    constructor
    · rintro ⟨_, ⟨hnext, rfl⟩, targets, nodes', hbody, rfl, rfl⟩
      exact ⟨targets, nodes', hnext, rfl, hbody, rfl⟩
    · rintro ⟨targets, nodes', hnext, rfl, hbody, rfl⟩
      exact ⟨_, ⟨hnext, rfl⟩, targets, nodes', hbody, rfl, rfl⟩
  · simp [layout, hasc, bind_eq_ok_iff, throw, throwThe, MonadExceptOf.throw]

theorem layoutBranches_cons_eq_ok_iff {label : Label} {body : Term}
    {branches : List (Label × Term)} {targets : List (Label × NodeId)} :
    layoutBranches scope next ((label, body) :: branches) = .ok (targets, nodes) ↔
      ∃ target nodes₁ targets' nodes₂, body.layout scope [] next = .ok (target, nodes₁) ∧
        layoutBranches scope (next + nodes₁.length) branches = .ok (targets', nodes₂) ∧
        targets = (label, target) :: targets' ∧ nodes = nodes₁ ++ nodes₂ := by
  simp only [layoutBranches, bind_eq_ok_iff, pure_eq_ok_iff, Prod.exists, Prod.mk.injEq]
  constructor
  · rintro ⟨target, nodes₁, hbody, targets', nodes₂, hrest, rfl, rfl⟩
    exact ⟨target, nodes₁, targets', nodes₂, hbody, hrest, rfl, rfl⟩
  · rintro ⟨target, nodes₁, targets', nodes₂, hbody, hrest, rfl, rfl⟩
    exact ⟨target, nodes₁, hbody, targets', nodes₂, hrest, rfl, rfl⟩

theorem exists_layout_of_mem {branches : List (Label × Term)} {targets : List (Label × NodeId)}
    (h : layoutBranches scope next branches = .ok (targets, nodes)) {b : Label × Term}
    (hb : b ∈ branches) :
    ∃ next' target nodes', b.2.layout scope [] next' = .ok (target, nodes') := by
  induction branches generalizing next targets nodes with
  | nil => cases hb
  | cons b' branches ih =>
    obtain ⟨target, nodes₁, targets', nodes₂, hbody, hrest, -, -⟩ :=
      layoutBranches_cons_eq_ok_iff.mp h
    rcases List.mem_cons.mp hb with rfl | hb
    · exact ⟨next, target, nodes₁, hbody⟩
    · exact ih hrest hb

end Inversion

/-- A term that can be laid out has no free variables but those it was told of. -/
theorem closedIn_of_layout (t : Term) {scope : Scope} {waiting : List Variable} {next : Nat}
    {id : NodeId} {nodes : List Node} (h : t.layout scope waiting next = .ok (id, nodes)) :
    t.ClosedIn fun v => v ∈ waiting ∨ ∃ id, scope.lookup v = some id := by
  induction t using inductionOn generalizing scope waiting next id nodes with
  | done => trivial
  | message _ _ _ body ih =>
    obtain ⟨target, nodes', -, rfl, hbody, -⟩ := layout_message_eq_ok_iff.mp h
    exact (ih hbody).mono fun v hv => Scope.exists_lookup_bind.mp (hv.resolve_left List.not_mem_nil)
  | choice _ _ branches ih =>
    obtain ⟨targets, nodes', -, -, rfl, hbody, -⟩ := layout_choice_eq_ok_iff.mp h
    rw [ClosedIn, branchesClosedIn_iff]
    intro b hb
    obtain ⟨next', target, nodes', hlayout⟩ := exists_layout_of_mem hbody hb
    exact (ih b hb hlayout).mono fun v hv =>
      Scope.exists_lookup_bind.mp (hv.resolve_left List.not_mem_nil)
  | mu v body ih =>
    refine (ih h).mono ?_
    rintro w (hw | hw)
    · exact (List.mem_cons.mp hw).imp_right .inl
    · exact .inr (.inr hw)
  | var v =>
    obtain ⟨-, hlookup, -⟩ := layout_var_eq_ok_iff.mp h
    exact .inr ⟨id, hlookup⟩

end Term

namespace Graph

/-- The graph has the given nodes in a row, the first of them at `next`. -/
def Holds (g : Graph) : (next : Nat) → List Node → Prop
  | _, [] => True
  | next, node :: nodes => g.node next = .ok node ∧ g.Holds (next + 1) nodes

theorem holds_append {g : Graph} {next : Nat} {nodes nodes' : List Node} :
    g.Holds next (nodes ++ nodes') ↔
      g.Holds next nodes ∧ g.Holds (next + nodes.length) nodes' := by
  induction nodes generalizing next with
  | nil => simp [Holds]
  | cons node nodes ih =>
    rw [List.cons_append, Holds, Holds, ih, and_assoc, List.length_cons, Nat.add_right_comm,
      Nat.add_assoc]

theorem holds_toArray (before nodes : List Node) (root : Option NodeId) :
    (Graph.mk (before ++ nodes).toArray root).Holds before.length nodes := by
  induction nodes generalizing before with
  | nil => trivial
  | cons node nodes ih =>
    refine ⟨by simp [Graph.node], ?_⟩
    have hrest := ih (before ++ [node])
    rwa [List.append_assoc, List.singleton_append, List.length_append] at hrest

/-- A graph shows from a node on, up to a depth, what a term shows, and nothing else. -/
def Displays (g : Graph) (depth : Nat) (t : Term) (id : NodeId) : Prop :=
  ∃ tree, g.tree depth id = .ok tree ∧ ∀ tree', t.Shows depth tree' ↔ tree' = tree

section Displays

variable {g : Graph} {depth : Nat} {id : NodeId}

theorem displays_zero (t : Term) : g.Displays 0 t id := ⟨.cut, rfl, fun _ => Iff.rfl⟩

theorem displays_congr {t t' : Term} (h : ∀ head, t.Exposes head ↔ t'.Exposes head) :
    g.Displays depth t id ↔ g.Displays depth t' id := by
  simp only [Displays, Term.shows_congr h]

theorem displays_done (h : g.node id = .ok .done) : g.Displays (depth + 1) .done id := by
  refine ⟨.done, ?_, fun tree' => ?_⟩
  · rw [tree, h]
    rfl
  · constructor
    · rintro ⟨head, hhead, hshows⟩
      cases hhead
      exact hshows
    · rintro rfl
      exact ⟨.done, .done, rfl⟩

theorem displays_message {polarity : Polarity} {participant : Participant} {payload : Payload}
    {target : NodeId} {next : Term}
    (h : g.node id = .ok (.message polarity participant payload target))
    (hnext : g.Displays depth next target) :
    g.Displays (depth + 1) (.message polarity participant payload next) id := by
  obtain ⟨tree₁, htree, hshows⟩ := hnext
  refine ⟨.message polarity participant payload tree₁, ?_, fun tree' => ?_⟩
  · rw [tree]
    refine bind_eq_ok_iff.mpr ⟨_, h, ?_⟩
    exact bind_eq_ok_iff.mpr ⟨tree₁, htree, rfl⟩
  · constructor
    · rintro ⟨head, hhead, hbelow⟩
      cases hhead
      obtain ⟨tree₂, htree₂, rfl⟩ := hbelow
      rw [(hshows tree₂).mp htree₂]
    · rintro rfl
      exact ⟨_, .message, tree₁, (hshows tree₁).mpr rfl, rfl⟩

/-- Branches that are displayed one by one show one list of trees. -/
theorem exists_trees {targets : List (Label × NodeId)} {branches : List (Label × Term)}
    (h : List.Forall₂ (fun b t => b.1 = t.1 ∧ g.Displays depth b.2 t.2) branches targets) :
    ∃ trees, targets.mapM (fun t => return (t.1, ← g.tree depth t.2)) = .ok trees ∧
      ∀ trees', List.Forall₂ (fun b b' => b.1 = b'.1 ∧ Term.Shows depth b.2 b'.2) branches trees' ↔
        trees' = trees := by
  induction h with
  | nil => exact ⟨[], rfl, fun _ => List.forall₂_nil_left_iff⟩
  | @cons b t branches targets hbt _ ih =>
    obtain ⟨hlabel, tree₁, htree, hshows⟩ := hbt
    obtain ⟨trees, htrees, hall⟩ := ih
    refine ⟨(t.1, tree₁) :: trees, ?_, fun trees' => ?_⟩
    · rw [mapM_eq_ok_iff] at htrees ⊢
      exact .cons (bind_eq_ok_iff.mpr ⟨tree₁, htree, rfl⟩) htrees
    · simp only [List.forall₂_cons_left_iff, hall, hshows]
      constructor
      · rintro ⟨⟨label, tree'⟩, trees', ⟨rfl, rfl⟩, rfl, rfl⟩
        rw [hlabel]
      · rintro rfl
        exact ⟨_, _, ⟨hlabel, rfl⟩, rfl, rfl⟩

theorem displays_choice {polarity : Polarity} {participant : Participant}
    {targets : List (Label × NodeId)} {branches : List (Label × Term)}
    (h : g.node id = .ok (.choice polarity participant targets))
    (hbranches : List.Forall₂ (fun b t => b.1 = t.1 ∧ g.Displays depth b.2 t.2) branches targets) :
    g.Displays (depth + 1) (.choice polarity participant branches) id := by
  obtain ⟨trees, htrees, hshows⟩ := exists_trees hbranches
  refine ⟨.choice polarity participant trees, ?_, fun tree' => ?_⟩
  · rw [tree]
    refine bind_eq_ok_iff.mpr ⟨_, h, ?_⟩
    exact bind_eq_ok_iff.mpr ⟨trees, htrees, rfl⟩
  · constructor
    · rintro ⟨head, hhead, hbelow⟩
      cases hhead
      obtain ⟨trees', htrees', rfl⟩ := hbelow
      rw [(hshows trees').mp htrees']
    · rintro rfl
      exact ⟨_, .choice, trees, (hshows trees).mpr rfl, rfl⟩

end Displays

end Graph

namespace Term

/-- Closing `t` with `σ` agrees with what the variables around it stand for in the graph. One that
is in scope shows up to the depth what its node shows; one that waits for its node has the first
action of `t` itself. -/
structure Resolves (g : Graph) (depth : Nat) (scope : Scope) (waiting : List Variable)
    (σ : Variable → Option Term) (t : Term) : Prop where
  closed : ∀ v u, σ v = some u → u.Closed
  pending : ∀ v ∈ waiting, ∃ u, σ v = some u ∧ ∀ head, u.Exposes head ↔ (t.close σ).Exposes head
  bound : ∀ v id, v ∉ waiting → scope.lookup v = some id →
    ∃ u, σ v = some u ∧ ∀ m ≤ depth, g.Displays m u id

namespace Resolves

variable {g : Graph} {depth next : Nat} {scope : Scope} {waiting : List Variable}
  {σ : Variable → Option Term} {t : Term} {id : NodeId} {nodes : List Node}

theorem mono (h : Resolves g depth scope waiting σ t) {m : Nat} (hm : m ≤ depth) :
    Resolves g m scope waiting σ t where
  closed := h.closed
  pending := h.pending
  bound v id hv hlookup := by
    obtain ⟨u, hu, hdisplays⟩ := h.bound v id hv hlookup
    exact ⟨u, hu, fun k hk => hdisplays k (Nat.le_trans hk hm)⟩

theorem closed_close (h : Resolves g depth scope waiting σ t)
    (hlayout : t.layout scope waiting next = .ok (id, nodes)) : (t.close σ).Closed := by
  refine (closedIn_of_layout t hlayout).close fun v hv => .inl ?_
  have hsome : ∃ u, σ v = some u := by
    by_cases hw : v ∈ waiting
    · obtain ⟨u, hu, -⟩ := h.pending v hw
      exact ⟨u, hu⟩
    · obtain ⟨id', hlookup⟩ := hv.resolve_left hw
      obtain ⟨u, hu, -⟩ := h.bound v id' hw hlookup
      exact ⟨u, hu⟩
  obtain ⟨u, hu⟩ := hsome
  exact ⟨u, hu, h.closed v u hu⟩

/-- Below an action the waiting variables stand for its node. -/
theorem descend (h : Resolves g (depth + 1) scope waiting σ t)
    (hself : ∀ m ≤ depth, Resolves g m scope waiting σ t → g.Displays m (t.close σ) id)
    (t' : Term) :
    Resolves g depth (scope.bind waiting id) [] σ t' where
  closed := h.closed
  pending v hv := absurd hv List.not_mem_nil
  bound v id' _ hlookup := by
    rw [Scope.lookup_bind] at hlookup
    split at hlookup
    · rename_i hw
      cases hlookup
      obtain ⟨u, hu, hexposes⟩ := h.pending v hw
      refine ⟨u, hu, fun m hm => (Graph.displays_congr hexposes).mpr (hself m hm ?_)⟩
      exact h.mono (Nat.le_succ_of_le hm)
    · rename_i hw
      obtain ⟨u, hu, hdisplays⟩ := h.bound v id' hw hlookup
      exact ⟨u, hu, fun m hm => hdisplays m (Nat.le_succ_of_le hm)⟩

/-- Below a `mu` its variable waits, and stands for the `mu`. -/
theorem body {v : Variable} {body : Term} (h : Resolves g depth scope waiting σ (.mu v body))
    (hclosed : ((mu v body).close σ).Closed) :
    Resolves g depth scope (v :: waiting)
      (Function.update σ v (some ((mu v body).close σ))) body where
  closed w u hu := by
    by_cases hw : w = v
    · rw [hw, Function.update_self, Option.some.injEq] at hu
      exact hu ▸ hclosed
    · rw [Function.update_of_ne hw] at hu
      exact h.closed w u hu
  pending w hmem := by
    by_cases hw : w = v
    · rw [hw, Function.update_self]
      exact ⟨_, rfl, fun head => exposes_close_mu_iff h.closed⟩
    · rw [Function.update_of_ne hw]
      obtain ⟨u, hu, hexposes⟩ := h.pending w ((List.mem_cons.mp hmem).resolve_left hw)
      exact ⟨u, hu, fun head => (hexposes head).trans (exposes_close_mu_iff h.closed)⟩
  bound w id hmem hlookup := by
    obtain ⟨hw, hmem⟩ := List.ne_and_not_mem_of_not_mem_cons hmem
    rw [Function.update_of_ne hw]
    exact h.bound w id hmem hlookup

end Resolves

theorem forall₂_of_layoutBranches {g : Graph} {scope : Scope} {next : Nat}
    {branches : List (Label × Term)} {targets : List (Label × NodeId)} {nodes : List Node}
    (h : layoutBranches scope next branches = .ok (targets, nodes)) (hg : g.Holds next nodes) :
    List.Forall₂ (fun b t => b.1 = t.1 ∧ ∃ next' nodes',
      b.2.layout scope [] next' = .ok (t.2, nodes') ∧ g.Holds next' nodes') branches targets := by
  induction branches generalizing next targets nodes with
  | nil =>
    cases h
    exact .nil
  | cons b branches ih =>
    obtain ⟨target, nodes₁, targets', nodes₂, hbody, hrest, rfl, rfl⟩ :=
      layoutBranches_cons_eq_ok_iff.mp h
    obtain ⟨hg₁, hg₂⟩ := Graph.holds_append.mp hg
    exact .cons ⟨rfl, next, nodes₁, hbody, hg₁⟩ (ih hrest hg₂)

theorem displays_of_layout {g : Graph} (depth : Nat) (t : Term) {scope : Scope}
    {waiting : List Variable} {next : Nat} {id : NodeId} {nodes : List Node}
    {σ : Variable → Option Term} (hlayout : t.layout scope waiting next = .ok (id, nodes))
    (hg : g.Holds next nodes) (hσ : Resolves g depth scope waiting σ t) :
    g.Displays depth (t.close σ) id := by
  induction depth using Nat.strongRecOn generalizing t scope waiting next id nodes σ with
  | ind depth ih =>
    -- An action takes one off the depth. Only a `mu` leaves it, and there the term gets smaller.
    induction t using inductionOn generalizing waiting σ with
    | done =>
      obtain ⟨-, rfl, rfl⟩ := layout_done_eq_ok_iff.mp hlayout
      cases depth with
      | zero => exact Graph.displays_zero _
      | succ depth => exact Graph.displays_done hg.1
    | message polarity participant payload body =>
      obtain ⟨target, nodes', -, rfl, hbody, rfl⟩ := layout_message_eq_ok_iff.mp hlayout
      cases depth with
      | zero => exact Graph.displays_zero _
      | succ depth =>
        have hbelow := hσ.descend fun m hm => ih m (Nat.lt_succ_of_le hm) _ hlayout hg
        exact Graph.displays_message hg.1
          (ih depth (Nat.lt_succ_self depth) body hbody hg.2 (hbelow body))
    | choice polarity participant branches =>
      obtain ⟨targets, nodes', -, -, rfl, hbody, rfl⟩ := layout_choice_eq_ok_iff.mp hlayout
      cases depth with
      | zero => exact Graph.displays_zero _
      | succ depth =>
        have hbelow := hσ.descend fun m hm => ih m (Nat.lt_succ_of_le hm) _ hlayout hg
        refine Graph.displays_choice hg.1 ?_
        rw [closeBranches_eq_map, List.forall₂_map_left_iff]
        refine (forall₂_of_layoutBranches hbody hg.2).imp ?_
        rintro b t ⟨hlabel, next', nodes', hb, hg'⟩
        exact ⟨hlabel, ih depth (Nat.lt_succ_self depth) b.2 hb hg' (hbelow b.2)⟩
    | mu v body ihbody =>
      rw [Graph.displays_congr fun head => exposes_close_mu_iff hσ.closed]
      exact ihbody hlayout (hσ.body (hσ.closed_close hlayout))
    | var v =>
      obtain ⟨hv, hlookup, rfl⟩ := layout_var_eq_ok_iff.mp hlayout
      obtain ⟨u, hu, hdisplays⟩ := hσ.bound v id hv hlookup
      rw [close, hu]
      exact hdisplays depth (Nat.le_refl depth)

/-- The graph of a term stands for the tree of the term. -/
theorem tree_toGraph {t : Term} {g : Graph} (h : t.toGraph = .ok g) :
    ∃ root, g.root = some root ∧ ∀ depth, ∃ tree, g.tree depth root = .ok tree ∧
      ∀ tree', t.Shows depth tree' ↔ tree' = tree := by
  obtain ⟨root, nodes, hlayout, rfl⟩ := toGraph_eq_ok_iff.mp h
  refine ⟨root, rfl, fun depth => ?_⟩
  have hnone : Resolves ⟨nodes.toArray, some root⟩ depth [] [] (fun _ => none) t :=
    ⟨by simp, by simp, by simp⟩
  have hdisplays := displays_of_layout depth t hlayout (Graph.holds_toArray [] nodes _) hnone
  rwa [close_none] at hdisplays

/-- Two binders in a row, the inner of which hides one further out. -/
theorem tree_toGraph_hidden :
    let t : Term := .mu 0 (.message .output 1 .nat (.mu 1 (.mu 0 (.choice .input 2
      [(0, .var 0), (3, .var 1), (5, .message .input 0 .bool (.mu 1 (.mu 0 .done)))]))))
    let g : Graph := ⟨#[.message .output 1 .nat 1, .choice .input 2 [(0, 1), (3, 1), (5, 2)],
      .message .input 0 .bool 3, .done], some 0⟩
    t.toGraph = .ok g ∧ ∃ root, g.root = some root ∧ ∀ depth, ∃ tree,
      g.tree depth root = .ok tree ∧ ∀ tree', t.Shows depth tree' ↔ tree' = tree := by
  intro t g
  have h : t.toGraph = .ok g := rfl
  exact ⟨h, tree_toGraph h⟩

end Term

end SessionGraph
