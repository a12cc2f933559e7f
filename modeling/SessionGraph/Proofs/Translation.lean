import SessionGraph.Proofs.Closing
import SessionGraph.Proofs.Outcome
import SessionGraph.Term.Translate

/-!
# Translation without a state

A translation goes along with a graph that grows, in which nodes are filled in later, and with a
stack of bindings. What comes out of it can be said without either: a term adds the node of its
first action and then those of what follows it, and needs to know no more of what was there before
than how many nodes there were and which nodes the variables around it stand for (`Term.layout`).
The two agree, also in what goes wrong (`Term.translate_eq`).
-/

namespace SessionGraph

/-- The nodes that variables stand for, innermost binder first. -/
abbrev Scope := List (Variable × NodeId)

namespace Scope

/-- The variables all stand for one node. -/
def bind (scope : Scope) (waiting : List Variable) (id : NodeId) : Scope :=
  waiting.map (·, id) ++ scope

end Scope

namespace Term

mutual

/-- The node that a term starts with and the nodes it adds, when `next` nodes are there already.
The variables of `waiting` are bound since the last action, innermost first. -/
def layout (scope : Scope) (waiting : List Variable) (next : Nat) :
    Term → Except Error (NodeId × List Node)
  | .done => do
    let id ← NodeId.ofIndex next
    return (id, [.done])
  | .mu v body => body.layout scope (v :: waiting) next
  | .var v =>
    if v ∈ waiting then .error (.term (.unguarded v))
    else
      match scope.lookup v with
      | some id => .ok (id, [])
      | none => .error (.term (.unbound v))
  | .message polarity participant payload body => do
    let id ← NodeId.ofIndex next
    let (target, nodes) ← body.layout (scope.bind waiting id) [] (next + 1)
    return (id, .message polarity participant payload target :: nodes)
  | .choice polarity participant branches => do
    if ¬ Ascending (branches.map Prod.fst) then
      throw (.term (.unsorted participant (branches.map Prod.fst)))
    let id ← NodeId.ofIndex next
    let (targets, nodes) ← layoutBranches (scope.bind waiting id) (next + 1) branches
    return (id, .choice polarity participant targets :: nodes)

/-- The nodes that the branches of a choice start with, and the nodes they add. -/
def layoutBranches (scope : Scope) (next : Nat) :
    List (Label × Term) → Except Error (List (Label × NodeId) × List Node)
  | [] => .ok ([], [])
  | (label, body) :: branches => do
    let (target, nodes) ← body.layout scope [] next
    let (targets, nodes') ← layoutBranches scope (next + nodes.length) branches
    return ((label, target) :: targets, nodes ++ nodes')

end

end Term

namespace Translator

variable {s : Translator} {waiting : List Variable}

/-- What the variables stand for. -/
def scope (s : Translator) : Scope := s.bindings.toList.reverse

/-- The translator with more nodes behind those there are. -/
def extend (s : Translator) (nodes : List Node) : Translator :=
  ⟨{ s.graph with nodes := s.graph.nodes ++ nodes.toArray }, s.bindings⟩

/-- The translator while what follows an action is translated. -/
def inside (s : Translator) (waiting : List Variable) : Translator :=
  ⟨(s.extend [.done]).graph, s.bindings ++ waiting.map (·, s.graph.size)⟩

theorem find_eq (s : Translator) (v : Variable) : s.find v = s.scope.lookup v := by
  rw [find, scope, Array.findRev?_eq_find?_reverse, ← Array.find?_toList, Array.toList_reverse]
  induction s.bindings.toList.reverse with
  | nil => rfl
  | cons b bindings ih =>
    rw [List.lookup_cons, List.find?_cons, Bool.beq_comm]
    cases v == b.1 with
    | true => rfl
    | false => exact ih

theorem scope_inside : (s.inside waiting).scope = s.scope.bind waiting.reverse s.graph.size := by
  simp [scope, inside, Scope.bind]

theorem size_extend (nodes : List Node) :
    (s.extend nodes).graph.size = s.graph.size + nodes.length := by
  simp [extend, Graph.size]

theorem size_inside : (s.inside waiting).graph.size = s.graph.size + 1 := size_extend _

theorem extend_extend (nodes nodes' : List Node) :
    (s.extend nodes).extend nodes' = s.extend (nodes ++ nodes') := by
  simp [extend]

theorem push_of_lt (h : s.graph.size < NodeId.limit) (n : Node) :
    s.push n = .ok (s.graph.size, s.extend [n]) := by
  simp [push, Graph.push, NodeId.ofIndex, h, extend, bind, Except.bind, liftM, monadLift,
    MonadLift.monadLift, pure, Except.pure]

theorem push_of_not_lt (h : ¬ s.graph.size < NodeId.limit) (n : Node) :
    s.push n = .error (.fault .idSpace) := by
  simp [push, Graph.push, NodeId.ofIndex, h, bind, Except.bind, liftM, monadLift,
    MonadLift.monadLift]

/-- The node of an action is filled in where its place was kept. -/
theorem setNode_inside (node : Node) (nodes : List Node) :
    ((s.inside waiting).extend nodes).graph.setNode s.graph.size node =
      .ok (s.extend (node :: nodes)).graph := by
  have hset : ((s.inside waiting).extend nodes).graph.nodes.setIfInBounds s.graph.size node =
      (s.extend (node :: nodes)).graph.nodes := by
    apply Array.toList_inj.mp
    simp [inside, extend, Graph.size]
  have hlt : s.graph.size < ((s.inside waiting).extend nodes).graph.size := by
    rw [size_extend, size_inside, Nat.add_assoc, Nat.add_comm 1]
    exact Nat.lt_add_of_pos_right (Nat.succ_pos _)
  rw [Graph.setNode, if_pos hlt, hset]
  rfl

theorem shrink_inside (nodes : List Node) :
    ((s.inside waiting).extend nodes).bindings.shrink s.bindings.size = s.bindings := by
  apply Array.toList_inj.mp
  simp [inside, extend]

/-- An action adds its node before what follows it adds, if there is an id for it. -/
theorem action_eq {α : Type} (make : α → Node)
    (build : Translator → Except Error (α × Translator))
    (below : NodeId → Except Error (α × List Node))
    (hbuild : build (s.inside waiting) =
      (below s.graph.size).map fun r => (r.1, (s.inside waiting).extend r.2)) :
    (s.action waiting fun s => do
      let r ← build s
      return (make r.1, r.2)) =
    (do
      let id ← liftM (NodeId.ofIndex s.graph.size)
      let r ← below id
      return (id, make r.1 :: r.2) : Except Error (NodeId × List Node)).map
        fun r => (r.1, s.extend r.2) := by
  rw [NodeId.ofIndex, action]
  by_cases h : s.graph.size < NodeId.limit
  · have hinside : (⟨(s.extend [.done]).graph,
        (s.extend [.done]).bindings ++ waiting.map (·, s.graph.size)⟩ : Translator) =
        s.inside waiting := rfl
    rw [if_pos h, push_of_lt h]
    simp only [bind, Except.bind, hinside, hbuild]
    cases hbelow : below s.graph.size with
    | error e => simp [Except.map, liftM, monadLift, MonadLift.monadLift, hbelow]
    | ok r =>
      have hbindings : (s.extend [.done]).bindings.size = s.bindings.size := rfl
      simp only [Except.map, liftM, monadLift, MonadLift.monadLift, pure, Except.pure, hbelow,
        setNode_inside, hbindings, shrink_inside]
      rfl
  · rw [if_neg h, push_of_not_lt h]
    rfl

end Translator

namespace Term

theorem translateBranches_eq {branches : List (Label × Term)}
    (hbody : ∀ b ∈ branches, ∀ s : Translator, b.2.translate s [] =
      (b.2.layout s.scope [] s.graph.size).map fun r => (r.1, s.extend r.2)) (s : Translator) :
    translateBranches s branches =
      (layoutBranches s.scope s.graph.size branches).map fun r => (r.1, s.extend r.2) := by
  induction branches generalizing s with
  | nil => simp [translateBranches, layoutBranches, Except.map, Translator.extend]
  | cons b branches ih =>
    obtain ⟨hb, hbranches⟩ := List.forall_mem_cons.mp hbody
    rw [translateBranches, layoutBranches, hb s]
    rcases b.2.layout s.scope [] s.graph.size with e | ⟨target, nodes⟩
    · rfl
    · have hscope : (s.extend nodes).scope = s.scope := rfl
      simp only [Except.map, bind, Except.bind, ih hbranches, Translator.size_extend, hscope]
      rcases layoutBranches s.scope (s.graph.size + nodes.length) branches with
        e | ⟨targets, nodes'⟩
      · rfl
      · simp only [Translator.extend_extend]
        rfl

/-- A translation adds the nodes of the layout, or goes wrong as the layout does. -/
theorem translate_eq (t : Term) (s : Translator) (waiting : List Variable) :
    t.translate s waiting =
      (t.layout s.scope waiting.reverse s.graph.size).map fun r => (r.1, s.extend r.2) := by
  induction t using inductionOn generalizing s waiting with
  | done =>
    rw [translate, layout, NodeId.ofIndex]
    by_cases h : s.graph.size < NodeId.limit
    · rw [Translator.push_of_lt h, if_pos h]
      rfl
    · rw [Translator.push_of_not_lt h, if_neg h]
      rfl
  | message polarity participant payload body ih =>
    have hbelow := ih (s.inside waiting) []
    rw [Translator.scope_inside, Translator.size_inside, List.reverse_nil] at hbelow
    rw [translate, layout]
    exact Translator.action_eq (.message polarity participant payload)
      (fun s => body.translate s [])
      (fun id => body.layout (s.scope.bind waiting.reverse id) [] (s.graph.size + 1)) hbelow
  | choice polarity participant branches ih =>
    have hbelow := translateBranches_eq (fun b hb s => ih b hb s []) (s.inside waiting)
    rw [Translator.scope_inside, Translator.size_inside] at hbelow
    rw [translate, layout]
    by_cases hasc : Ascending (branches.map Prod.fst)
    · simp only [hasc, not_true_eq_false, if_false]
      exact Translator.action_eq (.choice polarity participant)
        (fun s => translateBranches s branches)
        (fun id => layoutBranches (s.scope.bind waiting.reverse id) (s.graph.size + 1) branches)
        hbelow
    · simp only [hasc]
      rfl
  | mu v body ih =>
    rw [translate, layout, ih, List.reverse_append]
    rfl
  | var v =>
    rw [translate, layout, Translator.find_eq]
    simp only [List.mem_reverse]
    split
    · rfl
    · rcases s.scope.lookup v with _ | id
      · rfl
      · simp [Except.map, Translator.extend]

theorem toGraph_eq (t : Term) :
    t.toGraph = (t.layout [] [] 0).map fun r => ⟨r.2.toArray, some r.1⟩ := by
  have hblank : t.translate .blank [] =
      (t.layout [] [] 0).map fun r => (r.1, Translator.blank.extend r.2) :=
    t.translate_eq .blank []
  rw [toGraph, hblank]
  rcases t.layout [] [] 0 with e | ⟨root, nodes⟩
  · rfl
  · simp [Except.map, bind, Except.bind, pure, Except.pure, Translator.blank, Translator.extend,
      Graph.empty, Graph.withRoot]

theorem toGraph_eq_ok_iff {t : Term} {g : Graph} :
    t.toGraph = .ok g ↔
      ∃ root nodes, t.layout [] [] 0 = .ok (root, nodes) ∧ g = ⟨nodes.toArray, some root⟩ := by
  rw [toGraph_eq]
  rcases t.layout [] [] 0 with e | ⟨root, nodes⟩ <;> simp [Except.map, eq_comm]

theorem toGraph_eq_error_iff {t : Term} {e : Error} :
    t.toGraph = .error e ↔ t.layout [] [] 0 = .error e := by
  rw [toGraph_eq]
  rcases t.layout [] [] 0 with e | ⟨root, nodes⟩ <;> simp [Except.map]

end Term

end SessionGraph
