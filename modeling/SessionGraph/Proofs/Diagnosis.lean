import SessionGraph.Proofs.Layout

/-!
# What is wrong with a term

Whether something is wrong at a position of a term depends on the term there and on what lies around
it: the binders and actions on the way up to the whole (`Term.Layer`). A variable wants a binder of
its name there and an action before the nearest one, and the labels of a choice want to ascend
(`Term.Position.Proper`).

A layout knows less than all that lies around: the variables bound since the last action, which wait
for their node, and the nodes of the others (`Term.Tracks`). This is enough to find the first
position at which something is wrong, in the order in which the term is read, and to say what it is
(`Term.toGraph_diagnosis`).
-/

namespace SessionGraph.Term

mutual

/-- The number of actions in the term. -/
def actions : Term → Nat
  | .done => 1
  | .message _ _ _ next => next.actions + 1
  | .choice _ _ branches => branchActions branches + 1
  | .mu _ body => body.actions
  | .var _ => 0

/-- The number of actions in the branches. -/
def branchActions : List (Label × Term) → Nat
  | [] => 0
  | (_, body) :: branches => body.actions + branchActions branches

end

/-! ## Positions -/

/-- What a position in a term can lie below. -/
inductive Layer where
  | binder (v : Variable)
  | action
deriving DecidableEq

/-- A position in a term: the term found there and what lies around it, from the inside out. -/
structure Position where
  around : List Layer
  term : Term

mutual

/-- The positions of a term in the order in which it is read. -/
def positions (around : List Layer) : Term → List Position
  | .done => [⟨around, .done⟩]
  | .message polarity participant payload next =>
    ⟨around, .message polarity participant payload next⟩ :: next.positions (.action :: around)
  | .choice polarity participant branches =>
    ⟨around, .choice polarity participant branches⟩ :: branchPositions (.action :: around) branches
  | .mu v body => ⟨around, .mu v body⟩ :: body.positions (.binder v :: around)
  | .var v => [⟨around, .var v⟩]

/-- The positions of the branches of a choice in the order in which they are read. -/
def branchPositions (around : List Layer) : List (Label × Term) → List Position
  | [] => []
  | (_, body) :: branches => body.positions around ++ branchPositions around branches

end

theorem branchPositions_eq_flatMap {around : List Layer} {branches : List (Label × Term)} :
    branchPositions around branches = branches.flatMap fun b => b.2.positions around := by
  induction branches with
  | nil => rfl
  | cons b branches ih => rw [branchPositions, ih, List.flatMap_cons]

/-- `inner` is what lies between a position and the nearest binder of `v` around it. -/
def Nearest (around : List Layer) (v : Variable) (inner : List Layer) : Prop :=
  ∃ outer, around = inner ++ .binder v :: outer ∧ .binder v ∉ inner

/-- The variables bound around a position without an action in between. -/
def sinceAction : List Layer → List Variable
  | .binder v :: around => v :: sinceAction around
  | _ => []

namespace Position

/-- Nothing is wrong at the position itself: a variable has an action between it and its nearest
binder, and the labels of a choice ascend. -/
def Proper : Position → Prop
  | ⟨around, .var v⟩ => ∃ inner, Nearest around v inner ∧ .action ∈ inner
  | ⟨_, .choice _ _ branches⟩ => Ascending (branches.map Prod.fst)
  | _ => True

/-- What is wrong at the position. -/
inductive Offends : Position → TermError → Prop
  | unbound {around : List Layer} {v : Variable} (h : .binder v ∉ around) :
      Offends ⟨around, .var v⟩ (.unbound v)
  | unguarded {around inner : List Layer} {v : Variable} (hnearest : Nearest around v inner)
      (h : .action ∉ inner) : Offends ⟨around, .var v⟩ (.unguarded v)
  | unsorted {around : List Layer} {polarity : Polarity} {participant : Participant}
      {branches : List (Label × Term)} (h : ¬ Ascending (branches.map Prod.fst)) :
      Offends ⟨around, .choice polarity participant branches⟩
        (.unsorted participant (branches.map Prod.fst))

end Position

/-- The first of the positions at which something is wrong, and what it is. -/
inductive FirstOffence : List Position → TermError → Prop
  | here {p : Position} {positions : List Position} {e : TermError} (h : p.Offends e) :
      FirstOffence (p :: positions) e
  | later {p : Position} {positions : List Position} {e : TermError} (hp : p.Proper)
      (h : FirstOffence positions e) : FirstOffence (p :: positions) e

section Nearest

variable {around inner : List Layer} {v : Variable}

theorem exists_nearest (h : .binder v ∈ around) : ∃ inner, Nearest around v inner := by
  obtain ⟨inner, outer, heq, hinner⟩ := List.eq_append_cons_of_mem h
  exact ⟨inner, outer, heq, hinner⟩

theorem Nearest.mem (h : Nearest around v inner) : .binder v ∈ around := by
  obtain ⟨outer, rfl, -⟩ := h
  exact List.mem_append_right _ List.mem_cons_self

theorem Nearest.mem_sinceAction_iff (h : Nearest around v inner) :
    v ∈ sinceAction around ↔ .action ∉ inner := by
  obtain ⟨outer, rfl, hinner⟩ := h
  induction inner with
  | nil => simp [sinceAction]
  | cons layer inner ih =>
    obtain ⟨hlayer, hrest⟩ := not_or.mp (mt List.mem_cons.mpr hinner)
    cases layer with
    | action => simp [sinceAction]
    | binder w =>
      rw [Layer.binder.injEq] at hlayer
      simpa [sinceAction, hlayer] using ih hrest

end Nearest

section FirstOffence

variable {p : Position} {e e' : TermError} {before rest : List Position}

theorem Position.Offends.not_proper (h : p.Offends e) : ¬ p.Proper := by
  cases h with
  | unbound h =>
    rintro ⟨inner, hnearest, -⟩
    exact h hnearest.mem
  | unguarded hnearest h =>
    rintro ⟨inner, hnearest', hinner⟩
    exact hnearest'.mem_sinceAction_iff.mp (hnearest.mem_sinceAction_iff.mpr h) hinner
  | unsorted h => exact h

theorem Position.Offends.unique (h : p.Offends e) (h' : p.Offends e') : e = e' := by
  cases h with
  | unbound h =>
    cases h' with
    | unbound _ => rfl
    | unguarded hnearest _ => exact absurd hnearest.mem h
  | unguarded hnearest _ =>
    cases h' with
    | unbound h => exact absurd hnearest.mem h
    | unguarded _ _ => rfl
  | unsorted _ =>
    cases h'
    rfl

theorem FirstOffence.not_forall_proper (h : FirstOffence before e) :
    ¬ ∀ p ∈ before, p.Proper := by
  intro hall
  induction h with
  | here h => exact h.not_proper (hall _ List.mem_cons_self)
  | later _ _ ih => exact ih (List.forall_mem_cons.mp hall).2

theorem FirstOffence.unique (h : FirstOffence before e) (h' : FirstOffence before e') : e = e' := by
  induction h with
  | here h =>
    cases h' with
    | here h' => exact h.unique h'
    | later hp _ => exact absurd hp h.not_proper
  | later hp _ ih =>
    cases h' with
    | here h' => exact absurd hp h'.not_proper
    | later _ h' => exact ih h'

theorem FirstOffence.append (h : FirstOffence before e) : FirstOffence (before ++ rest) e := by
  induction h with
  | here h => exact .here h
  | later hp _ ih => exact .later hp ih

theorem FirstOffence.after (hbefore : ∀ p ∈ before, p.Proper) (h : FirstOffence rest e) :
    FirstOffence (before ++ rest) e := by
  induction before with
  | nil => exact h
  | cons p before ih =>
    obtain ⟨hp, hbefore⟩ := List.forall_mem_cons.mp hbefore
    exact .later hp (ih hbefore)

end FirstOffence

/-! ## What a layout knows of the layers around -/

/-- The variables bound around a position are those bound since the last action and those that have
a node. -/
def Tracks (around : List Layer) (scope : Scope) : Prop :=
  ∀ v, (v ∈ sinceAction around ∨ ∃ id, scope.lookup v = some id) ↔ .binder v ∈ around

namespace Tracks

variable {around : List Layer} {scope : Scope}

theorem nil : Tracks [] [] := by simp [Tracks, sinceAction]

theorem binder (h : Tracks around scope) (v : Variable) : Tracks (.binder v :: around) scope := by
  intro w
  rw [sinceAction, List.mem_cons, List.mem_cons, or_assoc, h w, Layer.binder.injEq]

/-- Below an action all variables have a node. -/
theorem action (h : Tracks around scope) (id : NodeId) :
    Tracks (.action :: around) (scope.bind (sinceAction around) id) := by
  intro v
  rw [Scope.exists_lookup_bind, h v]
  simp [sinceAction]

end Tracks

/-! ## What a layout finds -/

section Layout

variable {scope : Scope} {waiting : List Variable} {next : Nat} {around : List Layer}

theorem length_of_layoutBranches {branches : List (Label × Term)}
    {targets : List (Label × NodeId)} {nodes : List Node}
    (hbody : ∀ b ∈ branches, ∀ {next id nodes}, b.2.layout scope [] next = .ok (id, nodes) →
      nodes.length = b.2.actions)
    (h : layoutBranches scope next branches = .ok (targets, nodes)) :
    nodes.length = branchActions branches := by
  induction branches generalizing next targets nodes with
  | nil =>
    cases h
    rfl
  | cons b branches ih =>
    obtain ⟨target, nodes₁, targets', nodes₂, hfirst, hrest, rfl, rfl⟩ :=
      layoutBranches_cons_eq_ok_iff.mp h
    obtain ⟨hb, hbranches⟩ := List.forall_mem_cons.mp hbody
    rw [List.length_append, hb hfirst, ih hbranches hrest, branchActions]

theorem length_of_layout (t : Term) {id : NodeId} {nodes : List Node}
    (h : t.layout scope waiting next = .ok (id, nodes)) : nodes.length = t.actions := by
  induction t using inductionOn generalizing scope waiting next id nodes with
  | done =>
    obtain ⟨-, -, rfl⟩ := layout_done_eq_ok_iff.mp h
    rfl
  | message _ _ _ body ih =>
    obtain ⟨target, nodes', -, rfl, hbody, rfl⟩ := layout_message_eq_ok_iff.mp h
    rw [List.length_cons, ih hbody, actions]
  | choice _ _ branches ih =>
    obtain ⟨targets, nodes', -, -, rfl, hbody, rfl⟩ := layout_choice_eq_ok_iff.mp h
    rw [List.length_cons, length_of_layoutBranches (fun b hb {_ _ _} => ih b hb) hbody, actions]
  | mu v body ih => exact ih h
  | var v =>
    obtain ⟨-, -, rfl⟩ := layout_var_eq_ok_iff.mp h
    rfl

theorem le_limit_of_layoutBranches {branches : List (Label × Term)}
    {targets : List (Label × NodeId)} {nodes : List Node}
    (hbody : ∀ b ∈ branches, ∀ {next id nodes}, next ≤ NodeId.limit →
      b.2.layout scope [] next = .ok (id, nodes) → next + nodes.length ≤ NodeId.limit)
    (hnext : next ≤ NodeId.limit)
    (h : layoutBranches scope next branches = .ok (targets, nodes)) :
    next + nodes.length ≤ NodeId.limit := by
  induction branches generalizing next targets nodes with
  | nil =>
    cases h
    exact hnext
  | cons b branches ih =>
    obtain ⟨target, nodes₁, targets', nodes₂, hfirst, hrest, rfl, rfl⟩ :=
      layoutBranches_cons_eq_ok_iff.mp h
    obtain ⟨hb, hbranches⟩ := List.forall_mem_cons.mp hbody
    rw [List.length_append, ← Nat.add_assoc]
    exact ih hbranches (hb hnext hfirst) hrest

/-- The ids suffice for what is laid out. -/
theorem le_limit_of_layout (t : Term) {id : NodeId} {nodes : List Node}
    (hnext : next ≤ NodeId.limit) (h : t.layout scope waiting next = .ok (id, nodes)) :
    next + nodes.length ≤ NodeId.limit := by
  induction t using inductionOn generalizing scope waiting next id nodes with
  | done =>
    obtain ⟨hlt, -, rfl⟩ := layout_done_eq_ok_iff.mp h
    exact hlt
  | message polarity participant payload body ih =>
    obtain ⟨target, nodes', hlt, -, hbody, rfl⟩ := layout_message_eq_ok_iff.mp h
    have hle := ih hlt hbody
    rw [List.length_cons]
    omega
  | choice polarity participant branches ih =>
    obtain ⟨targets, nodes', -, hlt, -, hbody, rfl⟩ := layout_choice_eq_ok_iff.mp h
    have hle := le_limit_of_layoutBranches (fun b hb {_ _ _} => ih b hb) hlt hbody
    rw [List.length_cons]
    omega
  | mu v body ih => exact ih hnext h
  | var v =>
    obtain ⟨-, -, rfl⟩ := layout_var_eq_ok_iff.mp h
    exact hnext

/-- Nothing is wrong with a term that is laid out. -/
theorem proper_of_layout (t : Term) {id : NodeId} {nodes : List Node}
    (htracks : Tracks around scope)
    (h : t.layout scope (sinceAction around) next = .ok (id, nodes)) :
    ∀ p ∈ t.positions around, p.Proper := by
  induction t using inductionOn generalizing around scope next id nodes with
  | done => simp [positions, Position.Proper]
  | message _ _ _ body ih =>
    obtain ⟨target, nodes', -, rfl, hbody, -⟩ := layout_message_eq_ok_iff.mp h
    exact List.forall_mem_cons.mpr ⟨trivial, ih (htracks.action _) hbody⟩
  | choice _ _ branches ih =>
    obtain ⟨targets, nodes', hascending, -, rfl, hbody, -⟩ := layout_choice_eq_ok_iff.mp h
    refine List.forall_mem_cons.mpr ⟨hascending, fun p hp => ?_⟩
    rw [branchPositions_eq_flatMap, List.mem_flatMap] at hp
    obtain ⟨b, hb, hp⟩ := hp
    obtain ⟨next', target, nodes', hlayout⟩ := exists_layout_of_mem hbody hb
    exact ih b hb (htracks.action _) hlayout p hp
  | mu v body ih => exact List.forall_mem_cons.mpr ⟨trivial, ih (htracks.binder v) h⟩
  | var v =>
    obtain ⟨hwaiting, hlookup, -⟩ := layout_var_eq_ok_iff.mp h
    obtain ⟨inner, hnearest⟩ := exists_nearest ((htracks v).mp (.inr ⟨id, hlookup⟩))
    rw [hnearest.mem_sinceAction_iff, not_not] at hwaiting
    exact List.forall_mem_singleton.mpr ⟨inner, hnearest, hwaiting⟩

theorem error_of_ofIndex {error : Error}
    (h : (liftM (NodeId.ofIndex next) : Except Error NodeId) = .error error) :
    error = .fault .idSpace ∧ NodeId.limit ≤ next := by
  obtain ⟨fault, hindex, rfl⟩ := liftM_eq_error_iff.mp h
  unfold NodeId.ofIndex at hindex
  split at hindex
  · cases hindex
  · cases hindex
    exact ⟨rfl, Nat.le_of_not_lt ‹_›⟩

/-- What a failed layout of `positions` says, when `needed` ids would have sufficed: the node ids
have run out, or `error` is what is first wrong with them. -/
def Explains (positions : List Position) (needed : Nat) (error : Error) : Prop :=
  (error = .fault .idSpace ∧ NodeId.limit < needed) ∨
    ∃ e, error = .term e ∧ FirstOffence positions e

theorem Explains.later {positions : List Position} {p : Position} {needed : Nat} {error : Error}
    (hp : p.Proper) (h : Explains positions needed error) :
    Explains (p :: positions) needed error :=
  h.imp_right fun ⟨e, he, hfirst⟩ => ⟨e, he, .later hp hfirst⟩

theorem Explains.mono {positions : List Position} {needed needed' : Nat} {error : Error}
    (h : Explains positions needed error) (hle : needed ≤ needed') :
    Explains positions needed' error :=
  h.imp_left fun ⟨he, hlimit⟩ => ⟨he, Nat.lt_of_lt_of_le hlimit hle⟩

theorem explains_of_layoutBranches {branches : List (Label × Term)} {error : Error}
    (hbody : ∀ b ∈ branches, ∀ {next}, b.2.layout scope [] next = .error error →
      Explains (b.2.positions (.action :: around)) (next + b.2.actions) error)
    (htracks : Tracks (.action :: around) scope)
    (h : layoutBranches scope next branches = .error error) :
    Explains (branchPositions (.action :: around) branches) (next + branchActions branches)
      error := by
  induction branches generalizing next with
  | nil => cases h
  | cons b branches ih =>
    obtain ⟨hb, hbranches⟩ := List.forall_mem_cons.mp hbody
    rw [layoutBranches] at h
    rw [branchPositions, branchActions]
    rcases bind_eq_error_iff.mp h with h | ⟨⟨target, nodes⟩, hfirst, h⟩
    · rcases hb h with ⟨rfl, hlimit⟩ | ⟨e, rfl, hoffence⟩
      · exact .inl ⟨rfl, by omega⟩
      · exact .inr ⟨e, rfl, hoffence.append⟩
    · rcases bind_eq_error_iff.mp h with h | ⟨_, -, h⟩
      · -- the branches before took as many ids as they have actions, and nothing is wrong there
        rcases ih hbranches h with ⟨rfl, hlimit⟩ | ⟨e, rfl, hoffence⟩
        · rw [length_of_layout b.2 hfirst] at hlimit
          exact .inl ⟨rfl, by omega⟩
        · exact .inr ⟨e, rfl, .after (proper_of_layout b.2 htracks hfirst) hoffence⟩
      · cases h

theorem explains_of_layout (t : Term) {error : Error} (htracks : Tracks around scope)
    (h : t.layout scope (sinceAction around) next = .error error) :
    Explains (t.positions around) (next + t.actions) error := by
  induction t using inductionOn generalizing around scope next with
  | done =>
    rw [layout] at h
    rcases bind_eq_error_iff.mp h with h | ⟨_, -, h⟩
    · obtain ⟨rfl, hlimit⟩ := error_of_ofIndex h
      exact .inl ⟨rfl, Nat.lt_succ_of_le hlimit⟩
    · cases h
  | message _ _ _ body ih =>
    rw [layout] at h
    rw [positions, actions]
    rcases bind_eq_error_iff.mp h with h | ⟨id, -, h⟩
    · obtain ⟨rfl, hlimit⟩ := error_of_ofIndex h
      exact .inl ⟨rfl, by omega⟩
    · rcases bind_eq_error_iff.mp h with h | ⟨_, -, h⟩
      · exact ((ih (htracks.action id) h).mono (by omega)).later trivial
      · cases h
  | choice _ _ branches ih =>
    rw [layout] at h
    rw [positions, actions]
    by_cases hascending : Ascending (branches.map Prod.fst)
    · rw [if_neg (not_not.mpr hascending)] at h
      rcases bind_eq_error_iff.mp h with h | ⟨id, -, h⟩
      · obtain ⟨rfl, hlimit⟩ := error_of_ofIndex h
        exact .inl ⟨rfl, by omega⟩
      · rcases bind_eq_error_iff.mp h with h | ⟨_, -, h⟩
        · have hbranches := explains_of_layoutBranches
            (fun b hb {_} => ih b hb (htracks.action id)) (htracks.action id) h
          exact (hbranches.mono (by omega)).later hascending
        · cases h
    · rw [if_pos hascending] at h
      cases h
      exact .inr ⟨_, rfl, .here (.unsorted hascending)⟩
  | mu v body ih =>
    rw [layout] at h
    exact (ih (htracks.binder v) h).later trivial
  | var v =>
    rw [layout] at h
    split at h
    · rename_i hwaiting
      cases h
      -- a variable that waits is bound since the last action, so by the nearest binder
      obtain ⟨inner, hnearest⟩ := exists_nearest ((htracks v).mp (.inl hwaiting))
      rw [hnearest.mem_sinceAction_iff] at hwaiting
      exact .inr ⟨_, rfl, .here (.unguarded hnearest hwaiting)⟩
    · rename_i hwaiting
      split at h
      · cases h
      · rename_i hlookup
        cases h
        refine .inr ⟨_, rfl, .here (.unbound fun hbound => ?_)⟩
        obtain ⟨id, hid⟩ := ((htracks v).mpr hbound).resolve_left hwaiting
        rw [hlookup] at hid
        cases hid

end Layout

theorem proper_of_toGraph {t : Term} {g : Graph} (h : t.toGraph = .ok g) :
    ∀ p ∈ t.positions [], p.Proper := by
  obtain ⟨root, nodes, hlayout, -⟩ := toGraph_eq_ok_iff.mp h
  exact proper_of_layout t .nil hlayout

theorem explains_of_toGraph {t : Term} {error : Error} (h : t.toGraph = .error error) :
    Explains (t.positions []) t.actions error := by
  have hlayout := toGraph_eq_error_iff.mp h
  exact (explains_of_layout t .nil hlayout).mono (Nat.le_of_eq (Nat.zero_add _))

/-- A term that has no more actions than there are node ids has a graph if and only if nothing is
wrong at any of its positions. Otherwise the error is what is wrong at the first position, in the
order in which the term is read, at which something is. -/
theorem toGraph_diagnosis {t : Term} (hsize : t.actions ≤ NodeId.limit) :
    ((∃ g, t.toGraph = .ok g) ↔ ∀ p ∈ t.positions [], p.Proper) ∧
    ∀ error, t.toGraph = .error error ↔ ∃ e, error = .term e ∧ FirstOffence (t.positions []) e := by
  have hexplained {error : Error} (h : t.toGraph = .error error) :
      ∃ e, error = .term e ∧ FirstOffence (t.positions []) e :=
    (explains_of_toGraph h).resolve_left fun ⟨_, hlimit⟩ => absurd hsize (Nat.not_le_of_lt hlimit)
  constructor
  · constructor
    · rintro ⟨g, hg⟩
      exact proper_of_toGraph hg
    · intro hproper
      rcases h : t.toGraph with error | g
      · obtain ⟨e, -, hfirst⟩ := hexplained h
        exact absurd hproper hfirst.not_forall_proper
      · exact ⟨g, rfl⟩
  · intro error
    constructor
    · exact hexplained
    · rintro ⟨e, rfl, hfirst⟩
      rcases h : t.toGraph with error | g
      · obtain ⟨e', rfl, hfirst'⟩ := hexplained h
        rw [hfirst.unique hfirst']
      · exact absurd (proper_of_toGraph h) hfirst.not_forall_proper

/-- The inner binder of `0` hides the outer one, which has an action below it. That `1` is bound in
a sibling only, and that the labels of the last choice descend, comes later. -/
theorem toGraph_diagnosis_hidden :
    let t : Term := .mu 0 (.choice .output 0
      [(0, .mu 1 (.message .input 0 .nat (.var 1))),
        (1, .choice .input 1 [(0, .mu 0 (.var 0)), (1, .var 1)]),
        (2, .choice .input 2 [(1, .done), (0, .done)])])
    t.actions ≤ NodeId.limit ∧ t.toGraph = .error (.term (.unguarded 0)) := by
  intro t
  have hsize : t.actions ≤ NodeId.limit := by decide
  have hguarded : Position.Proper ⟨[.action, .binder 1, .action, .binder 0], .var 1⟩ :=
    ⟨[.action], ⟨_, rfl, by decide⟩, by decide⟩
  have hoffence : Position.Offends
      ⟨[.binder 0, .action, .action, .binder 0], .var 0⟩ (.unguarded 0) :=
    .unguarded ⟨_, rfl, List.not_mem_nil⟩ List.not_mem_nil
  have hfirst : FirstOffence (t.positions []) (.unguarded 0) :=
    .later trivial <| .later (by decide : Ascending [0, 1, 2]) <|
      .later trivial <| .later trivial <| .later hguarded <|
        .later (by decide : Ascending [0, 1]) <| .later trivial <| .here hoffence
  exact ⟨hsize, ((toGraph_diagnosis hsize).2 _).mpr ⟨_, rfl, hfirst⟩⟩

end SessionGraph.Term
