import SessionGraph.Proofs.RoundTrip

/-!
# The shape of the graph of a term

A part of a term is found by its address, which says at each step what to go on with. In the order
in which the term is read an address comes before those that go on from it, and of two that part the
one that goes to an earlier branch comes first. So the term is read in the order of a dictionary
(`Address.Before`).

The graph of a term has a node for each action and numbers them in this order. Its edges are the
continuations. One that starts with an action leads to it. One that starts with a variable leads to
the first action below the nearest binder of the variable, and that is the action where the
continuation is or one further up (`Term.Shape`). While a term is laid out, the scope knows this of
all variables that are bound above the last action, and those bound since are waiting for the action
that is read next (`Term.Resolved`).
-/

namespace SessionGraph

/-- Where a part of a term is found: which continuation to go on with, step by step. -/
abbrev Address := List Nat

/-- What is at the first address is read before what is at the second. -/
def Address.Before : Address → Address → Prop := List.Lex (· < ·)

namespace Term

/-! ## Addresses -/

/-- What a term continues with in a slot. -/
def part? : Term → (slot : Nat) → Option Term
  | .message _ _ _ next, 0 => some next
  | .choice _ _ branches, slot => branches[slot]?.map Prod.snd
  | .mu _ body, 0 => some body
  | _, _ => none

/-- The term at an address. -/
def find? (t : Term) : Address → Option Term
  | [] => some t
  | slot :: address => (t.part? slot).bind (·.find? address)

/-- Whether the term starts with an action, and not with a binder or a variable. -/
def isAction : Term → Bool
  | .mu _ _ => false
  | .var _ => false
  | _ => true

/-- What is at the address starts with an action. -/
def ActionAt (t : Term) (place : Address) : Prop :=
  ∃ u, t.find? place = some u ∧ u.isAction = true

/-- The way past the binders in front of a term. -/
def front : Term → Address
  | .mu _ body => 0 :: body.front
  | _ => []

mutual

/-- The addresses of the actions in the order in which the term is read. -/
def places : Term → List Address
  | .done => [[]]
  | .message _ _ _ next => [] :: next.places.map (0 :: ·)
  | .choice _ _ branches => [] :: branchPlaces 0 branches
  | .mu _ body => body.places.map (0 :: ·)
  | .var _ => []

/-- The addresses of the actions in the branches of a choice, the first of which is in `slot`. -/
def branchPlaces (slot : Nat) : List (Label × Term) → List Address
  | [] => []
  | (_, body) :: branches => body.places.map (slot :: ·) ++ branchPlaces (slot + 1) branches

end

/-- The nearest binder of `v` around `place` is at `binder`, and `body` is below it. -/
structure BoundBy (t : Term) (v : Variable) (place binder : Address) (body : Term) : Prop where
  find : t.find? binder = some (.mu v body)
  above : binder <+: place ∧ binder ≠ place
  nearest : ∀ other body', t.find? other = some (.mu v body') → other <+: place → other ≠ place →
    other <+: binder

end Term

/-- The node has the action of the term: the same participant and payload, or the same participant
and labels in the same order. -/
inductive Node.Carries : Node → Term → Prop
  | done : Carries .done .done
  | message {polarity : Polarity} {participant : Participant} {payload : Payload} {next : NodeId}
      {body : Term} :
      Carries (.message polarity participant payload next)
        (.message polarity participant payload body)
  | choice {polarity : Polarity} {participant : Participant} {targets : List (Label × NodeId)}
      {branches : List (Label × Term)} (h : targets.map Prod.fst = branches.map Prod.fst) :
      Carries (.choice polarity participant targets) (.choice polarity participant branches)

namespace Term

/-- The action at `place` has the node `id`, and `target` is its successor for the continuation that
starts, past its binders, at `head`. -/
def EdgeFor (t : Term) (g : Graph) (id : NodeId) (place head : Address) (target : NodeId) : Prop :=
  ∃ u n slot body, t.places[id]? = some place ∧ t.find? place = some u ∧ g.node id = .ok n ∧
    u.part? slot = some body ∧ head = place ++ slot :: body.front ∧
    n.successors[slot]? = some target

/-- The graph is numbered and linked as the term is read. -/
structure Shape (t : Term) (g : Graph) : Prop where
  /-- The nodes are the actions of the term, in the order in which it is read. -/
  size : g.size = t.places.length
  ascending : t.places.Pairwise Address.Before
  mem_places_iff : ∀ place, place ∈ t.places ↔ t.ActionAt place
  /-- The first action of the term is the root. -/
  root : g.root = some 0 ∧ t.places[0]? = some t.front
  node : ∀ id place, t.places[id]? = some place →
    ∃ u n, t.find? place = some u ∧ g.node id = .ok n ∧ n.Carries u
  /-- Every continuation of an action is an edge. -/
  edge : ∀ id place u slot body, t.places[id]? = some place → t.find? place = some u →
    u.part? slot = some body → ∃ target, t.EdgeFor g id place (place ++ slot :: body.front) target
  /-- One that starts with an action is an edge to its node, which comes later. -/
  forward : ∀ id place head target, t.EdgeFor g id place head target → t.ActionAt head →
    t.places[target]? = some head ∧ id < target
  /-- One that starts with a variable is an edge to the first action below its binder, which is the
  action itself or one that it lies below. -/
  back : ∀ id place head target v, t.EdgeFor g id place head target →
    t.find? head = some (.var v) → ∃ binder body, t.BoundBy v head binder body ∧
      t.places[target]? = some (binder ++ (mu v body).front) ∧
      binder ++ (mu v body).front <+: place
  /-- All occurrences of a variable that one binder binds are edges to one node. -/
  shared : ∀ id id' place place' head head' target target' v binder body,
    t.EdgeFor g id place head target → t.EdgeFor g id' place' head' target' →
    t.find? head = some (.var v) → t.find? head' = some (.var v) →
    t.BoundBy v head binder body → t.BoundBy v head' binder body → target = target'
  reachable : ∀ id < g.size, g.Reachable id

/-! ## The order of the actions -/

theorem find?_append (t : Term) (place rest : Address) :
    t.find? (place ++ rest) = (t.find? place).bind (·.find? rest) := by
  induction place generalizing t with
  | nil => rfl
  | cons slot place ih =>
    rw [List.cons_append, find?, find?]
    rcases t.part? slot with _ | u
    · rfl
    · exact ih u

theorem find?_concat {t u : Term} {place : Address} (h : t.find? place = some u) (slot : Nat) :
    t.find? (place ++ [slot]) = u.part? slot := by
  rw [find?_append, h, Option.bind_some, find?]
  rcases u.part? slot with _ | body <;> rfl

section Places

variable {branches : List (Label × Term)}

theorem mem_branchPlaces_iff {slot : Nat} {place : Address} :
    place ∈ branchPlaces slot branches ↔
      ∃ i b rest, branches[i]? = some b ∧ rest ∈ b.2.places ∧ place = (slot + i) :: rest := by
  induction branches generalizing slot with
  | nil => simp [branchPlaces]
  | cons b branches ih =>
    rw [branchPlaces, List.mem_append, List.mem_map, ih]
    constructor
    · rintro (⟨rest, hrest, rfl⟩ | ⟨i, b', rest, hb', hrest, rfl⟩)
      · exact ⟨0, b, rest, rfl, hrest, rfl⟩
      · exact ⟨i + 1, b', rest, hb', hrest, by rw [Nat.add_right_comm, Nat.add_assoc]⟩
    · rintro ⟨i, b', rest, hb', hrest, rfl⟩
      cases i with
      | zero =>
        obtain rfl : b = b' := by simpa using hb'
        exact .inl ⟨rest, hrest, rfl⟩
      | succ i => exact .inr ⟨i, b', rest, hb', hrest, by rw [Nat.add_right_comm, Nat.add_assoc]⟩

theorem mem_places_iff (t : Term) {place : Address} : place ∈ t.places ↔ t.ActionAt place := by
  induction t using inductionOn generalizing place with
  | done => cases place <;> simp [places, ActionAt, find?, part?, isAction]
  | message polarity participant payload next ih =>
    rcases place with _ | ⟨_ | slot, place⟩
    · simp [places, ActionAt, find?, isAction]
    · simpa [places, ActionAt, find?, part?] using ih
    · simp [places, ActionAt, find?, part?]
  | choice polarity participant branches ih =>
    rcases place with _ | ⟨slot, place⟩
    · simp [places, ActionAt, find?, isAction]
    · rw [places, List.mem_cons, mem_branchPlaces_iff]
      simp only [reduceCtorEq, false_or, ActionAt, find?, part?, Nat.zero_add, List.cons.injEq]
      constructor
      · rintro ⟨i, b, rest, hb, hrest, rfl, rfl⟩
        obtain ⟨u, hu⟩ := (ih b (List.mem_of_getElem? hb)).mp hrest
        exact ⟨u, by rw [hb]; exact hu⟩
      · rintro ⟨u, hfind, hu⟩
        rcases hb : branches[slot]? with _ | b
        · simp [hb] at hfind
        · rw [hb] at hfind
          exact ⟨slot, b, place, hb, (ih b (List.mem_of_getElem? hb)).mpr ⟨u, hfind, hu⟩, rfl, rfl⟩
  | mu v body ih =>
    rcases place with _ | ⟨_ | slot, place⟩
    · simp [places, ActionAt, find?, isAction]
    · simpa [places, ActionAt, find?, part?] using ih
    · simp [places, ActionAt, find?, part?]
  | var v => cases place <;> simp [places, ActionAt, find?, part?, isAction]

theorem length_places (t : Term) : t.places.length = t.actions := by
  induction t using inductionOn with
  | done => rfl
  | message _ _ _ next ih => rw [places, List.length_cons, List.length_map, ih, actions]
  | choice _ _ branches ih =>
    suffices h : ∀ slot, (branchPlaces slot branches).length = branchActions branches by
      rw [places, List.length_cons, h, actions]
    induction branches with
    | nil => exact fun _ => rfl
    | cons b branches ihbranches =>
      obtain ⟨hb, hbranches⟩ := List.forall_mem_cons.mp ih
      intro slot
      rw [branchPlaces, List.length_append, List.length_map, hb, ihbranches hbranches,
        branchActions]
  | mu v body ih => rw [places, List.length_map, ih, actions]
  | var v => rfl

theorem pairwise_before_map {places : List Address} (h : places.Pairwise Address.Before)
    (slot : Nat) : (places.map (slot :: ·)).Pairwise Address.Before := by
  rw [List.pairwise_map]
  exact h.imp fun hbefore => .cons hbefore

/-- The actions are listed in the order in which they are read. -/
theorem pairwise_places (t : Term) : t.places.Pairwise Address.Before := by
  induction t using inductionOn with
  | done => exact List.pairwise_singleton _ _
  | message _ _ _ next ih =>
    refine List.pairwise_cons.mpr ⟨fun place hplace => ?_, pairwise_before_map ih 0⟩
    obtain ⟨rest, -, rfl⟩ := List.mem_map.mp hplace
    exact .nil
  | choice _ _ branches ih =>
    refine List.pairwise_cons.mpr ⟨fun place hplace => ?_, ?_⟩
    · obtain ⟨i, b, rest, -, -, rfl⟩ := mem_branchPlaces_iff.mp hplace
      exact .nil
    generalize 0 = slot
    induction branches generalizing slot with
    | nil => exact .nil
    | cons b branches ihbranches =>
      obtain ⟨hb, hbranches⟩ := List.forall_mem_cons.mp ih
      refine List.pairwise_append.mpr
        ⟨pairwise_before_map hb slot, ihbranches hbranches (slot + 1), fun place hplace => ?_⟩
      obtain ⟨rest, -, rfl⟩ := List.mem_map.mp hplace
      intro place' hplace'
      obtain ⟨i, b', rest', -, -, rfl⟩ := mem_branchPlaces_iff.mp hplace'
      exact .rel (by omega)
  | mu v body ih => exact pairwise_before_map ih 0
  | var v => exact .nil

end Places

theorem not_before_append {place rest : Address} : ¬ Address.Before (place ++ rest) place := by
  intro h
  induction place with
  | nil => cases h
  | cons slot place ih =>
    cases h with
    | cons h => exact ih h
    | rel h => exact absurd h (Nat.lt_irrefl slot)

theorem le_of_getElem?_places {t : Term} {id id' : Nat} {place place' : Address}
    (h : t.places[id]? = some place) (h' : t.places[id']? = some place')
    (hunder : place <+: place') : id ≤ id' := by
  obtain ⟨rest, rfl⟩ := hunder
  obtain ⟨hid, hplace⟩ := List.getElem?_eq_some_iff.mp h
  obtain ⟨hid', hplace'⟩ := List.getElem?_eq_some_iff.mp h'
  refine Nat.le_of_not_lt fun hlt => ?_
  have hbefore := List.pairwise_iff_getElem.mp t.pairwise_places id' id hid' hid hlt
  rw [hplace, hplace'] at hbefore
  exact not_before_append hbefore

theorem eq_of_getElem?_places {t : Term} {id id' : Nat} {place : Address}
    (h : t.places[id]? = some place) (h' : t.places[id']? = some place) : id = id' :=
  Nat.le_antisymm (le_of_getElem?_places h h' (List.prefix_refl _))
    (le_of_getElem?_places h' h (List.prefix_refl _))

/-! ## Binders -/

namespace BoundBy

variable {t body : Term} {v : Variable} {place binder : Address}

/-- What follows lies below the same binder, unless it is below one more. -/
theorem concat (h : t.BoundBy v place binder body)
    (hplace : ∀ body', t.find? place ≠ some (.mu v body')) (slot : Nat) :
    t.BoundBy v (place ++ [slot]) binder body where
  find := h.find
  above := by
    obtain ⟨hunder, -⟩ := h.above
    refine ⟨hunder.trans (List.prefix_append _ _), fun heq => ?_⟩
    have hlength := hunder.length_le
    rw [heq, List.length_append, List.length_singleton] at hlength
    exact Nat.not_succ_le_self _ hlength
  nearest other body' hother hunder hne := by
    have hunder' := (List.prefix_concat_iff.mp hunder).resolve_left hne
    refine h.nearest other body' hother hunder' ?_
    rintro rfl
    exact hplace body' hother

theorem self (h : t.find? place = some (.mu v body)) (slot : Nat) :
    t.BoundBy v (place ++ [slot]) place body where
  find := h
  above := ⟨List.prefix_append _ _, by simp⟩
  nearest other _ _ hunder hne := (List.prefix_concat_iff.mp hunder).resolve_left hne

theorem unique {binder' : Address} {body' : Term} (h : t.BoundBy v place binder body)
    (h' : t.BoundBy v place binder' body') : binder = binder' ∧ body = body' := by
  have hle := h'.nearest binder body h.find h.above.1 h.above.2
  have hge := h.nearest binder' body' h'.find h'.above.1 h'.above.2
  obtain rfl := hle.eq_of_length (Nat.le_antisymm hle.length_le hge.length_le)
  have hfind := h.find.symm.trans h'.find
  exact ⟨rfl, by simpa using hfind⟩

end BoundBy

/-! ## Where variables lead -/

/-- An edge to `id` is right for what starts at `head` and is part of the action at `parent`: it
leads to the action there, or to the first one below the binder of the variable there. -/
inductive Leads (t : Term) (parent head : Address) (id : NodeId) : Prop
  | action (haction : t.ActionAt head) (hid : t.places[id]? = some head) : t.Leads parent head id
  | back {v : Variable} {binder : Address} {body : Term} (hvar : t.find? head = some (.var v))
      (hbound : t.BoundBy v head binder body)
      (hid : t.places[id]? = some (binder ++ (mu v body).front))
      (habove : binder ++ (mu v body).front <+: parent) : t.Leads parent head id

/-- The node is right for the action with the number `id`, and so are its edges. -/
def Draws (t : Term) (id : Nat) (n : Node) : Prop :=
  ∃ place u, t.places[id]? = some place ∧ t.find? place = some u ∧ n.Carries u ∧
    ∀ slot body, u.part? slot = some body → ∃ target,
      n.successors[slot]? = some target ∧ t.Leads place (place ++ [slot] ++ body.front) target

/-- What is known at `place` of the variables, when the last action above is at `parent` and the
next one at `head`: one that waits will lead to `head`, and one in scope leads to the first action
below its binder. -/
structure Resolved (t : Term) (parent place head : Address) (scope : Scope)
    (waiting : List Variable) : Prop where
  above : parent <+: place
  next : ∀ v ∈ waiting, ∃ binder body, t.BoundBy v place binder body ∧
    binder ++ (mu v body).front = head
  known : ∀ v id, v ∉ waiting → scope.lookup v = some id → ∃ binder body,
    t.BoundBy v place binder body ∧ t.places[id]? = some (binder ++ (mu v body).front) ∧
    binder ++ (mu v body).front <+: parent

namespace Resolved

variable {t : Term} {parent place : Address} {scope : Scope} {waiting : List Variable}

/-- Below an action the waiting variables lead to it. -/
theorem action {u : Term} {id : Nat} (h : t.Resolved parent place place scope waiting)
    (hfind : t.find? place = some u) (hu : u.isAction = true) (hid : t.places[id]? = some place)
    (slot : Nat) (head : Address) :
    t.Resolved place (place ++ [slot]) head (scope.bind waiting id) [] where
  above := List.prefix_append _ _
  next v hv := absurd hv List.not_mem_nil
  known v id' _ hlookup := by
    have hplace : ∀ body', t.find? place ≠ some (.mu v body') := by
      rintro body' heq
      rw [hfind, Option.some.injEq] at heq
      subst heq
      cases hu
    rw [Scope.lookup_bind] at hlookup
    split at hlookup
    next hv =>
      obtain rfl := Option.some.inj hlookup
      obtain ⟨binder, body, hbound, rfl⟩ := h.next v hv
      exact ⟨binder, body, hbound.concat hplace slot, hid, List.prefix_refl _⟩
    next hv =>
      obtain ⟨binder, body, hbound, hid', habove⟩ := h.known v id' hv hlookup
      exact ⟨binder, body, hbound.concat hplace slot, hid', habove.trans h.above⟩

/-- Below a binder its variable waits for the next action, as those before it do. -/
theorem binder {v : Variable} {body : Term}
    (h : t.Resolved parent place (place ++ (mu v body).front) scope waiting)
    (hfind : t.find? place = some (.mu v body)) :
    t.Resolved parent (place ++ [0]) (place ++ (mu v body).front) scope (v :: waiting) where
  above := h.above.trans (List.prefix_append _ _)
  next w hw := by
    by_cases heq : w = v
    · subst heq
      exact ⟨place, body, .self hfind 0, rfl⟩
    · obtain ⟨binder, body', hbound, hhead⟩ := h.next w ((List.mem_cons.mp hw).resolve_left heq)
      exact ⟨binder, body', hbound.concat (by simp [hfind, Ne.symm heq]) 0, hhead⟩
  known w id hw hlookup := by
    obtain ⟨hne, hw⟩ := List.ne_and_not_mem_of_not_mem_cons hw
    obtain ⟨binder, body', hbound, hid, habove⟩ := h.known w id hw hlookup
    exact ⟨binder, body', hbound.concat (by simp [hfind, Ne.symm hne]) 0, hid, habove⟩

end Resolved

/-! ## Layouts -/

/-- The actions of what is at `place` are numbered from `next` on. -/
def Numbered (t : Term) (place : Address) (next : Nat) (places : List Address) : Prop :=
  ∀ i rest, places[i]? = some rest → t.places[next + i]? = some (place ++ rest)

/-- The nodes are right for the actions that are numbered from `next` on. -/
def DrawsFrom (t : Term) (next : Nat) (nodes : List Node) : Prop :=
  ∀ i n, nodes[i]? = some n → t.Draws (next + i) n

section Layout

variable {t : Term} {place parent : Address} {scope : Scope} {waiting : List Variable} {next : Nat}
  {id : NodeId} {nodes : List Node}

namespace Numbered

variable {places places' : List Address}

theorem map {slot : Nat} (h : t.Numbered place next (places.map (slot :: ·))) :
    t.Numbered (place ++ [slot]) next places := by
  intro i rest hrest
  rw [h i (slot :: rest) (by rw [List.getElem?_map, hrest]; rfl), List.append_assoc]
  rfl

theorem uncons (h : t.Numbered place next ([] :: places)) :
    t.places[next]? = some place ∧ t.Numbered place (next + 1) places := by
  constructor
  · exact (h 0 [] rfl).trans (by rw [List.append_nil])
  · intro i rest hrest
    rw [Nat.add_right_comm, Nat.add_assoc]
    exact h (i + 1) rest hrest

theorem unappend (h : t.Numbered place next (places ++ places')) :
    t.Numbered place next places ∧ t.Numbered place (next + places.length) places' := by
  constructor
  · intro i rest hrest
    exact h i rest (by rw [List.getElem?_append_left (List.getElem?_eq_some_iff.mp hrest).1, hrest])
  · intro i rest hrest
    rw [Nat.add_assoc]
    exact h _ rest (by rw [List.getElem?_append_right (Nat.le_add_right _ _),
      Nat.add_sub_cancel_left, hrest])

end Numbered

namespace DrawsFrom

theorem nil : t.DrawsFrom next [] := by
  intro i n hn
  cases hn

theorem cons {n : Node} (hn : t.Draws next n) (h : t.DrawsFrom (next + 1) nodes) :
    t.DrawsFrom next (n :: nodes) := by
  intro i m hm
  cases i with
  | zero => rwa [← Option.some.inj hm]
  | succ i =>
    rw [← Nat.add_assoc, Nat.add_right_comm]
    exact h i m hm

theorem append {nodes' : List Node} (h : t.DrawsFrom next nodes)
    (h' : t.DrawsFrom (next + nodes.length) nodes') : t.DrawsFrom next (nodes ++ nodes') := by
  intro i n hn
  rcases Nat.lt_or_ge i nodes.length with hlt | hge
  · rw [List.getElem?_append_left hlt] at hn
    exact h i n hn
  · rw [List.getElem?_append_right hge] at hn
    have hdraws := h' _ n hn
    rwa [Nat.add_assoc, Nat.add_sub_cancel' hge] at hdraws

end DrawsFrom

theorem draws_of_layoutBranches {branches : List (Label × Term)} {targets : List (Label × NodeId)}
    {slot : Nat}
    (hbody : ∀ i b, branches[i]? = some b → ∀ {next id nodes},
      t.Numbered (place ++ [slot + i]) next b.2.places →
      b.2.layout scope [] next = .ok (id, nodes) →
      t.Leads place (place ++ [slot + i] ++ b.2.front) id ∧ t.DrawsFrom next nodes)
    (hplaces : t.Numbered place next (branchPlaces slot branches))
    (h : layoutBranches scope next branches = .ok (targets, nodes)) :
    targets.map Prod.fst = branches.map Prod.fst ∧
      (∀ i b, branches[i]? = some b → ∃ target, (targets.map Prod.snd)[i]? = some target ∧
        t.Leads place (place ++ [slot + i] ++ b.2.front) target) ∧
      t.DrawsFrom next nodes := by
  induction branches generalizing slot next targets nodes with
  | nil =>
    cases h
    exact ⟨rfl, nofun, .nil⟩
  | cons b branches ih =>
    obtain ⟨target, nodes₁, targets', nodes₂, hfirst, hrest, rfl, rfl⟩ :=
      layoutBranches_cons_eq_ok_iff.mp h
    obtain ⟨hplaces₁, hplaces₂⟩ := hplaces.unappend
    rw [List.length_map, length_places, ← length_of_layout b.2 hfirst] at hplaces₂
    obtain ⟨hleads, hdraws⟩ := hbody 0 b rfl hplaces₁.map hfirst
    have hshift : ∀ i, slot + 1 + i = slot + (i + 1) := by omega
    obtain ⟨hlabels, hleads', hdraws'⟩ := ih (fun i b' hb' {_ _ _} => by
      rw [hshift]
      exact hbody (i + 1) b' hb') hplaces₂ hrest
    refine ⟨congrArg (b.1 :: ·) hlabels, fun i b' hb' => ?_, hdraws.append hdraws'⟩
    cases i with
    | zero =>
      obtain rfl := Option.some.inj hb'
      exact ⟨target, rfl, hleads⟩
    | succ i =>
      rw [← hshift]
      exact hleads' i b' hb'

theorem draws_of_layout (u : Term) (hfind : t.find? place = some u)
    (hplaces : t.Numbered place next u.places)
    (hscope : t.Resolved parent place (place ++ u.front) scope waiting)
    (h : u.layout scope waiting next = .ok (id, nodes)) :
    t.Leads parent (place ++ u.front) id ∧ t.DrawsFrom next nodes := by
  induction u using inductionOn generalizing place parent scope waiting next id nodes with
  | done =>
    obtain ⟨-, rfl, rfl⟩ := layout_done_eq_ok_iff.mp h
    obtain ⟨hid, -⟩ := hplaces.uncons
    simp only [front, List.append_nil]
    exact ⟨.action ⟨_, hfind, rfl⟩ hid,
      .cons ⟨place, .done, hid, hfind, .done, by simp [part?]⟩ .nil⟩
  | message polarity participant payload body ih =>
    obtain ⟨target, nodes', -, rfl, hbody, rfl⟩ := layout_message_eq_ok_iff.mp h
    obtain ⟨hid, hrest⟩ := hplaces.uncons
    simp only [front, List.append_nil] at hscope ⊢
    -- below the action nothing waits any more, and the action is what variables lead back to
    obtain ⟨hleads, hdraws⟩ := ih (find?_concat hfind 0) hrest.map
      (hscope.action hfind rfl hid 0 _) hbody
    refine ⟨.action ⟨_, hfind, rfl⟩ hid,
      .cons ⟨place, _, hid, hfind, .message, fun slot body' hpart => ?_⟩ hdraws⟩
    cases slot with
    | zero =>
      obtain rfl := Option.some.inj hpart
      exact ⟨target, rfl, hleads⟩
    | succ slot => cases hpart
  | choice polarity participant branches ih =>
    obtain ⟨targets, nodes', -, -, rfl, hbody, rfl⟩ := layout_choice_eq_ok_iff.mp h
    obtain ⟨hid, hrest⟩ := hplaces.uncons
    simp only [front, List.append_nil] at hscope ⊢
    have hfind' : ∀ i b, branches[i]? = some b → t.find? (place ++ [0 + i]) = some b.2 := by
      intro i b hb
      rw [find?_concat hfind, part?, Nat.zero_add, hb, Option.map_some]
    obtain ⟨hlabels, hleads, hdraws⟩ := draws_of_layoutBranches (fun i b hb {_ _ _} hplaces =>
      ih b (List.mem_of_getElem? hb) (hfind' i b hb) hplaces
        (hscope.action hfind rfl hid (0 + i) _)) hrest hbody
    refine ⟨.action ⟨_, hfind, rfl⟩ hid,
      .cons ⟨place, _, hid, hfind, .choice hlabels, fun slot body hpart => ?_⟩ hdraws⟩
    obtain ⟨b, hb, rfl⟩ := Option.map_eq_some_iff.mp hpart
    obtain ⟨target, htarget, hleads⟩ := hleads slot b hb
    rw [Nat.zero_add] at hleads
    exact ⟨target, htarget, hleads⟩
  | mu v body ih =>
    -- a binder is passed over: what the body starts with is what the whole starts with
    have happend : place ++ (mu v body).front = place ++ [0] ++ body.front := by simp [front]
    have hbinder := hscope.binder hfind
    rw [happend] at hbinder ⊢
    exact ih (find?_concat hfind 0) hplaces.map hbinder h
  | var v =>
    obtain ⟨hv, hlookup, rfl⟩ := layout_var_eq_ok_iff.mp h
    obtain ⟨binder, body, hbound, hid, habove⟩ := hscope.known v id hv hlookup
    simp only [front, List.append_nil]
    exact ⟨.back hfind hbound hid habove, .nil⟩

end Layout

/-! ## The shape of a graph -/

section Shape

variable {t : Term} {g : Graph} {id target : NodeId} {place head : Address} {v : Variable}

theorem Draws.exists_leads {u body : Term} {n : Node} {slot : Nat} (h : t.Draws id n)
    (hid : t.places[id]? = some place) (hfind : t.find? place = some u)
    (hpart : u.part? slot = some body) : ∃ target,
      n.successors[slot]? = some target ∧ t.Leads place (place ++ slot :: body.front) target := by
  obtain ⟨place', u', hid', hfind', -, hedges⟩ := h
  obtain rfl := Option.some.inj (hid.symm.trans hid')
  obtain rfl := Option.some.inj (hfind.symm.trans hfind')
  obtain ⟨target, htarget, hleads⟩ := hedges slot body hpart
  rw [List.append_assoc] at hleads
  exact ⟨target, htarget, hleads⟩

theorem EdgeFor.leads (hdraws : ∀ id n, g.node id = .ok n → t.Draws id n)
    (h : t.EdgeFor g id place head target) : t.Leads place head target := by
  obtain ⟨u, n, slot, body, hid, hfind, hn, hpart, rfl, htarget⟩ := h
  obtain ⟨target', htarget', hleads⟩ := (hdraws id n hn).exists_leads hid hfind hpart
  rwa [Option.some.inj (htarget.symm.trans htarget')]

theorem EdgeFor.lt (h : t.EdgeFor g id place head target)
    (htarget : t.places[target]? = some head) : id < target := by
  obtain ⟨u, n, slot, body, hid, -, -, -, rfl, -⟩ := h
  refine Nat.lt_of_le_of_ne (le_of_getElem?_places hid htarget (List.prefix_append _ _)) ?_
  rintro rfl
  simp [hid] at htarget

theorem not_actionAt_of_var (h : t.find? head = some (.var v)) : ¬ t.ActionAt head := by
  rintro ⟨u, hfind, hu⟩
  obtain rfl := Option.some.inj (h.symm.trans hfind)
  cases hu

theorem Leads.getElem?_places (h : t.Leads place head target) (haction : t.ActionAt head) :
    t.places[target]? = some head := by
  cases h with
  | action _ hid => exact hid
  | back hvar => exact absurd haction (not_actionAt_of_var hvar)

theorem Leads.bound (h : t.Leads place head target) (hvar : t.find? head = some (.var v)) :
    ∃ binder body, t.BoundBy v head binder body ∧
      t.places[target]? = some (binder ++ (mu v body).front) ∧
      binder ++ (mu v body).front <+: place := by
  cases h with
  | action haction => exact absurd haction (not_actionAt_of_var hvar)
  | back hvar' hbound hid habove =>
    obtain rfl : v = _ := by simpa [hvar] using hvar'
    exact ⟨_, _, hbound, hid, habove⟩

theorem reachable_of_above (hroot : g.root = some 0) (h : g.Above 0 id) : g.Reachable id := by
  induction h with
  | refl => exact .root hroot
  | tail _ hedge ih =>
    obtain ⟨⟨n, i⟩, hn, hmem⟩ := List.mem_flatMap.mp (List.mem_filter.mp hedge).1
    obtain ⟨id', hid', hpair⟩ := List.mem_map.mp hmem
    obtain ⟨rfl, rfl⟩ := Prod.mk.inj hpair
    rw [List.mk_mem_zipIdx_iff_getElem?, Array.getElem?_toList] at hn
    exact .next ih (Graph.node_eq_ok_iff.mpr hn) hid'

theorem treeWithBackEdges_toGraph (h : t.toGraph = .ok g) : g.TreeWithBackEdges := by
  obtain ⟨root, nodes, hlayout, rfl⟩ := toGraph_eq_ok_iff.mp h
  have htree : Treelike Eq [] 0 [root] nodes _ := treelike_of_layout t (by simp) hlayout
  exact (htree.treeWithBackEdges fun _ _ => .of_eq).1

/-- Each action has its node, and the first one starts the term. -/
theorem draws_of_toGraph (h : t.toGraph = .ok g) :
    g.size = t.places.length ∧ t.places[0]? = some t.front ∧
      ∀ id n, g.node id = .ok n → t.Draws id n := by
  have hroot := (treeWithBackEdges_toGraph h).root
  obtain ⟨root, nodes, hlayout, rfl⟩ := toGraph_eq_ok_iff.mp h
  obtain rfl := Option.some.inj hroot
  have hplaces : t.Numbered [] 0 t.places := fun i rest hrest => by simpa using hrest
  have hscope : t.Resolved [] [] ([] ++ t.front) [] [] := ⟨List.prefix_refl _, by simp, by simp⟩
  obtain ⟨hstart, hdraws⟩ := draws_of_layout t rfl hplaces hscope hlayout
  refine ⟨(length_of_layout t hlayout).trans t.length_places.symm, ?_, fun id n hn => ?_⟩
  · -- at the start no variable is bound, so the term starts with an action
    cases hstart with
    | action _ hid => exact hid
    | back _ _ _ hunder => simp [front] at hunder
  · rw [Graph.node_eq_ok_iff, List.getElem?_toArray] at hn
    simpa using hdraws id n hn

/-- The graph of a term has the shape of the term. -/
theorem shape_toGraph (h : t.toGraph = .ok g) : t.Shape g := by
  have htree := treeWithBackEdges_toGraph h
  obtain ⟨hsize, hfront, hdraws⟩ := draws_of_toGraph h
  have hnode : ∀ id place, t.places[id]? = some place → ∃ n, g.node id = .ok n :=
    fun _ _ hid => Graph.exists_node (hsize ▸ (List.getElem?_eq_some_iff.mp hid).1)
  refine {
    size := hsize
    ascending := t.pairwise_places
    mem_places_iff := fun _ => t.mem_places_iff
    root := ⟨htree.root, hfront⟩
    node := fun id place hid => ?_
    edge := fun id place u slot body hid hfind hpart => ?_
    forward := fun id place head target hedge haction => ?_
    back := fun id place head target v hedge hvar => (hedge.leads hdraws).bound hvar
    shared := fun id id' place place' head head' target target' v binder body hedge hedge' hvar
      hvar' hbound hbound' => ?_
    reachable := fun id hid => reachable_of_above htree.root (htree.above id hid) }
  · obtain ⟨n, hn⟩ := hnode id place hid
    obtain ⟨place', u, hid', hfind, hcarries, -⟩ := hdraws id n hn
    obtain rfl := Option.some.inj (hid.symm.trans hid')
    exact ⟨u, n, hfind, hn, hcarries⟩
  · obtain ⟨n, hn⟩ := hnode id place hid
    obtain ⟨target, htarget, -⟩ := (hdraws id n hn).exists_leads hid hfind hpart
    exact ⟨target, u, n, slot, body, hid, hfind, hn, hpart, rfl, htarget⟩
  · have htarget := (hedge.leads hdraws).getElem?_places haction
    exact ⟨htarget, hedge.lt htarget⟩
  · obtain ⟨_, _, hbound₁, htarget, -⟩ := (hedge.leads hdraws).bound hvar
    obtain ⟨_, _, hbound₂, htarget', -⟩ := (hedge'.leads hdraws).bound hvar'
    obtain ⟨rfl, rfl⟩ := hbound.unique hbound₁
    obtain ⟨rfl, rfl⟩ := hbound'.unique hbound₂
    exact eq_of_getElem?_places htarget htarget'

/-- Two binders above the first action, and two in a row further down, of which the inner one hides
one of those. -/
theorem shape_toGraph_hidden :
    let t : Term := .mu 2 (.mu 0 (.message .output 1 .nat (.mu 1 (.mu 0 (.choice .input 2
      [(0, .var 0), (3, .var 1), (5, .message .input 0 .bool (.var 2)), (7, .mu 1 .done)])))))
    let g : Graph := ⟨#[.message .output 1 .nat 1,
      .choice .input 2 [(0, 1), (3, 1), (5, 2), (7, 3)], .message .input 0 .bool 0, .done], some 0⟩
    t.toGraph = .ok g ∧
      t.places = [[0, 0], [0, 0, 0, 0, 0], [0, 0, 0, 0, 0, 2], [0, 0, 0, 0, 0, 3, 0]] ∧
      t.Shape g := by
  intro t g
  have h : t.toGraph = .ok g := rfl
  exact ⟨h, rfl, shape_toGraph h⟩

end Shape

end Term

end SessionGraph
