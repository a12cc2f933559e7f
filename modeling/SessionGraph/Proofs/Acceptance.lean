import SessionGraph.Proofs.Diagnosis

/-!
# Terms that can be laid out

A closed term in which every variable is met below an action of its binder, and whose labels ascend,
is laid out as one node for each of its actions. The only thing that can go wrong is that the node
ids do not suffice.
-/

namespace SessionGraph.Term

/-- `P` holds of the term and of all terms in it. -/
inductive Everywhere (P : Term → Prop) : Term → Prop
  | done (h : P .done) : Everywhere P .done
  | message {polarity : Polarity} {participant : Participant} {payload : Payload} {next : Term}
      (h : P (.message polarity participant payload next)) (hnext : Everywhere P next) :
      Everywhere P (.message polarity participant payload next)
  | choice {polarity : Polarity} {participant : Participant} {branches : List (Label × Term)}
      (h : P (.choice polarity participant branches))
      (hbranches : ∀ b ∈ branches, Everywhere P b.2) :
      Everywhere P (.choice polarity participant branches)
  | mu {v : Variable} {body : Term} (h : P (.mu v body)) (hbody : Everywhere P body) :
      Everywhere P (.mu v body)
  | var {v : Variable} (h : P (.var v)) : Everywhere P (.var v)

/-- No variable of `waiting`, and none bound in the term, is met before an action below its
binder. -/
inductive Guarded : (waiting : List Variable) → Term → Prop
  | done {waiting : List Variable} : Guarded waiting .done
  | message {waiting : List Variable} {polarity : Polarity} {participant : Participant}
      {payload : Payload} {next : Term} (h : Guarded [] next) :
      Guarded waiting (.message polarity participant payload next)
  | choice {waiting : List Variable} {polarity : Polarity} {participant : Participant}
      {branches : List (Label × Term)} (h : ∀ b ∈ branches, Guarded [] b.2) :
      Guarded waiting (.choice polarity participant branches)
  | mu {waiting : List Variable} {v : Variable} {body : Term} (h : Guarded (v :: waiting) body) :
      Guarded waiting (.mu v body)
  | var {waiting : List Variable} {v : Variable} (h : v ∉ waiting) : Guarded waiting (.var v)

theorem Everywhere.mono {P Q : Term → Prop} {t : Term} (h : t.Everywhere P) (hPQ : ∀ t, P t → Q t) :
    t.Everywhere Q := by
  induction h with
  | done h => exact .done (hPQ _ h)
  | message h _ ih => exact .message (hPQ _ h) ih
  | choice h _ ih => exact .choice (hPQ _ h) ih
  | mu h _ ih => exact .mu (hPQ _ h) ih
  | var h => exact .var (hPQ _ h)

/-- If the term is a choice, its labels ascend. -/
def LabelsAscend : Term → Prop
  | .choice _ _ branches => Ascending (branches.map Prod.fst)
  | _ => True

/-- Nothing is wrong with a guarded term whose labels ascend, if its free variables are bound around
it. -/
theorem proper_of_guarded (t : Term) {around : List Layer}
    (hclosed : t.ClosedIn fun v => .binder v ∈ around) (hguarded : t.Guarded (sinceAction around))
    (hlabels : t.Everywhere LabelsAscend) : ∀ p ∈ t.positions around, p.Proper := by
  induction t using inductionOn generalizing around with
  | done => simp [positions, Position.Proper]
  | message _ _ _ body ih =>
    cases hguarded with | message hguarded =>
    cases hlabels with | message _ hlabels =>
    rw [ClosedIn] at hclosed
    exact List.forall_mem_cons.mpr
      ⟨trivial, ih (hclosed.mono fun _ => List.mem_cons_of_mem _) hguarded hlabels⟩
  | choice _ _ branches ih =>
    cases hguarded with | choice hguarded =>
    cases hlabels with | choice hascending hlabels =>
    rw [ClosedIn, branchesClosedIn_iff] at hclosed
    refine List.forall_mem_cons.mpr ⟨hascending, fun p hp => ?_⟩
    rw [branchPositions_eq_flatMap, List.mem_flatMap] at hp
    obtain ⟨b, hb, hp⟩ := hp
    have hbelow : b.2.ClosedIn fun v => .binder v ∈ Layer.action :: around :=
      (hclosed b hb).mono fun _ => List.mem_cons_of_mem _
    exact ih b hb hbelow (hguarded b hb) (hlabels b hb) p hp
  | mu v body ih =>
    cases hguarded with | mu hguarded =>
    cases hlabels with | mu _ hlabels =>
    rw [ClosedIn] at hclosed
    refine List.forall_mem_cons.mpr ⟨trivial, ih (hclosed.mono fun w hw => ?_) hguarded hlabels⟩
    rcases hw with rfl | hw
    · exact List.mem_cons_self
    · exact List.mem_cons_of_mem _ hw
  | var v =>
    cases hguarded with | var hguarded =>
    obtain ⟨inner, hnearest⟩ := exists_nearest hclosed
    rw [hnearest.mem_sinceAction_iff, not_not] at hguarded
    exact List.forall_mem_singleton.mpr ⟨inner, hnearest, hguarded⟩

theorem displays_toGraph (depth : Nat) {t : Term} {root : NodeId} {nodes : List Node}
    (h : t.layout [] [] 0 = .ok (root, nodes)) :
    (Graph.mk nodes.toArray (some root)).Displays depth t root := by
  have hnone : Resolves ⟨nodes.toArray, some root⟩ depth [] [] (fun _ => none) t :=
    ⟨by simp, by simp, by simp⟩
  have hdisplays := displays_of_layout depth t h (Graph.holds_toArray [] nodes _) hnone
  rwa [close_none] at hdisplays

/-- A term that has a graph has no more actions than there are node ids. -/
theorem actions_le_of_toGraph {t : Term} {g : Graph} (h : t.toGraph = .ok g) :
    t.actions ≤ NodeId.limit := by
  obtain ⟨root, nodes, hlayout, -⟩ := toGraph_eq_ok_iff.mp h
  have hle := t.le_limit_of_layout (Nat.zero_le _) hlayout
  rwa [Nat.zero_add, t.length_of_layout hlayout] at hle

/-- A closed and guarded term with labels that ascend has a graph, unless it has more actions than
there are node ids. -/
theorem exists_toGraph {t : Term} (hclosed : t.Closed) (hguarded : t.Guarded [])
    (hlabels : t.Everywhere LabelsAscend) :
    (∃ g root, t.toGraph = .ok g ∧ g.root = some root ∧ ∀ depth, g.Displays depth t root) ∨
    (t.toGraph = .error (.fault .idSpace) ∧ NodeId.limit < t.actions) := by
  rcases h : t.layout [] [] 0 with error | ⟨root, nodes⟩
  · have hgraph : t.toGraph = .error error := toGraph_eq_error_iff.mpr h
    rcases explains_of_toGraph hgraph with ⟨rfl, hlimit⟩ | ⟨e, -, hfirst⟩
    · exact .inr ⟨hgraph, hlimit⟩
    · have hproper : ∀ p ∈ t.positions [], p.Proper :=
        proper_of_guarded t (hclosed.mono fun _ => False.elim) hguarded hlabels
      exact absurd hproper hfirst.not_forall_proper
  · exact .inl ⟨⟨nodes.toArray, some root⟩, root, toGraph_eq_ok_iff.mpr ⟨root, nodes, h, rfl⟩, rfl,
      fun depth => displays_toGraph depth h⟩

end SessionGraph.Term
