import Mathlib.Data.List.Basic
import SessionGraph.Graph.Text
import SessionGraph.Proofs.Acceptance
import SessionGraph.Proofs.Simulation

/-!
# Spelling a graph as a term

The term that is written for a graph, by recursion instead of by a path: a node met below itself is
the variable with its number, and any other node is its action over what is spelled for its
successors, bound to its variable if it has one by then (`Spells`). Numbers are given in the order
in which nodes are met again and are never taken back, so a node that is spelled twice may be bound
only the second time, or bound where its variable does not occur.

That does no harm. A variable that occurs is that of a node on the path, and each such node is bound
when it is left (`Spells.closedIn`), so the term of the root is closed; and as different nodes have
different numbers, each variable stands for the node it was written for (`Spells.displays`).
-/

namespace SessionGraph

/-! ## Terms for nodes -/

/-- The action of a node over the terms for what follows it. -/
def Node.term (ts : List Term) : Node → Term
  | .done => .done
  | .message polarity participant payload _ =>
    .message polarity participant payload (ts.headD .done)
  | .choice polarity participant branches =>
    .choice polarity participant ((branches.map Prod.fst).zip ts)

/-- The nodes that have variables, in the order of their numbers. -/
abbrev Names := List NodeId

namespace Names

/-- The number of the variable of a node; that of the next one if the node has none. -/
def number (named : Names) (id : NodeId) : Nat := named.idxOf id

/-- Gives a variable to a node that has none. -/
def note (named : Names) (id : NodeId) : Names := if id ∈ named then named else named ++ [id]

/-- Binds the variable of a node that has one. -/
def bind (named : Names) (id : NodeId) (t : Term) : Term :=
  if id ∈ named then .mu (named.number id) t else t

variable {named named' : Names} {id id' : NodeId}

theorem mem_note_iff : id' ∈ named.note id ↔ id' = id ∨ id' ∈ named := by
  unfold note
  split
  · rename_i h
    refine ⟨.inr, ?_⟩
    rintro (rfl | h')
    · exact h
    · exact h'
  · rw [List.mem_append, List.mem_singleton, or_comm]

theorem mem_note : id ∈ named.note id := mem_note_iff.mpr (.inl rfl)

theorem number_of_not_mem (h : id ∉ named) : named.number id = named.length :=
  List.idxOf_eq_length h

theorem number_note : (named.note id).number id = named.number id := by
  unfold note
  split
  · rfl
  · rename_i h
    rw [number_of_not_mem h, number, List.idxOf_append_of_notMem h, List.idxOf_cons_self,
      Nat.add_zero]

theorem length_note (h : id ∉ named) : (named.note id).length = named.length + 1 := by
  rw [note, if_neg h, List.length_append, List.length_singleton]

theorem prefix_note : named <+: named.note id := by
  unfold note
  split
  · exact List.prefix_rfl
  · exact List.prefix_append _ _

theorem number_stable (h : named <+: named') (hid : id ∈ named) :
    named'.number id = named.number id := by
  obtain ⟨rest, rfl⟩ := h
  exact List.idxOf_append_of_mem hid

theorem number_lt (hid : id ∈ named) : named.number id < named.length :=
  List.idxOf_lt_length_of_mem hid

/-- If the nodes have variables in their own order, their ids are the numbers. -/
theorem number_range {i n : Nat} (h : i ≤ n) : number (List.range n) i = i := by
  rcases Nat.lt_or_eq_of_le h with hlt | rfl
  · have hidx := List.nodup_range.idxOf_getElem i (by rwa [List.length_range])
    rwa [List.getElem_range] at hidx
  · rw [number_of_not_mem (by simp), List.length_range]

theorem note_range {n : Nat} : note (List.range n) n = List.range (n + 1) := by
  rw [note, if_neg (by simp), List.range_succ]

theorem number_inj (hid : id ∈ named) : named.number id = named.number id' ↔ id = id' :=
  List.idxOf_inj hid

end Names

/-! ## What is spelled -/

/-- Below the nodes of `path`, the nodes of `ids` are spelled as `us` one after the other, and the
nodes that have variables are those of `named` before and those of `named'` after. -/
inductive Spells (g : Graph) :
    (path : List NodeId) → Names → (ids : List NodeId) → List Term → Names → Prop
  | nil {path : List NodeId} {named : Names} : Spells g path named [] [] named
  | again {path ids : List NodeId} {named named' : Names} {id : NodeId} {us : List Term}
      (h : id ∈ path) (hrest : Spells g path (named.note id) ids us named') :
      Spells g path named (id :: ids) (.var (named.number id) :: us) named'
  | node {path ids : List NodeId} {named named₁ named' : Names} {id : NodeId} {n : Node}
      {ts us : List Term} (h : id ∉ path) (hn : g.node id = .ok n)
      (hbelow : Spells g (id :: path) named n.successors ts named₁)
      (hrest : Spells g path named₁ ids us named') :
      Spells g path named (id :: ids) (named₁.bind id (n.term ts) :: us) named'

section Spells

variable {g : Graph} {path ids : List NodeId} {named named' : Names} {us : List Term}

/-- Where all ids lead to nodes, there is something to be spelled. -/
theorem exists_spells (hg : g.Traversable) (path : List NodeId) (named : Names)
    (hids : ∀ id ∈ ids, g.Reachable id) : ∃ us named', Spells g path named ids us named' := by
  induction hfresh : DepthFirst.fresh (List.range g.size) path using Nat.strongRecOn
    generalizing path named ids with
  | ind fresh ih =>
    -- below a node of the list fewer nodes are fresh, and behind it the list is shorter
    induction ids generalizing named with
    | nil => exact ⟨[], named, .nil⟩
    | cons id ids ihids =>
      obtain ⟨hid, hids⟩ := List.forall_mem_cons.mp hids
      by_cases hmem : id ∈ path
      · obtain ⟨us, named', hrest⟩ := ihids (named.note id) hids
        exact ⟨_, named', .again hmem hrest⟩
      · have hsize := hg id hid
        obtain ⟨n, hn⟩ := Graph.exists_node hsize
        have hlt := DepthFirst.fresh_cons_lt (List.mem_range.mpr hsize) hmem
        obtain ⟨ts, named₁, hbelow⟩ := ih _ (hfresh ▸ hlt) (id :: path) named
          (fun next hnext => .next hid hn hnext) rfl
        obtain ⟨us, named', hrest⟩ := ihids named₁ hids
        exact ⟨_, named', .node hmem hn hbelow hrest⟩

theorem Spells.length_eq (h : Spells g path named ids us named') : us.length = ids.length := by
  induction h with
  | nil => rfl
  | again _ _ ih => rw [List.length_cons, List.length_cons, ih]
  | node _ _ _ _ _ ih => rw [List.length_cons, List.length_cons, ih]

theorem Spells.isPrefix (h : Spells g path named ids us named') : named <+: named' := by
  induction h with
  | nil => exact List.prefix_rfl
  | again _ _ ih => exact Names.prefix_note.trans ih
  | node _ _ _ _ ihbelow ihrest => exact ihbelow.trans ihrest

end Spells

/-! ## Which terms are spelled -/

/-- If the term is or binds a variable, its number is below `bound`. -/
def Term.VariableBelow (bound : Nat) : Term → Prop
  | .mu v _ => v < bound
  | .var v => v < bound
  | _ => True

theorem Term.VariableBelow.mono {bound bound' : Nat} {t : Term} (hle : bound ≤ bound')
    (h : t.VariableBelow bound) : t.VariableBelow bound' := by
  cases t with
  | mu v body => exact Nat.lt_of_lt_of_le h hle
  | var v => exact Nat.lt_of_lt_of_le h hle
  | _ => trivial

namespace Node

variable {n : Node} {ts : List Term}

theorem closedIn_term {B : Variable → Prop} (h : ∀ t ∈ ts, t.ClosedIn B) :
    (n.term ts).ClosedIn B := by
  cases n with
  | done => trivial
  | message =>
    cases ts with
    | nil => trivial
    | cons t ts => exact h t List.mem_cons_self
  | choice =>
    rw [term, Term.ClosedIn, Term.branchesClosedIn_iff]
    exact fun b hb => h b.2 (List.of_mem_zip hb).2

theorem guarded_term (waiting : List Variable) (h : ∀ t ∈ ts, t.Guarded []) :
    (n.term ts).Guarded waiting := by
  cases n with
  | done => exact .done
  | message =>
    cases ts with
    | nil => exact .message .done
    | cons t ts => exact .message (h t List.mem_cons_self)
  | choice => exact .choice fun b hb => h b.2 (List.of_mem_zip hb).2

theorem everywhere_term {P : Term → Prop} (hdone : P .done) (hn : P (n.term ts))
    (h : ∀ t ∈ ts, t.Everywhere P) : (n.term ts).Everywhere P := by
  cases n with
  | done => exact .done hdone
  | message =>
    cases ts with
    | nil => exact .message hn (.done hdone)
    | cons t ts => exact .message hn (h t List.mem_cons_self)
  | choice => exact .choice hn fun b hb => h b.2 (List.of_mem_zip hb).2

end Node

theorem Names.everywhere_bind {P : Term → Prop} {named : Names} {id : NodeId} {t : Term}
    (hmu : id ∈ named → P (.mu (named.number id) t)) (ht : t.Everywhere P) :
    (named.bind id t).Everywhere P := by
  unfold bind
  split
  · exact .mu (hmu ‹_›) ht
  · exact ht

namespace Spells

variable {g : Graph} {path ids : List NodeId} {named named' : Names} {us : List Term}

/-- The variables that occur free are those of nodes on the path. -/
theorem closedIn (h : Spells g path named ids us named') :
    ∀ u ∈ us, u.ClosedIn fun v => ∃ id ∈ path, id ∈ named' ∧ v = named'.number id := by
  induction h with
  | nil => exact nofun
  | @again path ids named named' id us hid hrest ih =>
    refine List.forall_mem_cons.mpr ⟨⟨id, hid, ?_, ?_⟩, ih⟩
    · exact hrest.isPrefix.subset Names.mem_note
    · rw [Names.number_stable hrest.isPrefix Names.mem_note, Names.number_note]
  | @node path ids named named₁ named' id n ts us hid hn hbelow hrest ihbelow ihrest =>
    refine List.forall_mem_cons.mpr ⟨?_, ihrest⟩
    -- the node may occur below itself; if it does it has a variable, which is bound here
    have hterm : (n.term ts).ClosedIn fun v =>
        (id ∈ named₁ ∧ v = named₁.number id) ∨
          ∃ id' ∈ path, id' ∈ named' ∧ v = named'.number id' := by
      refine Node.closedIn_term fun t ht => (ihbelow t ht).mono ?_
      rintro v ⟨id', hid', hmem, rfl⟩
      rcases List.mem_cons.mp hid' with rfl | hid'
      · exact .inl ⟨hmem, rfl⟩
      · refine .inr ⟨id', hid', hrest.isPrefix.subset hmem, ?_⟩
        rw [Names.number_stable hrest.isPrefix hmem]
    unfold Names.bind
    split
    · exact hterm.mono fun v hv => hv.imp_left And.right
    · exact hterm.mono fun v hv => hv.resolve_left fun hv => ‹id ∉ named₁› hv.1

theorem guarded (h : Spells g path named ids us named') : ∀ u ∈ us, u.Guarded [] := by
  induction h with
  | nil => exact nofun
  | again _ _ ih => exact List.forall_mem_cons.mpr ⟨.var List.not_mem_nil, ih⟩
  | node _ _ _ _ ihbelow ihrest =>
    refine List.forall_mem_cons.mpr ⟨?_, ihrest⟩
    unfold Names.bind
    split
    · exact .mu (Node.guarded_term _ ihbelow)
    · exact Node.guarded_term _ ihbelow

theorem labelsAscend (hg : g.Sorted) (h : Spells g path named ids us named')
    (hids : ∀ id ∈ ids, g.Reachable id) : ∀ u ∈ us, u.Everywhere Term.LabelsAscend := by
  induction h with
  | nil => exact nofun
  | again _ _ ih =>
    exact List.forall_mem_cons.mpr ⟨.var trivial, ih (List.forall_mem_cons.mp hids).2⟩
  | @node path ids named named₁ named' id n ts us hid hn hbelow hrest ihbelow ihrest =>
    obtain ⟨hid, hids⟩ := List.forall_mem_cons.mp hids
    refine List.forall_mem_cons.mpr ⟨?_, ihrest hids⟩
    have hascend : (n.term ts).LabelsAscend := by
      have hsorted := hg id n hid hn
      cases n with
      | done => trivial
      | message => trivial
      | choice polarity participant branches =>
        have hlength := hbelow.length_eq
        rw [Node.successors, List.length_map] at hlength
        rw [Node.term, Term.LabelsAscend, List.map_fst_zip (by simp [hlength])]
        exact hsorted
    refine Names.everywhere_bind (fun _ => trivial) (Node.everywhere_term trivial hascend ?_)
    exact ihbelow fun next hnext => .next hid hn hnext

theorem variablesBelow (h : Spells g path named ids us named') :
    ∀ u ∈ us, u.Everywhere (Term.VariableBelow named'.length) := by
  induction h with
  | nil => exact nofun
  | @again path ids named named' id us hid hrest ih =>
    refine List.forall_mem_cons.mpr ⟨.var ?_, ih⟩
    rw [Term.VariableBelow, ← Names.number_note,
      ← Names.number_stable hrest.isPrefix Names.mem_note]
    exact Names.number_lt (hrest.isPrefix.subset Names.mem_note)
  | @node path ids named named₁ named' id n ts us hid hn hbelow hrest ihbelow ihrest =>
    refine List.forall_mem_cons.mpr ⟨?_, ihrest⟩
    have hle : named₁.length ≤ named'.length := hrest.isPrefix.length_le
    refine Names.everywhere_bind (fun hmem => Nat.lt_of_lt_of_le (Names.number_lt hmem) hle)
      (Node.everywhere_term trivial (by cases n <;> trivial) fun t ht => ?_)
    exact (ihbelow t ht).mono fun t => Term.VariableBelow.mono hle

end Spells

/-! ## What the terms show -/

/-- The terms of `σ` are closed, and for the variable of each node on the path there is one that
shows up to the depth what the node shows. -/
structure Assigned (g : Graph) (depth : Nat) (path : List NodeId) (named : Names)
    (σ : Variable → Option Term) : Prop where
  closed : ∀ v u, σ v = some u → u.Closed
  shown : ∀ id ∈ path, id ∈ named →
    ∃ u, σ (named.number id) = some u ∧ ∀ m ≤ depth, g.Displays m u id

namespace Assigned

variable {g : Graph} {depth : Nat} {path : List NodeId} {named named' : Names}
  {σ : Variable → Option Term} {t : Term} {id : NodeId}

theorem mono (h : Assigned g depth path named' σ) (hnamed : named <+: named') {m : Nat}
    (hm : m ≤ depth) : Assigned g m path named σ := by
  refine ⟨h.closed, fun id hid hmem => ?_⟩
  obtain ⟨u, hu, hshown⟩ := h.shown id hid (hnamed.subset hmem)
  rw [Names.number_stable hnamed hmem] at hu
  exact ⟨u, hu, fun k hk => hshown k (Nat.le_trans hk hm)⟩

theorem closed_close (h : Assigned g depth path named σ)
    (ht : t.ClosedIn fun v => ∃ id ∈ path, id ∈ named ∧ v = named.number id) :
    (t.close σ).Closed := by
  refine ht.close ?_
  rintro v ⟨id, hid, hmem, rfl⟩
  obtain ⟨u, hu, -⟩ := h.shown id hid hmem
  exact .inl ⟨u, hu, h.closed _ u hu⟩

/-- Below a node that has a variable, the term of the node stands for it. -/
theorem update {u : Term} (h : Assigned g depth path named σ) (hclosed : u.Closed)
    (hu : ∀ m ≤ depth, g.Displays m u id) :
    Assigned g depth (id :: path) named (Function.update σ (named.number id) (some u)) := by
  constructor
  · intro v u' hu'
    by_cases hv : v = named.number id
    · rw [hv, Function.update_self, Option.some.injEq] at hu'
      exact hu' ▸ hclosed
    · rw [Function.update_of_ne hv] at hu'
      exact h.closed v u' hu'
  · intro id' hid' hmem'
    by_cases heq : id' = id
    · rw [heq, Function.update_self]
      exact ⟨u, rfl, hu⟩
    · rw [Function.update_of_ne fun hnumber => heq ((Names.number_inj hmem').mp hnumber)]
      exact h.shown id' ((List.mem_cons.mp hid').resolve_left heq) hmem'

end Assigned

section Displays

variable {g : Graph} {depth : Nat} {σ : Variable → Option Term} {n : Node} {id : NodeId}

theorem displays_term {ts : List Term} (hn : g.node id = .ok n)
    (h : List.Forall₂ (fun t next => g.Displays depth (t.close σ) next) ts n.successors) :
    g.Displays (depth + 1) ((n.term ts).close σ) id := by
  cases n with
  | done => exact Graph.displays_done hn
  | message polarity participant payload next =>
    obtain ⟨t, ts, ht, hts, rfl⟩ := List.forall₂_cons_right_iff.mp h
    exact Graph.displays_message hn ht
  | choice polarity participant branches =>
    refine Graph.displays_choice hn ?_
    rw [Term.closeBranches_eq_map, List.forall₂_map_left_iff]
    clear hn
    rw [Node.successors] at h
    induction branches generalizing ts with
    | nil => exact .nil
    | cons b branches ih =>
      obtain ⟨t, ts, ht, hts, rfl⟩ := List.forall₂_cons_right_iff.mp h
      exact .cons ⟨rfl, ht⟩ (ih hts)

/-- The terms show what the nodes show. -/
theorem Spells.displays (depth : Nat) {path ids : List NodeId} {named named' : Names}
    {us : List Term} (h : Spells g path named ids us named')
    (hσ : Assigned g depth path named' σ) :
    List.Forall₂ (fun u id => g.Displays depth (u.close σ) id) us ids := by
  induction depth using Nat.strongRecOn generalizing path named ids us named' σ with
  | ind depth ih =>
    -- below an action the depth is smaller, and next to it the list is shorter
    induction h with
    | nil => exact .nil
    | @again path ids named named' id us hid hrest ihrest =>
      refine .cons ?_ (ihrest hσ)
      have hmem : id ∈ named' := hrest.isPrefix.subset Names.mem_note
      obtain ⟨u, hu, hshown⟩ := hσ.shown id hid hmem
      rw [Names.number_stable hrest.isPrefix Names.mem_note, Names.number_note] at hu
      rw [Term.close, hu]
      exact hshown depth (Nat.le_refl depth)
    | @node path ids named named₁ named' id n ts us hid hn hbelow hrest _ ihrest =>
      refine .cons ?_ (ihrest hσ)
      cases depth with
      | zero => exact Graph.displays_zero _
      | succ depth =>
        have hσ₁ := hσ.mono hrest.isPrefix (Nat.le_succ depth)
        have hnode : Spells g path named [id] [named₁.bind id (n.term ts)] named₁ :=
          .node hid hn hbelow .nil
        have hself : ∀ m ≤ depth, g.Displays m ((named₁.bind id (n.term ts)).close σ) id := by
          intro m hm
          have hlist := ih m (Nat.lt_succ_of_le hm) hnode (hσ₁.mono List.prefix_rfl hm)
          exact (List.forall₂_cons.mp hlist).1
        have hclosed := hσ₁.closed_close (hnode.closedIn _ List.mem_cons_self)
        unfold Names.bind at hself hclosed ⊢
        split
        · rename_i hmem
          rw [if_pos hmem] at hself hclosed
          rw [Graph.displays_congr fun head => Term.exposes_close_mu_iff hσ.closed]
          exact displays_term hn (ih depth (Nat.lt_succ_self depth) hbelow
            (hσ₁.update hclosed hself))
        · rename_i hmem
          refine displays_term hn (ih depth (Nat.lt_succ_self depth) hbelow
            ⟨hσ.closed, fun id' hid' hmem' => hσ₁.shown id' ?_ hmem'⟩)
          refine (List.mem_cons.mp hid').resolve_left ?_
          rintro rfl
          exact hmem hmem'

end Displays

end SessionGraph
