import Mathlib.Data.Finset.Card
import SessionGraph.Proofs.Families
import SessionGraph.Proofs.Treelike
import SessionGraph.Proofs.Writing

/-!
# A term read back from its text has the same graph

The graph of a term is a tree with edges back, and the edges back are the occurrences of variables
(`Term.treelike_of_layout`). So the writer meets each node once, in the order of the ids, and a node
is given a variable just when an occurrence leads back to it. Laying out the term that is written
goes through the same nodes again: a variable is in scope for each node on the path that will have
been given one when all below it is written, and stands for that node
(`Treelike.layoutBranches_of_spells`).
-/

namespace SessionGraph

namespace Term

mutual

/-- The nodes that the occurrences of variables stand for, in the order in which the term is read.
The actions are numbered from `next` on, and the variables of `waiting` are bound since the last. -/
def variableTargets (scope : Scope) (waiting : List Variable) (next : Nat) : Term → List NodeId
  | .done => []
  | .message _ _ _ body => body.variableTargets (scope.bind waiting next) [] (next + 1)
  | .choice _ _ branches => branchTargets (scope.bind waiting next) (next + 1) branches
  | .mu v body => body.variableTargets scope (v :: waiting) next
  | .var v => (scope.lookup v).toList

/-- The nodes that the occurrences of variables in the branches of a choice stand for. -/
def branchTargets (scope : Scope) (next : Nat) : List (Label × Term) → List NodeId
  | [] => []
  | (_, body) :: branches =>
    body.variableTargets scope [] next ++ branchTargets scope (next + body.actions) branches

end

section Layout

variable {scope : Scope} {path : List NodeId} {next : Nat}

theorem mem_of_lookup_bind {waiting : List Variable}
    (hscope : ∀ v id, scope.lookup v = some id → id ∈ path) {v : Variable} {id : NodeId}
    (h : (scope.bind waiting next).lookup v = some id) : id ∈ next :: path := by
  rw [Scope.lookup_bind] at h
  split at h
  · obtain rfl := Option.some.inj h
    exact List.mem_cons_self
  · exact List.mem_cons_of_mem _ (hscope v id h)

theorem treelike_of_layoutBranches {branches : List (Label × Term)}
    {targets : List (Label × NodeId)} {nodes : List Node}
    (hbody : ∀ b ∈ branches, ∀ {next id nodes}, b.2.layout scope [] next = .ok (id, nodes) →
      Treelike Eq path next [id] nodes (b.2.variableTargets scope [] next))
    (h : layoutBranches scope next branches = .ok (targets, nodes)) :
    Treelike Eq path next (targets.map Prod.snd) nodes (branchTargets scope next branches) := by
  induction branches generalizing next targets nodes with
  | nil =>
    cases h
    exact .nil
  | cons b branches ih =>
    obtain ⟨target, nodes₁, targets', nodes₂, hfirst, hrest, rfl, rfl⟩ :=
      layoutBranches_cons_eq_ok_iff.mp h
    obtain ⟨hb, hbranches⟩ := List.forall_mem_cons.mp hbody
    rw [branchTargets, ← length_of_layout b.2 hfirst]
    exact (hb hfirst).append (ih hbranches hrest)

/-- A term is laid out as a tree, with an edge back for each occurrence of a variable. -/
theorem treelike_of_layout (t : Term) {waiting : List Variable} {id : NodeId} {nodes : List Node}
    (hscope : ∀ v id, scope.lookup v = some id → id ∈ path)
    (h : t.layout scope waiting next = .ok (id, nodes)) :
    Treelike Eq path next [id] nodes (t.variableTargets scope waiting next) := by
  induction t using inductionOn generalizing scope path waiting next id nodes with
  | done =>
    obtain ⟨-, rfl, rfl⟩ := layout_done_eq_ok_iff.mp h
    exact .single rfl .nil
  | message polarity participant payload body ih =>
    obtain ⟨target, nodes', -, rfl, hbody, rfl⟩ := layout_message_eq_ok_iff.mp h
    exact .single rfl (ih (fun _ _ => mem_of_lookup_bind hscope) hbody)
  | choice polarity participant branches ih =>
    obtain ⟨targets, nodes', -, -, rfl, hbody, rfl⟩ := layout_choice_eq_ok_iff.mp h
    exact .single rfl (treelike_of_layoutBranches
      (fun b hb {_ _ _} => ih b hb fun _ _ => mem_of_lookup_bind hscope) hbody)
  | mu v body ih => exact ih hscope h
  | var v =>
    obtain ⟨-, hv, rfl⟩ := layout_var_eq_ok_iff.mp h
    rw [variableTargets, hv]
    exact .back (hscope v id hv) .nil

end Layout

end Term

/-! ## Laying out what is spelled -/

section Spelled

variable {g : Graph} {scope : Scope} {path : List NodeId} {next : Nat} {named named' : Names}

theorem Names.layout_bind {id : NodeId} {t : Term} : (named.bind id t).layout scope [] next =
    t.layout scope (if id ∈ named then [named.number id] else []) next := by
  unfold bind
  split
  · rw [Term.layout]
  · rfl

/-- The action of a node is laid out as the node, if what follows is. -/
theorem Node.layout_term {n : Node} {ts : List Term} {waiting : List Variable} {below : List Node}
    (hlimit : next < NodeId.limit) (hn : n.Sorted) (hlength : ts.length = n.successors.length)
    (h : ∀ labels : List Label, labels.length = n.successors.length →
      Term.layoutBranches (scope.bind waiting next) (next + 1) (labels.zip ts) =
        .ok (labels.zip n.successors, below)) :
    (n.term ts).layout scope waiting next = .ok (next, n :: below) := by
  cases n with
  | done =>
    obtain ⟨-, rfl⟩ := Prod.mk.inj (Except.ok.inj (h [] rfl))
    exact Term.layout_done_eq_ok_iff.mpr ⟨hlimit, rfl, rfl⟩
  | message polarity participant payload target =>
    obtain ⟨t, rfl⟩ := List.length_eq_one_iff.mp hlength
    obtain ⟨target', nodes₁, targets, nodes₂, hbody, hnil, htargets, rfl⟩ :=
      Term.layoutBranches_cons_eq_ok_iff.mp (h [0] rfl)
    cases hnil
    obtain rfl : target = target' := by simpa [Node.successors] using htargets
    exact Term.layout_message_eq_ok_iff.mpr
      ⟨target, _, hlimit, rfl, hbody, by rw [List.append_nil]⟩
  | choice polarity participant branches =>
    have hbranches := h (branches.map Prod.fst) (by simp [Node.successors])
    have hself : (branches.map Prod.fst).zip (branches.map Prod.snd) = branches := by
      rw [List.zip_map', List.map_id']
    rw [Node.successors, hself] at hbranches
    refine Term.layout_choice_eq_ok_iff.mpr ⟨branches, below, ?_, hlimit, rfl, hbranches, rfl⟩
    rw [Node.successors, List.length_map] at hlength
    rw [List.map_fst_zip (by simp [hlength])]
    exact hn

/-- Below a node that is on the path now, the variables of the nodes on the path that will have one
stand for these nodes, if this was so for the path above it. -/
theorem Names.lookup_bind {named₁ : Names} (hpath : ∀ id ∈ path, id < next)
    (hscope : ∀ id ∈ path, id ∈ named' → scope.lookup (named'.number id) = some id)
    (hnamed : named₁ <+: named') : ∀ id ∈ next :: path, id ∈ named₁ →
      (scope.bind (if next ∈ named₁ then [named₁.number next] else []) next).lookup
        (named₁.number id) = some id := by
  intro id hid hmem
  rw [Scope.lookup_bind]
  rcases List.mem_cons.mp hid with rfl | hid
  · rw [if_pos hmem, if_pos (List.mem_singleton_self _)]
  · have hne : id ≠ next := Nat.ne_of_lt (hpath id hid)
    have hother : named₁.number id ∉ if next ∈ named₁ then [named₁.number next] else [] := by
      split
      · rwa [List.mem_singleton, number_inj hmem]
      · exact List.not_mem_nil
    rw [if_neg hother, ← number_stable hnamed hmem]
    exact hscope id hid (hnamed.subset hmem)

/-- What is spelled for a tree with edges back is laid out as the tree, and only nodes that are led
back to are given variables. -/
theorem Treelike.layoutBranches_of_spells {ids backs : List NodeId} {nodes : List Node}
    {us : List Term} (h : Treelike Eq path next ids nodes backs) (hg : g.Holds next nodes)
    (hsorted : ∀ n ∈ nodes, n.Sorted) (hlimit : next + nodes.length ≤ NodeId.limit)
    (hpath : ∀ id ∈ path, id < next) (hspells : Spells g path named ids us named') :
    (∀ id ∈ named', id ∈ named ∨ id ∈ backs) ∧
    ∀ {scope : Scope} {labels : List Label}, labels.length = ids.length →
      (∀ id ∈ path, id ∈ named' → scope.lookup (named'.number id) = some id) →
      Term.layoutBranches scope next (labels.zip us) = .ok (labels.zip ids, nodes) := by
  induction h generalizing named us named' with
  | nil =>
    cases hspells
    refine ⟨fun id hid => .inl hid, fun _ _ => ?_⟩
    rw [List.zip_nil_right, List.zip_nil_right, Term.layoutBranches]
  | @back path ids backs next id nodes hid hrest ih =>
    cases hspells with
    | node hnew => exact absurd hid hnew
    | @again _ _ _ _ _ us _ hspells =>
      obtain ⟨hnamed, hlayout⟩ := ih hg hsorted hlimit hpath hspells
      constructor
      · intro id' hid'
        rcases hnamed id' hid' with hmem | hmem
        · rcases Names.mem_note_iff.mp hmem with rfl | hmem
          · exact .inr List.mem_cons_self
          · exact .inl hmem
        · exact .inr (List.mem_cons_of_mem _ hmem)
      · intro scope labels hlength hscope
        obtain ⟨label, labels, rfl⟩ := List.exists_cons_of_length_eq_add_one hlength
        have hlookup := hscope id hid (hspells.isPrefix.subset Names.mem_note)
        rw [Names.number_stable hspells.isPrefix Names.mem_note, Names.number_note] at hlookup
        refine Term.layoutBranches_cons_eq_ok_iff.mpr ⟨id, [], _, nodes,
          Term.layout_var_eq_ok_iff.mpr ⟨List.not_mem_nil, hlookup, rfl⟩,
          hlayout (Nat.succ.inj hlength) hscope, rfl, rfl⟩
  | @node path ids starts backs backs' next n below rest harrange hbelow hrest ihbelow ihrest =>
    subst harrange
    cases hspells with
    | again hmem => exact absurd (hpath _ hmem) (Nat.lt_irrefl _)
    | @node _ _ _ named₁ _ _ n' ts us _ hn' hspells₁ hspells₂ =>
      obtain ⟨hn, hg⟩ := hg
      obtain rfl : n = n' := by rwa [hn, Except.ok.injEq] at hn'
      obtain ⟨hg₁, hg₂⟩ := Graph.holds_append.mp hg
      obtain ⟨hsorted, hsorted'⟩ := List.forall_mem_cons.mp hsorted
      rw [List.forall_mem_append] at hsorted'
      rw [List.length_cons, List.length_append] at hlimit
      obtain ⟨hnamed₁, hlayout₁⟩ :=
        ihbelow hg₁ hsorted'.1 (by omega) (lt_below hpath) hspells₁
      obtain ⟨hnamed₂, hlayout₂⟩ :=
        ihrest hg₂ hsorted'.2 (by omega) (lt_rest hpath _) hspells₂
      constructor
      · intro id hid
        rcases hnamed₂ id hid with hmem | hmem
        · exact (hnamed₁ id hmem).imp_right (List.mem_append_left _)
        · exact .inr (List.mem_append_right _ hmem)
      · intro scope labels hlength hscope
        obtain ⟨label, labels, rfl⟩ := List.exists_cons_of_length_eq_add_one hlength
        have hfirst : (named₁.bind next (n.term ts)).layout scope [] next =
            .ok (next, n :: below) := by
          rw [Names.layout_bind]
          refine Node.layout_term (by omega) hsorted hspells₁.length_eq fun labels hlabels => ?_
          exact hlayout₁ hlabels (Names.lookup_bind hpath hscope hspells₂.isPrefix)
        have hnext : next + (n :: below).length = next + 1 + below.length := by
          rw [List.length_cons]
          omega
        exact Term.layoutBranches_cons_eq_ok_iff.mpr ⟨next, n :: below, _, rest, hfirst,
          hnext ▸ hlayout₂ (Nat.succ.inj hlength) hscope, rfl, rfl⟩

theorem Names.nodup_note {id : NodeId} (h : named.Nodup) : (named.note id).Nodup := by
  unfold note
  split
  · exact h
  · rename_i hid
    rw [← List.concat_eq_append]
    exact h.concat hid

theorem Spells.nodup {ids : List NodeId} {us : List Term} (h : Spells g path named ids us named')
    (hnamed : named.Nodup) : named'.Nodup := by
  induction h with
  | nil => exact hnamed
  | again _ _ ih => exact ih (Names.nodup_note hnamed)
  | node _ _ _ _ ihbelow ihrest => exact ihrest (ihbelow hnamed)

end Spelled

namespace Term

/-- The text of the graph of a term is that of a term with the same graph. If variables stand for no
more nodes than there are letters, the variables of that term are those with letters of their
own. -/
theorem toGraph_of_text {t : Term} {g : Graph} (h : t.toGraph = .ok g) :
    ∃ t' : Term, g.text = .ok t'.text ∧ t'.toGraph = .ok g ∧
      ((t.variableTargets [] [] 0).toFinset.card ≤ 26 → t'.Everywhere (VariableBelow 26)) := by
  have hg := wellFormed_toGraph h
  obtain ⟨root, nodes, hlayout, rfl⟩ := toGraph_eq_ok_iff.mp h
  have htree : Treelike Eq [] 0 [root] nodes (t.variableTargets [] [] 0) :=
    t.treelike_of_layout (fun _ _ h => by cases h) hlayout
  have hlimit := t.le_limit_of_layout (Nat.zero_le _) hlayout
  obtain ⟨w, t', named, hwrite, htext, -, hspells⟩ :=
    Graph.exists_write hg.inBounds.traversable (.root rfl)
  obtain ⟨hnamed, hlayout'⟩ := htree.layoutBranches_of_spells (Graph.holds_toArray [] nodes _)
    (fun n hn => (hg.nodes n hn).1) hlimit nofun hspells
  refine ⟨t', htext ▸ Graph.text_of_write rfl hwrite, ?_, fun hletters => ?_⟩
  · have hsingle : layoutBranches [] 0 ([0].zip [t']) = .ok ([0].zip [root], nodes) :=
      hlayout' rfl nofun
    obtain ⟨target, nodes₁, targets, nodes₂, hbody, hnil, htargets, rfl⟩ :=
      layoutBranches_cons_eq_ok_iff.mp hsingle
    cases hnil
    obtain rfl : root = target := by simpa using htargets
    rw [List.append_nil]
    exact toGraph_eq_ok_iff.mpr ⟨root, nodes₁, hbody, rfl⟩
  · have hsubset : named.toFinset ⊆ (t.variableTargets [] [] 0).toFinset := by
      intro id hid
      rw [List.mem_toFinset] at hid ⊢
      exact (hnamed id hid).resolve_left List.not_mem_nil
    have hlength : named.length ≤ 26 := by
      rw [← List.toFinset_card_of_nodup (hspells.nodup List.nodup_nil)]
      exact Nat.le_trans (Finset.card_le_card hsubset) hletters
    exact (hspells.variablesBelow t' List.mem_cons_self).mono fun u => .mono hlength

/-- A binder for a node that is not met again, two in a row for one that is, and one that hides
another. -/
theorem toGraph_of_text_hidden :
    let t : Term := .mu 7 (.message .output 1 .nat (.mu 3 (.mu 7 (.choice .input 2
      [(0, .var 7), (4, .mu 9 (.message .input 0 .bool (.mu 7 (.choice .output 1
        [(1, .var 3), (2, .var 7), (8, .done)]))))]))))
    let g : Graph := ⟨#[.message .output 1 .nat 1, .choice .input 2 [(0, 1), (4, 2)],
      .message .input 0 .bool 3, .choice .output 1 [(1, 1), (2, 3), (8, 4)], .done], some 0⟩
    t.toGraph = .ok g ∧ (t.variableTargets [] [] 0).toFinset.card = 2 ∧
    g.text = .ok ("p1![Nat];μX.p2&\x7bl0: X, l4: p0?[Bool];" ++
      "μY.p1⊕\x7bl1: X, l2: Y, l8: end\x7d\x7d") ∧
    ∃ t' : Term, g.text = .ok t'.text ∧ t'.toGraph = .ok g ∧ t'.Everywhere (VariableBelow 26) := by
  intro t g
  have h : t.toGraph = .ok g := rfl
  have hcard : (t.variableTargets [] [] 0).toFinset.card = 2 := by decide
  obtain ⟨t', htext, hgraph, hletters⟩ := toGraph_of_text h
  exact ⟨h, hcard, by decide +kernel, t', htext, hgraph, hletters (by rw [hcard]; decide)⟩

end Term

end SessionGraph
