import Mathlib.Data.List.Forall2
import SessionGraph.Graph
import SessionGraph.Term

/-!
# Trees

A session type stands for a tree of actions that may be infinite. `Tree` is such a tree cut off at
some depth, so two types stand for the same tree when they agree at every depth.

The tree of a graph is read off by following its edges (`Graph.tree`). That of a term is read off
its first action (`Term.Shows`), which is found by replacing `mu v body` with `body` in which the
whole stands for `v` until no `mu` is in front (`Term.Exposes`). A term may have no first action, as
`mu v (var v)`, and then shows no tree beyond the depth 0.
-/

namespace SessionGraph

/-- A tree of actions that is cut off at some depth. -/
inductive Tree where
  | cut
  | done
  | message (polarity : Polarity) (participant : Participant) (payload : Payload) (next : Tree)
  | choice (polarity : Polarity) (participant : Participant) (branches : List (Label × Tree))

/-- What a graph shows from a node on, up to a depth. -/
def Graph.tree (g : Graph) : (depth : Nat) → NodeId → Except Fault Tree
  | 0, _ => .ok .cut
  | depth + 1, id => do
    match ← g.node id with
    | .done => return .done
    | .message polarity participant payload next =>
      return .message polarity participant payload (← g.tree depth next)
    | .choice polarity participant branches =>
      let trees ← branches.mapM fun branch => return (branch.1, ← g.tree depth branch.2)
      return .choice polarity participant trees

namespace Term

/-- What holds of a term if it holds of the terms that follow in it holds of all terms. -/
@[elab_as_elim]
theorem inductionOn {P : Term → Prop} (t : Term) (done : P .done)
    (message : ∀ polarity participant payload next, P next →
      P (.message polarity participant payload next))
    (choice : ∀ polarity participant branches, (∀ b ∈ branches, P b.2) →
      P (.choice polarity participant branches))
    (mu : ∀ v body, P body → P (.mu v body)) (var : ∀ v, P (.var v)) : P t :=
  match t with
  | .done => done
  | .message polarity participant payload next =>
    message polarity participant payload next (inductionOn next done message choice mu var)
  | .choice polarity participant branches =>
    choice polarity participant branches fun b _ => inductionOn b.2 done message choice mu var
  | .mu v body => mu v body (inductionOn body done message choice mu var)
  | .var v => var v
termination_by t
decreasing_by
  · decreasing_tactic
  · rename_i hb
    have hsize := List.sizeOf_lt_of_mem hb
    obtain ⟨label, body⟩ := b
    simp only [Prod.mk.sizeOf_spec, Term.choice.sizeOf_spec] at hsize ⊢
    omega
  · decreasing_tactic

mutual

/-- The term with `u` for the free occurrences of `v`. The variables of `u` are not protected from
the binders around these, so `u` is to be closed. -/
def replace (v : Variable) (u : Term) : Term → Term
  | .done => .done
  | .message polarity participant payload next =>
    .message polarity participant payload (replace v u next)
  | .choice polarity participant branches =>
    .choice polarity participant (replaceBranches v u branches)
  | .mu w body => if w = v then .mu w body else .mu w (replace v u body)
  | .var w => if w = v then u else .var w

/-- The branches of a choice with `u` for the free occurrences of `v`. -/
def replaceBranches (v : Variable) (u : Term) : List (Label × Term) → List (Label × Term)
  | [] => []
  | (label, body) :: branches => (label, replace v u body) :: replaceBranches v u branches

end

theorem replaceBranches_eq_map (v : Variable) (u : Term) (branches : List (Label × Term)) :
    replaceBranches v u branches = branches.map fun b => (b.1, replace v u b.2) := by
  induction branches with
  | nil => rfl
  | cons b branches ih => rw [replaceBranches, ih, List.map_cons]

/-- `t.Exposes head` says that `head` is the first action of `t`, with what follows it. -/
inductive Exposes : Term → Term → Prop
  | done : Exposes .done .done
  | message {polarity : Polarity} {participant : Participant} {payload : Payload} {next : Term} :
      Exposes (.message polarity participant payload next)
        (.message polarity participant payload next)
  | choice {polarity : Polarity} {participant : Participant} {branches : List (Label × Term)} :
      Exposes (.choice polarity participant branches) (.choice polarity participant branches)
  | mu {v : Variable} {body head : Term} (h : Exposes (replace v (.mu v body) body) head) :
      Exposes (.mu v body) head

/-- `t.Shows depth tree` says that `tree` is what `t` shows up to a depth. -/
def Shows : (depth : Nat) → Term → Tree → Prop
  | 0, _, tree => tree = .cut
  | depth + 1, t, tree => ∃ head, t.Exposes head ∧
    match head with
    | .done => tree = .done
    | .message polarity participant payload next =>
      ∃ tree', Shows depth next tree' ∧ tree = .message polarity participant payload tree'
    | .choice polarity participant branches =>
      ∃ trees, List.Forall₂ (fun b b' => b.1 = b'.1 ∧ Shows depth b.2 b'.2) branches trees ∧
        tree = .choice polarity participant trees
    | _ => False

theorem exposes_mu_iff {v : Variable} {body head : Term} :
    (mu v body).Exposes head ↔ (replace v (.mu v body) body).Exposes head :=
  ⟨fun h => by cases h; assumption, .mu⟩

/-- Terms with the same first action show the same trees. -/
theorem shows_congr {t t' : Term} (h : ∀ head, t.Exposes head ↔ t'.Exposes head) (depth : Nat)
    (tree : Tree) : t.Shows depth tree ↔ t'.Shows depth tree := by
  cases depth with
  | zero => rfl
  | succ depth => simp only [Shows, h]

end Term

end SessionGraph
