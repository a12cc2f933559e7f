import Mathlib.Logic.Function.Basic
import SessionGraph.Proofs.Tree

/-!
# Closing a term

A subterm of a closed term has variables that are bound around it. `Term.close` puts closed terms
for all of them at once. Unfolding a `mu` below such a closing is closing its body with one more
term, the `mu` itself (`Term.replace_close`), so a term never has to be unfolded to see what it
exposes.
-/

namespace SessionGraph.Term

mutual

/-- The free variables of the term are in `B`. -/
def ClosedIn (B : Variable → Prop) : Term → Prop
  | .done => True
  | .message _ _ _ next => next.ClosedIn B
  | .choice _ _ branches => BranchesClosedIn B branches
  | .mu v body => body.ClosedIn fun w => w = v ∨ B w
  | .var v => B v

/-- The free variables of the branches are in `B`. -/
def BranchesClosedIn (B : Variable → Prop) : List (Label × Term) → Prop
  | [] => True
  | (_, body) :: branches => body.ClosedIn B ∧ BranchesClosedIn B branches

end

/-- The term has no free variables. -/
def Closed (t : Term) : Prop := t.ClosedIn fun _ => False

mutual

/-- The term with the terms of `σ` for the free variables that have one. -/
def close (σ : Variable → Option Term) : Term → Term
  | .done => .done
  | .message polarity participant payload next =>
    .message polarity participant payload (next.close σ)
  | .choice polarity participant branches =>
    .choice polarity participant (closeBranches σ branches)
  | .mu v body => .mu v (body.close (Function.update σ v none))
  | .var v => (σ v).getD (.var v)

/-- The branches of a choice with the terms of `σ` for the free variables that have one. -/
def closeBranches (σ : Variable → Option Term) : List (Label × Term) → List (Label × Term)
  | [] => []
  | (label, body) :: branches => (label, body.close σ) :: closeBranches σ branches

end

section Branches

variable {branches : List (Label × Term)}

theorem branchesClosedIn_iff {B : Variable → Prop} :
    BranchesClosedIn B branches ↔ ∀ b ∈ branches, b.2.ClosedIn B := by
  induction branches with
  | nil => simp [BranchesClosedIn]
  | cons b branches ih => rw [BranchesClosedIn, ih, List.forall_mem_cons]

theorem closeBranches_eq_map {σ : Variable → Option Term} :
    closeBranches σ branches = branches.map fun b => (b.1, b.2.close σ) := by
  induction branches with
  | nil => rfl
  | cons b branches ih => rw [closeBranches, ih, List.map_cons]

end Branches

theorem ClosedIn.mono {t : Term} {B B' : Variable → Prop} (h : t.ClosedIn B)
    (hB : ∀ v, B v → B' v) : t.ClosedIn B' := by
  induction t using inductionOn generalizing B B' with
  | done => trivial
  | message _ _ _ next ih => exact ih h hB
  | choice _ _ branches ih =>
    rw [ClosedIn, branchesClosedIn_iff] at h ⊢
    exact fun b hb => ih b hb (h b hb) hB
  | mu v body ih => exact ih h fun w => Or.imp_right (hB w)
  | var v => exact hB v h

theorem replace_of_closedIn {t : Term} {B : Variable → Prop} {v : Variable} {u : Term}
    (h : t.ClosedIn B) (hv : ¬ B v) : replace v u t = t := by
  induction t using inductionOn generalizing B with
  | done => rfl
  | message _ _ _ next ih => rw [replace, ih h hv]
  | choice _ _ branches ih =>
    rw [ClosedIn, branchesClosedIn_iff] at h
    rw [replace, replaceBranches_eq_map,
      List.map_congr_left fun b hb => by rw [ih b hb (h b hb) hv], List.map_id']
  | mu w body ih =>
    rw [replace]
    split
    · rfl
    · rename_i hw
      rw [ih h (not_or.mpr ⟨Ne.symm hw, hv⟩)]
  | var w =>
    rw [replace, if_neg]
    rintro rfl
    exact hv h

theorem Closed.replace {t u : Term} (h : t.Closed) (v : Variable) : replace v u t = t :=
  replace_of_closedIn h not_false

/-- Putting closed terms for free variables leaves those free that have none. -/
theorem ClosedIn.close {t : Term} {B B' : Variable → Prop} {σ : Variable → Option Term}
    (h : t.ClosedIn B)
    (hσ : ∀ v, B v → (∃ u, σ v = some u ∧ u.Closed) ∨ (σ v = none ∧ B' v)) :
    (t.close σ).ClosedIn B' := by
  induction t using inductionOn generalizing B B' σ with
  | done => trivial
  | message _ _ _ next ih => exact ih h hσ
  | choice _ _ branches ih =>
    rw [ClosedIn, branchesClosedIn_iff] at h
    rw [Term.close, ClosedIn, branchesClosedIn_iff, closeBranches_eq_map, List.forall_mem_map]
    exact fun b hb => ih b hb (h b hb) hσ
  | mu v body ih =>
    refine ih h fun w hw => ?_
    by_cases hwv : w = v
    · subst hwv
      exact .inr ⟨Function.update_self .., .inl rfl⟩
    · rw [Function.update_of_ne hwv]
      exact (hσ w (hw.resolve_left hwv)).imp_right fun h => ⟨h.1, .inr h.2⟩
  | var v =>
    rcases hσ v h with ⟨u, hu, hclosed⟩ | ⟨hnone, hv⟩
    · rw [Term.close, hu]
      exact hclosed.mono fun _ => False.elim
    · rw [Term.close, hnone]
      exact hv

/-- Replacing one more variable after closing is closing with one more term. -/
theorem replace_close (t : Term) {σ : Variable → Option Term}
    (hσ : ∀ w s, σ w = some s → s.Closed) {v : Variable} {u : Term} :
    replace v u (t.close (Function.update σ v none)) = t.close (Function.update σ v (some u)) := by
  induction t using inductionOn generalizing σ with
  | done => rfl
  | message _ _ _ next ih => rw [close, replace, ih hσ, close]
  | choice _ _ branches ih =>
    simp only [close, replace, replaceBranches_eq_map, closeBranches_eq_map, List.map_map]
    rw [List.map_congr_left fun b hb => by rw [Function.comp_apply, ih b hb hσ]]
  | mu w body ih =>
    rw [close, close, replace]
    split
    · rename_i hw
      rw [hw, Function.update_idem, Function.update_idem]
    · rename_i hw
      have hσ' : ∀ w' s, Function.update σ w none w' = some s → s.Closed := by
        intro w' s hs
        by_cases hw' : w' = w
        · rw [hw', Function.update_self] at hs
          cases hs
        · rw [Function.update_of_ne hw'] at hs
          exact hσ w' s hs
      rw [Function.update_comm (Ne.symm hw), ih hσ', Function.update_comm (Ne.symm hw)]
  | var w =>
    by_cases hw : w = v
    · subst hw
      simp [close, replace]
    · simp only [close, Function.update_of_ne hw]
      rcases hs : σ w with _ | s
      · simp [replace, hw]
      · exact (hσ w s hs).replace v

theorem close_none (t : Term) : t.close (fun _ => none) = t := by
  induction t using inductionOn with
  | done => rfl
  | message _ _ _ next ih => rw [close, ih]
  | choice _ _ branches ih =>
    rw [close, closeBranches_eq_map, List.map_congr_left fun b hb => by rw [ih b hb], List.map_id']
  | mu v body ih =>
    have hnone : Function.update (fun _ => none) v none =
        (fun _ => none : Variable → Option Term) := Function.update_eq_self v _
    rw [close, hnone, ih]
  | var _ => rfl

/-- A closed `mu` exposes what its body exposes when it is closed with the `mu` for its variable. -/
theorem exposes_close_mu_iff {σ : Variable → Option Term} (hσ : ∀ w s, σ w = some s → s.Closed)
    {v : Variable} {body head : Term} :
    ((mu v body).close σ).Exposes head ↔
      (body.close (Function.update σ v (some ((mu v body).close σ)))).Exposes head := by
  rw [← replace_close body hσ]
  exact exposes_mu_iff

end SessionGraph.Term
