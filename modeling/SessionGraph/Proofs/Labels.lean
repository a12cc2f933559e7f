import Mathlib.Data.List.Forall2
import SessionGraph.Subtype.Demand
import SessionGraph.Term.Translate

/-!
# Matching labels is looking them up

When the labels of both sides ascend, one pass over both (`matchLabels`) finds what looking up each
needed label on its own finds (`matchLabels_eq_lookupLabels`): an entry that the pass has skipped
has a label below all that are still needed. Which of the two sides of a choice is the needed one
depends on its polarity, and the pairs found are turned accordingly
(`Polarity.matchBranches_eq_lookup`).
-/

namespace SessionGraph

/-- The continuations of the needed labels that come before the first one not on offer, each found
on its own, and whether all are on offer. -/
def lookupLabels : (needed offered : List (Label × NodeId)) → List NodePair × Bool
  | [], _ => ([], true)
  | (label, need) :: needed, offered =>
    match offered.lookup label with
    | some offer =>
      let (found, complete) := lookupLabels needed offered
      ((need, offer) :: found, complete)
    | none => ([], false)

section Lookup

variable {branches : List (Label × NodeId)} {label : Label} {next : NodeId}

/-- Entries below a label are not in the way of looking up that label or a later one. -/
theorem lookup_dropWhile_lt {k : Label} (h : label ≤ k) :
    (branches.dropWhile (·.1 < label)).lookup k = branches.lookup k := by
  induction branches with
  | nil => rfl
  | cons first branches ih =>
    by_cases hlt : first.1 < label
    · have hne : (k == first.1) = false :=
        beq_eq_false_iff_ne.mpr (Nat.ne_of_gt (Nat.lt_of_lt_of_le hlt h))
      rw [List.dropWhile_cons_of_pos (by simpa using hlt), ih, List.lookup_cons, hne]
    · rw [List.dropWhile_cons_of_neg (by simpa using hlt)]

theorem exists_lookup_iff :
    (∃ next, branches.lookup label = some next) ↔ label ∈ branches.map Prod.fst := by
  rw [← Option.isSome_iff_exists, List.lookup_isSome_iff, List.mem_map]
  simp only [beq_iff_eq, @eq_comm _ label]

theorem lookup_eq_none_of_forall_lt (h : ∀ b ∈ branches, label < b.1) :
    branches.lookup label = none := by
  rw [List.lookup_eq_none_iff]
  intro b hb
  exact bne_iff_ne.mpr (Nat.ne_of_lt (h b hb))

/-- Labels that ascend are distinct, so looking one up finds every entry. -/
theorem lookup_eq_some_iff_mem (hb : Ascending (branches.map Prod.fst)) :
    branches.lookup label = some next ↔ (label, next) ∈ branches := by
  rw [List.lookup_eq_some_iff]
  constructor
  · rintro ⟨before, after, rfl, -⟩
    simp
  · intro hmem
    obtain ⟨before, after, rfl⟩ := List.append_of_mem hmem
    refine ⟨before, after, rfl, fun b hb' => ?_⟩
    unfold Ascending at hb
    rw [List.map_append, List.pairwise_append] at hb
    have hlt := hb.2.2 b.1 (List.mem_map_of_mem hb') label (by simp)
    exact bne_iff_ne.mpr (Nat.ne_of_gt hlt)

end Lookup

section Match

variable {needed offered : List (Label × NodeId)}

theorem lookupLabels_congr {offered' : List (Label × NodeId)}
    (h : ∀ b ∈ needed, offered.lookup b.1 = offered'.lookup b.1) :
    lookupLabels needed offered = lookupLabels needed offered' := by
  induction needed with
  | nil => rfl
  | cons first needed ih =>
    simp only [lookupLabels, h first List.mem_cons_self,
      ih fun b hb => h b (List.mem_cons_of_mem _ hb)]

theorem matchLabels_eq_lookupLabels (hn : Ascending (needed.map Prod.fst))
    (ho : Ascending (offered.map Prod.fst)) :
    matchLabels needed offered = lookupLabels needed offered := by
  induction needed generalizing offered with
  | nil => rfl
  | cons first needed ih =>
    obtain ⟨label, need⟩ := first
    unfold Ascending at hn
    rw [List.map_cons, List.pairwise_cons] at hn
    have hdrop : Ascending ((offered.dropWhile (·.1 < label)).map Prod.fst) :=
      List.Pairwise.sublist ((List.dropWhile_sublist _).map _) ho
    have hlookup {k : Label} (hk : label ≤ k) :
        (offered.dropWhile (·.1 < label)).lookup k = offered.lookup k := lookup_dropWhile_lt hk
    simp only [matchLabels, lookupLabels]
    rcases hrest : offered.dropWhile (·.1 < label) with _ | ⟨⟨label', offer⟩, offered'⟩
    · have hnone : offered.lookup label = none := by rw [← hlookup (Nat.le_refl _), hrest]; rfl
      simp only [hrest, hnone]
    · rw [hrest] at hdrop hlookup
      unfold Ascending at hdrop
      rw [List.map_cons, List.pairwise_cons] at hdrop
      have hge : ¬ label' < label := by
        have := List.head_dropWhile_not (fun b : Label × NodeId => decide (b.1 < label))
          (l := offered) (by simp [hrest])
        simpa [hrest] using this
      by_cases heq : label' = label
      · subst heq
        have hsome : offered.lookup label' = some offer := by rw [← hlookup (Nat.le_refl _)]; simp
        -- what was skipped, and the entry just found, are below every label still needed
        have hcongr : lookupLabels needed offered' = lookupLabels needed offered := by
          refine lookupLabels_congr fun b hb => ?_
          have hlt := hn.1 b.1 (List.mem_map_of_mem hb)
          have hne : (b.1 == label') = false := beq_eq_false_iff_ne.mpr (Nat.ne_of_gt hlt)
          rw [← hlookup (Nat.le_of_lt hlt), List.lookup_cons, hne]
        simp only [hrest, hsome, if_true, ih hn.2 hdrop.2, hcongr]
      · have hlt : label < label' := Nat.lt_of_le_of_ne (Nat.le_of_not_lt hge) (Ne.symm heq)
        have hnone : offered.lookup label = none := by
          rw [← hlookup (Nat.le_refl _)]
          refine lookup_eq_none_of_forall_lt fun b hb => ?_
          rcases List.mem_cons.mp hb with rfl | hb
          · exact hlt
          · exact Nat.lt_trans hlt (hdrop.1 b.1 (List.mem_map_of_mem hb))
        simp only [hrest, hnone, if_neg heq]

theorem lookupLabels_related_iff {R : NodePair → Prop} :
    ((lookupLabels needed offered).2 = true ∧ ∀ p ∈ (lookupLabels needed offered).1, R p) ↔
      ∀ b ∈ needed, ∃ offer, offered.lookup b.1 = some offer ∧ R (b.2, offer) := by
  induction needed with
  | nil => simp [lookupLabels]
  | cons first needed ih =>
    rw [List.forall_mem_cons, ← ih]
    rcases hlookup : offered.lookup first.1 with _ | offer
    · simp [lookupLabels, hlookup]
    · simp only [lookupLabels, hlookup, List.forall_mem_cons, Option.some.injEq, exists_eq_left',
        and_left_comm]

/-- Whether labels ascend or not, each needed label is on offer if the match is complete. -/
theorem exists_of_matchLabels {R : NodePair → Prop}
    (hcomplete : (matchLabels needed offered).2 = true)
    (hR : ∀ p ∈ (matchLabels needed offered).1, R p) :
    ∀ b ∈ needed, ∃ offer, (b.1, offer) ∈ offered ∧ R (b.2, offer) := by
  induction needed generalizing offered with
  | nil => exact fun _ h => absurd h List.not_mem_nil
  | cons first needed ih =>
    obtain ⟨label, need⟩ := first
    simp only [matchLabels] at hcomplete hR
    split at hcomplete
    · rename_i label' offer offered' hdrop
      have hsub : (label', offer) :: offered' ⊆ offered :=
        hdrop ▸ (List.dropWhile_sublist _).subset
      rw [List.cons_subset] at hsub
      simp only [hdrop] at hR
      split at hcomplete
      · rename_i heq
        subst heq
        rw [if_pos rfl, List.forall_mem_cons] at hR
        refine List.forall_mem_cons.mpr ⟨⟨offer, hsub.1, hR.1⟩, fun b hb => ?_⟩
        obtain ⟨offer', hmem, hoffer'⟩ := ih hcomplete hR.2 b hb
        exact ⟨offer', hsub.2 hmem, hoffer'⟩
      · cases hcomplete
    · cases hcomplete

/-- All needed labels are found with related continuations just when each of them is on offer with
a related continuation. -/
theorem matchLabels_related_iff {R : NodePair → Prop} (hn : Ascending (needed.map Prod.fst))
    (ho : Ascending (offered.map Prod.fst)) :
    ((matchLabels needed offered).2 = true ∧ ∀ p ∈ (matchLabels needed offered).1, R p) ↔
      ∀ b ∈ needed, ∃ offer, (b.1, offer) ∈ offered ∧ R (b.2, offer) := by
  rw [matchLabels_eq_lookupLabels hn ho, lookupLabels_related_iff]
  simp only [lookup_eq_some_iff_mem ho]

theorem lookupLabels_complete_iff : (lookupLabels needed offered).2 = true ↔
    ∀ label ∈ needed.map Prod.fst, label ∈ offered.map Prod.fst := by
  have hiff : ((lookupLabels needed offered).2 = true ∧ ∀ p ∈ _, True) ↔ _ :=
    lookupLabels_related_iff
  simp only [implies_true, and_true] at hiff
  rw [hiff, List.forall_mem_map]
  simp only [exists_lookup_iff]

/-- The pairs found belong to the labels before the first that is missing, one pair to each. -/
theorem forall₂_lookupLabels (needed offered : List (Label × NodeId)) :
    List.Forall₂ (fun label p => (label, p.1) ∈ needed ∧ offered.lookup label = some p.2)
      ((needed.map Prod.fst).takeWhile (· ∈ offered.map Prod.fst))
      (lookupLabels needed offered).1 := by
  induction needed with
  | nil => exact .nil
  | cons first needed ih =>
    obtain ⟨label, need⟩ := first
    rcases hlookup : offered.lookup label with _ | offer
    · have hmissing : label ∉ offered.map Prod.fst := by
        rw [← exists_lookup_iff, hlookup]
        simp
      rw [List.map_cons, List.takeWhile_cons_of_neg (by simpa using hmissing)]
      simp only [lookupLabels, hlookup]
      exact .nil
    · have hfound : label ∈ offered.map Prod.fst := exists_lookup_iff.mp ⟨offer, hlookup⟩
      rw [List.map_cons, List.takeWhile_cons_of_pos (by simpa using hfound)]
      simp only [lookupLabels, hlookup]
      refine .cons ⟨List.mem_cons_self, hlookup⟩ (ih.imp fun k p hp => ?_)
      exact ⟨List.mem_cons_of_mem _ hp.1, hp.2⟩

theorem forall₂_matchLabels (hn : Ascending (needed.map Prod.fst))
    (ho : Ascending (offered.map Prod.fst)) :
    List.Forall₂ (fun label p => needed.lookup label = some p.1 ∧ offered.lookup label = some p.2)
      ((needed.map Prod.fst).takeWhile (· ∈ offered.map Prod.fst))
      (matchLabels needed offered).1 := by
  rw [matchLabels_eq_lookupLabels hn ho]
  refine (forall₂_lookupLabels needed offered).imp fun label p hp => ?_
  exact ⟨(lookup_eq_some_iff_mem hn).mpr hp.1, hp.2⟩

end Match

namespace Polarity

/-- The side of a choice whose labels are needed. -/
def needed : Polarity → (left right : List (Label × NodeId)) → List (Label × NodeId)
  | .input, _, right => right
  | .output, left, _ => left

/-- The side of a choice among whose labels the needed ones are looked for. -/
def offered : Polarity → (left right : List (Label × NodeId)) → List (Label × NodeId)
  | .input, left, _ => left
  | .output, _, right => right

/-- Matching the branches of two choices is complete just when every needed label is on offer. It
finds, for the longest run of needed labels that are all on offer, the pair of what follows each
label on the left and what follows it on the right, in the order of the labels. -/
theorem matchBranches_eq_lookup (polarity : Polarity) {left right : List (Label × NodeId)}
    (hl : Ascending (left.map Prod.fst)) (hr : Ascending (right.map Prod.fst)) :
    ((polarity.matchBranches left right).2 = true ↔
      ∀ label ∈ (polarity.needed left right).map Prod.fst,
        label ∈ (polarity.offered left right).map Prod.fst) ∧
    List.Forall₂ (fun label p => left.lookup label = some p.1 ∧ right.lookup label = some p.2)
      (((polarity.needed left right).map Prod.fst).takeWhile
        (· ∈ (polarity.offered left right).map Prod.fst))
      (polarity.matchBranches left right).1 := by
  cases polarity with
  | input =>
    refine ⟨?_, ?_⟩
    · simp only [matchBranches, matchLabels_eq_lookupLabels hr hl]
      exact lookupLabels_complete_iff
    · -- the pass over the right side finds the pairs the other way round
      simp only [matchBranches, needed, offered, List.forall₂_map_right_iff]
      exact (forall₂_matchLabels hr hl).imp fun _ _ hp => hp.symm
  | output =>
    refine ⟨?_, forall₂_matchLabels hl hr⟩
    simp only [matchBranches, matchLabels_eq_lookupLabels hl hr]
    exact lookupLabels_complete_iff

/-- The third of four needed labels is missing, and others are skipped, with either side as the
needed one. -/
theorem matchBranches_eq_lookup_gap :
    let sparse : List (Label × NodeId) := [(1, 10), (4, 11), (7, 12), (9, 13)]
    let dense : List (Label × NodeId) := [(0, 20), (1, 21), (2, 22), (4, 23), (5, 24), (9, 25)]
    Ascending (sparse.map Prod.fst) ∧ Ascending (dense.map Prod.fst) ∧
    Polarity.output.matchBranches sparse dense = ([(10, 21), (11, 23)], false) ∧
    (¬ ∀ label ∈ sparse.map Prod.fst, label ∈ dense.map Prod.fst) ∧
    List.Forall₂ (fun label p => sparse.lookup label = some p.1 ∧ dense.lookup label = some p.2)
      [1, 4] (Polarity.output.matchBranches sparse dense).1 ∧
    List.Forall₂ (fun label p => dense.lookup label = some p.1 ∧ sparse.lookup label = some p.2)
      [1, 4] (Polarity.input.matchBranches dense sparse).1 := by
  intro sparse dense
  have hs : Ascending (sparse.map Prod.fst) := by decide
  have hd : Ascending (dense.map Prod.fst) := by decide
  have hout := matchBranches_eq_lookup .output hs hd
  have hin := matchBranches_eq_lookup .input hd hs
  exact ⟨hs, hd, by decide, fun h => absurd (hout.1.mpr h) (by decide), hout.2, hin.2⟩

end Polarity

end SessionGraph
