import Mathlib.Data.List.Sort
import Mathlib.Logic.Relation
import SessionGraph.Proofs.Covering
import SessionGraph.Proofs.Outcome
import SessionGraph.Proofs.Tree

/-!
# Subtyping is a preorder

The similar nodes that are met from the roots are the largest relation closed under the rules there
(`closedUnderRules_related`). One rule follows another with the relations composed
(`Node.Rule.trans`), because the labels of a choice are needed on the same side each time, so
similar nodes of a first and a third graph are found through a second one.

Two nodes that follow a rule in both directions have the same action and the same labels in the same
order (`Node.matches_of_rules`): this is where the labels have to ascend. Nodes that match in this
way with all that follows are those that show the same tree at every depth
(`forall_showSame_iff_exists_matching`).
-/

namespace SessionGraph

open Relation (Comp)

namespace Node

variable {R R' : NodeId → NodeId → Prop} {l m r : Node}

theorem Rule.trans (h : l.Rule R m) (h' : m.Rule R' r) : l.Rule (Comp R R') r := by
  cases h with
  | done =>
    cases h' with
    | done => exact .done
  | receive hfits hnext =>
    cases h' with
    | receive hfits' hnext' => exact .receive (Payload.fits_trans hfits' hfits) ⟨_, hnext, hnext'⟩
  | send hfits hnext =>
    cases h' with
    | send hfits' hnext' => exact .send (Payload.fits_trans hfits hfits') ⟨_, hnext, hnext'⟩
  | branch h =>
    cases h' with
    | branch h' =>
      refine .branch fun label a ha => ?_
      obtain ⟨b, hb, hab⟩ := h label a ha
      obtain ⟨c, hc, hbc⟩ := h' label b hb
      exact ⟨c, hc, b, hab, hbc⟩
  | select h =>
    cases h' with
    | select h' =>
      refine .select fun label c hc => ?_
      obtain ⟨b, hb, hbc⟩ := h' label c hc
      obtain ⟨a, ha, hab⟩ := h label b hb
      exact ⟨a, ha, b, hab, hbc⟩

/-! ## Nodes that match -/

/-- The nodes have the same action, and what follows is in `R` slot by slot. -/
inductive Matches (R : NodeId → NodeId → Prop) : Node → Node → Prop
  | done : Matches R .done .done
  | message {polarity : Polarity} {participant : Participant} {payload : Payload}
      {next next' : NodeId} (h : R next next') :
      Matches R (.message polarity participant payload next)
        (.message polarity participant payload next')
  | choice {polarity : Polarity} {participant : Participant}
      {branches branches' : List (Label × NodeId)}
      (h : List.Forall₂ (fun b b' => b.1 = b'.1 ∧ R b.2 b'.2) branches branches') :
      Matches R (.choice polarity participant branches) (.choice polarity participant branches')

theorem Matches.mono (h : l.Matches R r) (hR : ∀ a b, R a b → R' a b) : l.Matches R' r := by
  cases h with
  | done => exact .done
  | message h => exact .message (hR _ _ h)
  | choice h => exact .choice (h.imp fun _ _ hb => ⟨hb.1, hR _ _ hb.2⟩)

theorem Matches.symm (h : l.Matches R r) : r.Matches (fun b a => R a b) l := by
  cases h with
  | done => exact .done
  | message h => exact .message h
  | choice h =>
    refine .choice (List.Forall₂.flip (h.imp ?_))
    rintro b b' ⟨hlabel, hnext⟩
    exact ⟨hlabel.symm, hnext⟩

/-- Nodes that match follow a rule, whatever the order of their labels. -/
theorem Matches.rule (h : l.Matches R r) : l.Rule R r := by
  cases h with
  | done => exact .done
  | @message polarity _ payload _ _ h =>
    cases polarity with
    | input => exact .receive payload.fits_refl h
    | output => exact .send payload.fits_refl h
  | @choice polarity _ branches branches' h =>
    cases polarity with
    | output =>
      refine .branch fun label next hmem => ?_
      obtain ⟨⟨label', next'⟩, hmem', rfl, hnext⟩ := exists_of_mem_forall₂ h.flip hmem
      exact ⟨next', hmem', hnext⟩
    | input =>
      refine .select fun label next' hmem => ?_
      obtain ⟨⟨label', next⟩, hmem', rfl, hnext⟩ := exists_of_mem_forall₂ h hmem
      exact ⟨next, hmem', hnext⟩

/-- Branches with labels that ascend match when each label of one side is on the other, with
continuations in `R` and the other way round in `R'`. -/
theorem forall₂_of_ascending {branches branches' : List (Label × NodeId)}
    (h : Ascending (branches.map Prod.fst)) (h' : Ascending (branches'.map Prod.fst))
    (hR : ∀ label next, (label, next) ∈ branches →
      ∃ next', (label, next') ∈ branches' ∧ R next next')
    (hR' : ∀ label next', (label, next') ∈ branches' →
      ∃ next, (label, next) ∈ branches ∧ R' next' next) :
    List.Forall₂ (fun b b' => b.1 = b'.1 ∧ R b.2 b'.2 ∧ R' b'.2 b.2) branches branches' := by
  have hlabels : branches.map Prod.fst = branches'.map Prod.fst := by
    refine List.Pairwise.eq_of_mem_iff h h' fun label => ?_
    simp only [List.mem_map, Prod.exists, exists_and_right, exists_eq_right]
    constructor
    · rintro ⟨next, hmem⟩
      obtain ⟨next', hmem', -⟩ := hR label next hmem
      exact ⟨next', hmem'⟩
    · rintro ⟨next', hmem'⟩
      obtain ⟨next, hmem, -⟩ := hR' label next' hmem'
      exact ⟨next, hmem⟩
  have hzip : List.Forall₂ (fun b b' => b.1 = b'.1) branches branches' := by
    rwa [← List.forall₂_map_right_iff, ← List.forall₂_map_left_iff, List.forall₂_eq_eq_eq]
  rw [List.forall₂_iff_zip] at hzip ⊢
  refine ⟨hzip.1, fun {b b'} hmem => ?_⟩
  have hlabel := hzip.2 hmem
  obtain ⟨label, next⟩ := b
  obtain ⟨label', next'⟩ := b'
  obtain rfl : label = label' := hlabel
  obtain ⟨hb, hb'⟩ := List.of_mem_zip hmem
  -- a label has one continuation on each side, so what the rules relate is what stands here
  obtain ⟨other', hother', hnext⟩ := hR label next hb
  obtain ⟨other, hother, hnext'⟩ := hR' label next' hb'
  rw [← lookup_eq_some_iff_mem h'] at hb' hother'
  rw [← lookup_eq_some_iff_mem h] at hb hother
  rw [hb', Option.some.injEq] at hother'
  rw [hb, Option.some.injEq] at hother
  exact ⟨rfl, hother' ▸ hnext, hother ▸ hnext'⟩

theorem matches_of_rules (hl : l.Sorted) (hr : r.Sorted) (h : l.Rule R r) (h' : r.Rule R' l) :
    l.Matches (fun a b => R a b ∧ R' b a) r := by
  cases h with
  | done => exact .done
  | receive hfits hnext =>
    cases h' with
    | receive hfits' hnext' =>
      obtain rfl := Payload.fits_antisymm hfits hfits'
      exact .message ⟨hnext, hnext'⟩
  | send hfits hnext =>
    cases h' with
    | send hfits' hnext' =>
      obtain rfl := Payload.fits_antisymm hfits hfits'
      exact .message ⟨hnext, hnext'⟩
  | branch h =>
    cases h' with
    | branch h' => exact .choice (forall₂_of_ascending hl hr h h')
  | select h =>
    cases h' with
    | select h' =>
      refine .choice ((forall₂_of_ascending hl hr h' h).imp ?_)
      rintro b b' ⟨hlabel, hnext', hnext⟩
      exact ⟨hlabel, hnext, hnext'⟩

/-- Nodes that match in each of several relations match in all of them at once. -/
theorem matches_forall {S : Nat → NodeId → NodeId → Prop} (h : ∀ i, l.Matches (S i) r) :
    l.Matches (fun a b => ∀ i, S i a b) r := by
  cases h 0 with
  | done => exact .done
  | message =>
    refine .message fun i => ?_
    cases h i with
    | message hnext => exact hnext
  | choice hbranches =>
    refine .choice ?_
    rw [List.forall₂_iff_zip] at hbranches ⊢
    refine ⟨hbranches.1, fun {b b'} hmem => ⟨(hbranches.2 hmem).1, fun i => ?_⟩⟩
    cases h i with
    | choice h => exact ((List.forall₂_iff_zip.mp h).2 hmem).2

end Node

/-! ## Graphs that show the same tree -/

/-- The tree has the action of the node, with subtrees that stand in `S` to what follows. -/
def Node.Heads (S : NodeId → Tree → Prop) : Node → Tree → Prop
  | .done, tree => tree = .done
  | .message polarity participant payload next, tree =>
    ∃ tree', S next tree' ∧ tree = .message polarity participant payload tree'
  | .choice polarity participant branches, tree =>
    ∃ trees, List.Forall₂ (fun b b' => b.1 = b'.1 ∧ S b.2 b'.2) branches trees ∧
      tree = .choice polarity participant trees

theorem Graph.tree_succ_eq_ok_iff {g : Graph} {depth : Nat} {id : NodeId} {tree : Tree} :
    g.tree (depth + 1) id = .ok tree ↔
      ∃ n, g.node id = .ok n ∧ n.Heads (fun next tree' => g.tree depth next = .ok tree') tree := by
  rw [Graph.tree, bind_eq_ok_iff]
  refine exists_congr fun n => and_congr_right fun _ => ?_
  cases n with
  | done => exact pure_eq_ok_iff
  | message polarity participant payload next =>
    simp only [bind_eq_ok_iff, pure_eq_ok_iff, Node.Heads]
  | choice polarity participant branches =>
    have hbranch (b : Label × NodeId) (b' : Label × Tree) :
        (do return (b.1, ← g.tree depth b.2) : Except Fault (Label × Tree)) = .ok b' ↔
          b.1 = b'.1 ∧ g.tree depth b.2 = .ok b'.2 := by
      obtain ⟨label', tree'⟩ := b'
      simp only [bind_eq_ok_iff, pure_eq_ok_iff, Prod.mk.injEq]
      constructor
      · rintro ⟨_, htree, rfl, rfl⟩
        exact ⟨rfl, htree⟩
      · rintro ⟨rfl, htree⟩
        exact ⟨tree', htree, rfl, rfl⟩
    simp only [bind_eq_ok_iff, pure_eq_ok_iff, mapM_eq_ok_iff, hbranch, Node.Heads]

theorem exists_forall₂_iff {α β γ : Type} {P : α → γ → Prop} {P' : β → γ → Prop} {as : List α}
    {bs : List β} :
    (∃ cs, List.Forall₂ P as cs ∧ List.Forall₂ P' bs cs) ↔
      List.Forall₂ (fun a b => ∃ c, P a c ∧ P' b c) as bs := by
  constructor
  · rintro ⟨cs, has, hbs⟩
    induction has generalizing bs with
    | nil =>
      rw [List.forall₂_nil_right_iff] at hbs
      exact hbs ▸ .nil
    | @cons a c as cs hac _ ih =>
      obtain ⟨b, bs', hbc, hbs', rfl⟩ := List.forall₂_cons_right_iff.mp hbs
      exact .cons ⟨c, hac, hbc⟩ (ih hbs')
  · intro h
    induction h with
    | nil => exact ⟨[], .nil, .nil⟩
    | cons hab _ ih =>
      obtain ⟨c, hac, hbc⟩ := hab
      obtain ⟨cs, has, hbs⟩ := ih
      exact ⟨c :: cs, .cons hac has, .cons hbc hbs⟩

/-- Nodes have a tree in common just when they match with subtrees in common. -/
theorem Node.exists_heads_iff {S S' : NodeId → Tree → Prop} {l r : Node} :
    (∃ tree, l.Heads S tree ∧ r.Heads S' tree) ↔
      l.Matches (fun a b => ∃ tree, S a tree ∧ S' b tree) r := by
  constructor
  · rintro ⟨tree, hl, hr⟩
    cases l with
    | done =>
      obtain rfl := hl
      cases r with
      | done => exact .done
      | message => obtain ⟨_, -, heq⟩ := hr; cases heq
      | choice => obtain ⟨_, -, heq⟩ := hr; cases heq
    | message =>
      obtain ⟨tree', htree, rfl⟩ := hl
      cases r with
      | done => cases hr
      | message =>
        obtain ⟨tree'', htree', heq⟩ := hr
        cases heq
        exact .message ⟨tree', htree, htree'⟩
      | choice => obtain ⟨_, -, heq⟩ := hr; cases heq
    | choice =>
      obtain ⟨trees, htrees, rfl⟩ := hl
      cases r with
      | done => cases hr
      | message => obtain ⟨_, -, heq⟩ := hr; cases heq
      | choice =>
        obtain ⟨trees', htrees', heq⟩ := hr
        cases heq
        refine .choice ((exists_forall₂_iff.mp ⟨trees, htrees, htrees'⟩).imp ?_)
        rintro b b' ⟨t, ⟨hlabel, ht⟩, hlabel', ht'⟩
        exact ⟨hlabel.trans hlabel'.symm, t.2, ht, ht'⟩
  · intro h
    cases h with
    | done => exact ⟨.done, rfl, rfl⟩
    | message h =>
      obtain ⟨tree, htree, htree'⟩ := h
      exact ⟨_, ⟨tree, htree, rfl⟩, tree, htree', rfl⟩
    | @choice _ _ branches branches' h =>
      have hcommon : List.Forall₂ (fun b b' => ∃ t : Label × Tree, (b.1 = t.1 ∧ S b.2 t.2) ∧
          b'.1 = t.1 ∧ S' b'.2 t.2) branches branches' := by
        refine h.imp ?_
        rintro b b' ⟨hlabel, tree, htree, htree'⟩
        exact ⟨(b.1, tree), ⟨rfl, htree⟩, hlabel.symm, htree'⟩
      obtain ⟨trees, htrees, htrees'⟩ := exists_forall₂_iff.mpr hcommon
      exact ⟨_, ⟨trees, htrees, rfl⟩, trees, htrees', rfl⟩

/-- Up to a depth, the graphs show the same tree from `a` and `b` on. -/
def ShowSame (left right : Graph) (depth : Nat) (a b : NodeId) : Prop :=
  ∃ tree, left.tree depth a = .ok tree ∧ right.tree depth b = .ok tree

/-- Every pair of `R` is a pair of nodes that match with what follows in `R`. -/
def ClosedUnderMatching (left right : Graph) (R : NodeId → NodeId → Prop) : Prop :=
  ∀ a b, R a b → ∃ l r, left.node a = .ok l ∧ right.node b = .ok r ∧ l.Matches R r

section Same

variable {left right : Graph} {a b : NodeId}

theorem showSame_succ_iff {depth : Nat} : ShowSame left right (depth + 1) a b ↔
    ∃ l r, left.node a = .ok l ∧ right.node b = .ok r ∧
      l.Matches (ShowSame left right depth) r := by
  simp only [ShowSame, Graph.tree_succ_eq_ok_iff]
  constructor
  · rintro ⟨tree, ⟨l, hl, hheads⟩, r, hr, hheads'⟩
    exact ⟨l, r, hl, hr, Node.exists_heads_iff.mp ⟨tree, hheads, hheads'⟩⟩
  · rintro ⟨l, r, hl, hr, hmatches⟩
    obtain ⟨tree, hheads, hheads'⟩ := Node.exists_heads_iff.mpr hmatches
    exact ⟨tree, ⟨l, hl, hheads⟩, r, hr, hheads'⟩

theorem forall_showSame_iff_exists_matching : (∀ depth, ShowSame left right depth a b) ↔
    ∃ R, ClosedUnderMatching left right R ∧ R a b := by
  constructor
  · intro h
    refine ⟨fun a b => ∀ depth, ShowSame left right depth a b, fun a b h => ?_, h⟩
    obtain ⟨l, r, hl, hr, -⟩ := showSame_succ_iff.mp (h 1)
    refine ⟨l, r, hl, hr, Node.matches_forall fun depth => ?_⟩
    obtain ⟨l', r', hl', hr', hmatches⟩ := showSame_succ_iff.mp (h (depth + 1))
    rw [hl, Except.ok.injEq] at hl'
    rw [hr, Except.ok.injEq] at hr'
    rwa [hl', hr']
  · rintro ⟨R, hR, hab⟩ depth
    induction depth generalizing a b with
    | zero => exact ⟨.cut, rfl, rfl⟩
    | succ depth ih =>
      obtain ⟨l, r, hl, hr, hmatches⟩ := hR a b hab
      exact showSame_succ_iff.mpr ⟨l, r, hl, hr, hmatches.mono fun _ _ h => ih h⟩

end Same

/-! ## The order -/

section Order

variable {g₁ g₂ g₃ : Graph} {a b c : NodeId}

theorem Related.trans (h₁ : g₁.Sorted) (h₂ : g₂.Sorted) (h₃ : g₃.Sorted)
    (hab : Related g₁ g₂ a b) (hbc : Related g₂ g₃ b c) : Related g₁ g₃ a c := by
  refine ⟨?_, hab.2.1, hbc.2.2⟩
  rw [similar_iff_closed h₁ h₃ hab.2.1 hbc.2.2]
  refine ⟨Comp (Related g₁ g₂) (Related g₂ g₃), ?_, b, hab, hbc⟩
  rintro a c ⟨b, hab, hbc⟩
  obtain ⟨n₁, n₂, hn₁, hn₂, hrule⟩ := closedUnderRules_related h₁ h₂ a b hab
  obtain ⟨n₂', n₃, hn₂', hn₃, hrule'⟩ := closedUnderRules_related h₂ h₃ b c hbc
  rw [hn₂, Except.ok.injEq] at hn₂'
  subst hn₂'
  exact ⟨n₁, n₃, hn₁, hn₃, hrule.trans hrule'⟩

theorem ClosedUnderMatching.closedUnderRules {R : NodeId → NodeId → Prop}
    (hR : ClosedUnderMatching g₁ g₂ R) : ClosedUnderRules g₁ g₂ R := by
  intro a b hab
  obtain ⟨l, r, hl, hr, hmatches⟩ := hR a b hab
  exact ⟨l, r, hl, hr, hmatches.rule⟩

theorem ClosedUnderMatching.symm {R : NodeId → NodeId → Prop}
    (hR : ClosedUnderMatching g₁ g₂ R) : ClosedUnderMatching g₂ g₁ fun b a => R a b := by
  intro b a hab
  obtain ⟨l, r, hl, hr, hmatches⟩ := hR a b hab
  exact ⟨r, l, hr, hl, hmatches.symm⟩

/-- Nodes are similar both ways just when they show the same tree. -/
theorem similar_and_similar_iff_showSame (h₁ : g₁.Sorted) (h₂ : g₂.Sorted)
    (ha : g₁.Reachable a) (hb : g₂.Reachable b) :
    (Similar g₁ g₂ (a, b) ∧ Similar g₂ g₁ (b, a)) ↔ ∀ depth, ShowSame g₁ g₂ depth a b := by
  rw [forall_showSame_iff_exists_matching]
  constructor
  · rintro ⟨hab, hba⟩
    refine ⟨fun a b => Related g₁ g₂ a b ∧ Related g₂ g₁ b a, ?_, ⟨hab, ha, hb⟩, hba, hb, ha⟩
    rintro a b ⟨hab, hba⟩
    obtain ⟨l, r, hl, hr, hrule⟩ := closedUnderRules_related h₁ h₂ a b hab
    obtain ⟨r', l', hr', hl', hrule'⟩ := closedUnderRules_related h₂ h₁ b a hba
    rw [hr, Except.ok.injEq] at hr'
    rw [hl, Except.ok.injEq] at hl'
    subst hr' hl'
    exact ⟨l, r, hl, hr, Node.matches_of_rules (h₁ a l hab.2.1 hl) (h₂ b r hab.2.2 hr) hrule hrule'⟩
  · rintro ⟨R, hR, hab⟩
    exact ⟨(similar_iff_closed h₁ h₂ ha hb).mpr ⟨R, hR.closedUnderRules, hab⟩,
      (similar_iff_closed h₂ h₁ hb ha).mpr ⟨_, hR.symm.closedUnderRules, hab⟩⟩

end Order

/-- The graph starts at `root`, the ids that are met from there are those of nodes, and the labels
of the choices that are met ascend. -/
structure Graph.Proper (g : Graph) (root : NodeId) : Prop where
  root : g.root = some root
  traversable : g.Traversable
  sorted : g.Sorted

theorem Comparison.answers_true_iff {strategy : Strategy} {left right : Graph} {a b : NodeId}
    (ha : left.root = some a) (hb : right.root = some b) (hl : left.Traversable)
    (hr : right.Traversable) :
    Answers ⟨strategy, left, right⟩ true ↔ Related left right a b := by
  rw [answers_iff ha hb hl hr, iff_true_left rfl]
  exact ⟨fun h => ⟨h, .root ha, .root hb⟩, fun h => h.1⟩

/-- By either strategy, every graph is related to itself, a graph that is related to a second one
is related to what that one is related to, and graphs that are related both ways are those that
show the same tree at every depth. -/
theorem Comparison.answers_preorder (strategy : Strategy) :
    (∀ (g : Graph) (root : NodeId), g.root = some root → g.Traversable →
      Answers ⟨strategy, g, g⟩ true) ∧
    (∀ (g₁ g₂ g₃ : Graph) (a b c : NodeId), g₁.Proper a → g₂.Proper b → g₃.Proper c →
      Answers ⟨strategy, g₁, g₂⟩ true → Answers ⟨strategy, g₂, g₃⟩ true →
      Answers ⟨strategy, g₁, g₃⟩ true) ∧
    ∀ (g₁ g₂ : Graph) (a b : NodeId), g₁.Proper a → g₂.Proper b →
      ((Answers ⟨strategy, g₁, g₂⟩ true ∧ Answers ⟨strategy, g₂, g₁⟩ true) ↔
        ∀ depth, ∃ tree, g₁.tree depth a = .ok tree ∧ g₂.tree depth b = .ok tree) := by
  refine ⟨fun g root hroot hg => ?_, fun g₁ g₂ g₃ a b c h₁ h₂ h₃ => ?_, fun g₁ g₂ a b h₁ h₂ => ?_⟩
  · rw [answers_true_iff hroot hroot hg hg]
    exact ⟨hg.similar_self (.root hroot), .root hroot, .root hroot⟩
  · rw [answers_true_iff h₁.root h₂.root h₁.traversable h₂.traversable,
      answers_true_iff h₂.root h₃.root h₂.traversable h₃.traversable,
      answers_true_iff h₁.root h₃.root h₁.traversable h₃.traversable]
    exact Related.trans h₁.sorted h₂.sorted h₃.sorted
  · have hsame :=
      similar_and_similar_iff_showSame h₁.sorted h₂.sorted (.root h₁.root) (.root h₂.root)
    rw [answers_iff h₁.root h₂.root h₁.traversable h₂.traversable,
      answers_iff h₂.root h₁.root h₂.traversable h₁.traversable, iff_true_left rfl,
      iff_true_left rfl]
    exact hsame

/-- Labels in no order with one of them twice, three loops each of which allows more than the one
before, and a loop against itself gone through twice. -/
theorem Comparison.answers_preorder_loops :
    let tangle : Graph := ⟨#[.choice .output 0 [(5, 1), (2, 0), (2, 1)], .message .input 1 .nat 0],
      some 0⟩
    let loop : Graph := ⟨#[.choice .output 0 [(3, 1)], .message .input 1 .int 0], some 0⟩
    let wide : Graph := ⟨#[.done, .choice .output 0 [(1, 0), (3, 2)], .message .input 1 .nat 3,
      .choice .output 0 [(3, 2), (4, 1)]], some 1⟩
    let wider : Graph := ⟨#[.choice .output 0 [(1, 2), (3, 1), (4, 0)], .message .input 1 .nat 0,
      .done], some 0⟩
    let twice : Graph := ⟨#[.choice .output 0 [(3, 1)], .message .input 1 .int 2,
      .choice .output 0 [(3, 3)], .message .input 1 .int 0], some 0⟩
    Answers ⟨.discharging, tangle, tangle⟩ true ∧
    (loop.Proper 0 ∧ wide.Proper 1 ∧ wider.Proper 0 ∧ twice.Proper 0) ∧
    (Answers ⟨.retaining, loop, wide⟩ true ∧ Answers ⟨.retaining, wide, wider⟩ true ∧
      Answers ⟨.retaining, loop, wider⟩ true) ∧
    Answers ⟨.discharging, loop, twice⟩ true ∧ Answers ⟨.discharging, twice, loop⟩ true ∧
    ∀ depth, ∃ tree, loop.tree depth 0 = .ok tree ∧ twice.tree depth 0 = .ok tree := by
  intro tangle loop wide wider twice
  have hproper {g : Graph} {root : NodeId} (hroot : g.root = some root) (hg : g.InBounds)
      (hlabels : ∀ n ∈ g.nodes.toList, n.Sorted) : g.Proper root :=
    ⟨hroot, hg.traversable, Graph.sorted_of_forall hlabels⟩
  have htangle : tangle.InBounds := by decide
  have hloop : loop.Proper 0 := hproper rfl (by decide) (by decide)
  have hwide : wide.Proper 1 := hproper rfl (by decide) (by decide)
  have hwider : wider.Proper 0 := hproper rfl (by decide) (by decide)
  have htwice : twice.Proper 0 := hproper rfl (by decide) (by decide)
  have hfirst : Answers ⟨.retaining, loop, wide⟩ true :=
    ⟨4, eq_ok_of_toOption (by decide +kernel)⟩
  have hsecond : Answers ⟨.retaining, wide, wider⟩ true :=
    ⟨6, eq_ok_of_toOption (by decide +kernel)⟩
  have hforth : Answers ⟨.discharging, loop, twice⟩ true :=
    ⟨5, eq_ok_of_toOption (by decide +kernel)⟩
  have hback : Answers ⟨.discharging, twice, loop⟩ true :=
    ⟨5, eq_ok_of_toOption (by decide +kernel)⟩
  obtain ⟨hrefl, -, hsame⟩ := answers_preorder .discharging
  obtain ⟨-, htrans, -⟩ := answers_preorder .retaining
  exact ⟨hrefl tangle 0 rfl htangle.traversable, ⟨hloop, hwide, hwider, htwice⟩,
    ⟨hfirst, hsecond, htrans loop wide wider 0 1 0 hloop hwide hwider hfirst hsecond⟩,
    hforth, hback, (hsame loop twice 0 0 hloop htwice).mp ⟨hforth, hback⟩⟩

end SessionGraph
