import Mathlib.Logic.Relation
import SessionGraph.Proofs.Layout

/-!
# The graph of a term does not depend on its binders

Binders leave no trace in the graph but the nodes that variables stand for. So a term may bind
other variables in place of its own, leave out a binder whose variable does not occur, and bind one
variable where it binds two in a row (`Term.Variant`), at the top or anywhere inside, and still has
the same graph.

All three are cases of one fact. Two terms that differ in their variables only are laid out alike if
each occurrence of a variable in one stands for what its counterpart stands for in the other
(`Term.Matches.layout`). What the two are told of the variables may differ otherwise: there can be
more of them in scope, and more waiting.
-/

namespace SessionGraph

namespace Term

/-! ## Terms that differ in their variables -/

/-- Below two binders their variables are counterparts of each other, and of no other variable. -/
def link (M : Variable → Variable → Prop) (v v' : Variable) (w w' : Variable) : Prop :=
  (w = v ∧ w' = v') ∨ (w ≠ v ∧ w' ≠ v' ∧ M w w')

/-- The terms are the same but for their variables: the free ones are counterparts in the sense of
`M`, and those that are bound are bound at the same place. -/
inductive Matches : (Variable → Variable → Prop) → Term → Term → Prop
  | done {M : Variable → Variable → Prop} : Matches M .done .done
  | message {M : Variable → Variable → Prop} {polarity : Polarity} {participant : Participant}
      {payload : Payload} {next next' : Term} (h : Matches M next next') :
      Matches M (.message polarity participant payload next)
        (.message polarity participant payload next')
  | choice {M : Variable → Variable → Prop} {polarity : Polarity} {participant : Participant}
      {branches branches' : List (Label × Term)}
      (hlabels : branches.map Prod.fst = branches'.map Prod.fst)
      (h : ∀ p ∈ branches.zip branches', Matches M p.1.2 p.2.2) :
      Matches M (.choice polarity participant branches) (.choice polarity participant branches')
  | mu {M : Variable → Variable → Prop} {v v' : Variable} {body body' : Term}
      (h : Matches (link M v v') body body') : Matches M (.mu v body) (.mu v' body')
  | var {M : Variable → Variable → Prop} {v v' : Variable} (h : M v v') :
      Matches M (.var v) (.var v')

/-- The terms are the same up to the variables that they bind. -/
def AlphaEquivalent (t t' : Term) : Prop := Matches Eq t t'

mutual

/-- The variables of a term, be they bound or free. -/
def mentions : Term → List Variable
  | .done => []
  | .message _ _ _ next => next.mentions
  | .choice _ _ branches => branchMentions branches
  | .mu v body => v :: body.mentions
  | .var v => [v]

/-- The variables of the branches of a choice. -/
def branchMentions : List (Label × Term) → List Variable
  | [] => []
  | (_, body) :: branches => body.mentions ++ branchMentions branches

end

/-- The term with `z` for the free variables `x` and `y`. -/
def unite (x y z : Variable) (t : Term) : Term :=
  t.close fun w => if w = x ∨ w = y then some (.var z) else none

/-- Ways to bind otherwise and mean the same. -/
inductive Variant : Term → Term → Prop
  | rename {t t' : Term} (h : AlphaEquivalent t t') : Variant t t'
  | drop {v : Variable} {body : Term} (h : body.ClosedIn (· ≠ v)) : Variant (.mu v body) body
  | merge {x y z : Variable} {body : Term} (h : z ∉ body.mentions) :
      Variant (.mu x (.mu y body)) (.mu z (body.unite x y z))

/-- The terms differ by `R` at one place. -/
inductive Inside (R : Term → Term → Prop) : Term → Term → Prop
  | here {t t' : Term} (h : R t t') : Inside R t t'
  | message {polarity : Polarity} {participant : Participant} {payload : Payload}
      {next next' : Term} (h : Inside R next next') :
      Inside R (.message polarity participant payload next)
        (.message polarity participant payload next')
  | branch {polarity : Polarity} {participant : Participant} (before after : List (Label × Term))
      {label : Label} {body body' : Term} (h : Inside R body body') :
      Inside R (.choice polarity participant (before ++ (label, body) :: after))
        (.choice polarity participant (before ++ (label, body') :: after))
  | mu {v : Variable} {body body' : Term} (h : Inside R body body') :
      Inside R (.mu v body) (.mu v body')

/-! ## Layouts of such terms -/

/-- What is known of a variable on the left is what is known of its counterpart on the right. -/
structure Agree (M : Variable → Variable → Prop) (scope scope' : Scope)
    (waiting waiting' : List Variable) : Prop where
  waits : ∀ v v', M v v' → (v ∈ waiting ↔ v' ∈ waiting')
  stands : ∀ v v', M v v' → v ∉ waiting → scope.lookup v = scope'.lookup v'

section Layout

variable {M : Variable → Variable → Prop} {scope scope' : Scope} {waiting waiting' : List Variable}

theorem Agree.bind (h : Agree M scope scope' waiting waiting') (id : NodeId) :
    Agree M (scope.bind waiting id) (scope'.bind waiting' id) [] [] where
  waits v v' _ := by simp
  stands v v' hM _ := by
    rw [Scope.lookup_bind, Scope.lookup_bind]
    by_cases hv : v ∈ waiting
    · rw [if_pos hv, if_pos ((h.waits v v' hM).mp hv)]
    · rw [if_neg hv, if_neg (mt (h.waits v v' hM).mpr hv), h.stands v v' hM hv]

theorem Agree.link (h : Agree M scope scope' waiting waiting') (v v' : Variable) :
    Agree (link M v v') scope scope' (v :: waiting) (v' :: waiting') where
  waits w w' hlink := by
    rcases hlink with ⟨rfl, rfl⟩ | ⟨hw, hw', hM⟩
    · simp
    · simp [hw, hw', h.waits w w' hM]
  stands w w' hlink hw := by
    rcases hlink with ⟨rfl, -⟩ | ⟨-, -, hM⟩
    · exact absurd List.mem_cons_self hw
    · exact h.stands w w' hM (List.not_mem_of_not_mem_cons hw)

theorem layoutBranches_congr {branches branches' : List (Label × Term)}
    (hlabels : branches.map Prod.fst = branches'.map Prod.fst)
    (h : ∀ p ∈ branches.zip branches', ∀ next r,
      p.1.2.layout scope [] next = .ok r ↔ p.2.2.layout scope' [] next = .ok r)
    (next : Nat) (r : List (Label × NodeId) × List Node) :
    layoutBranches scope next branches = .ok r ↔ layoutBranches scope' next branches' = .ok r := by
  obtain ⟨targets, nodes⟩ := r
  induction branches generalizing branches' next targets nodes with
  | nil =>
    obtain rfl : branches' = [] := by simpa using hlabels
    rfl
  | cons b branches ih =>
    obtain ⟨label, body⟩ := b
    obtain ⟨⟨label', body'⟩, branches', rfl⟩ : ∃ b' rest, branches' = b' :: rest :=
      List.exists_cons_of_length_eq_add_one (by simpa using (congrArg List.length hlabels).symm)
    obtain ⟨rfl, htail⟩ := List.cons.inj hlabels
    obtain ⟨hbody, hbranches⟩ := List.forall_mem_cons.mp h
    simp only [layoutBranches_cons_eq_ok_iff, hbody, ih htail hbranches]

theorem layout_message_congr {polarity : Polarity} {participant : Participant} {payload : Payload}
    {body body' : Term} {next : Nat}
    (h : ∀ r, body.layout (scope.bind waiting next) [] (next + 1) = .ok r ↔
      body'.layout (scope'.bind waiting' next) [] (next + 1) = .ok r) (r : NodeId × List Node) :
    (message polarity participant payload body).layout scope waiting next = .ok r ↔
      (message polarity participant payload body').layout scope' waiting' next = .ok r := by
  obtain ⟨id, nodes⟩ := r
  simp only [layout_message_eq_ok_iff, h]

theorem layout_choice_congr {polarity : Polarity} {participant : Participant}
    {branches branches' : List (Label × Term)} {next : Nat}
    (hlabels : branches.map Prod.fst = branches'.map Prod.fst)
    (h : ∀ p ∈ branches.zip branches', ∀ next' r,
      p.1.2.layout (scope.bind waiting next) [] next' = .ok r ↔
        p.2.2.layout (scope'.bind waiting' next) [] next' = .ok r) (r : NodeId × List Node) :
    (choice polarity participant branches).layout scope waiting next = .ok r ↔
      (choice polarity participant branches').layout scope' waiting' next = .ok r := by
  obtain ⟨id, nodes⟩ := r
  simp only [layout_choice_eq_ok_iff, hlabels, layoutBranches_congr hlabels h]

/-- Terms that match are laid out alike. -/
theorem Matches.layout {t t' : Term} (h : Matches M t t')
    (hM : Agree M scope scope' waiting waiting') (next : Nat) (r : NodeId × List Node) :
    t.layout scope waiting next = .ok r ↔ t'.layout scope' waiting' next = .ok r := by
  induction h generalizing scope scope' waiting waiting' next r with
  | done =>
    obtain ⟨id, nodes⟩ := r
    simp only [layout_done_eq_ok_iff]
  | message _ ih => exact layout_message_congr (ih (hM.bind next) (next + 1)) r
  | choice hlabels _ ih =>
    exact layout_choice_congr hlabels (fun p hp => ih p hp (hM.bind next)) r
  | mu _ ih => exact ih (hM.link _ _) next r
  | var hvar =>
    obtain ⟨id, nodes⟩ := r
    rw [layout_var_eq_ok_iff, layout_var_eq_ok_iff, ← hM.waits _ _ hvar]
    exact and_congr_right fun hv => by rw [hM.stands _ _ hvar hv]

end Layout

/-! ## Variants -/

section Mentions

variable {branches : List (Label × Term)}

theorem mentions_subset {b : Label × Term} (hb : b ∈ branches) :
    b.2.mentions ⊆ branchMentions branches := by
  induction branches with
  | nil => cases hb
  | cons b' branches ih =>
    rw [branchMentions]
    rcases List.mem_cons.mp hb with rfl | hb
    · exact List.subset_append_left _ _
    · exact List.Subset.trans (ih hb) (List.subset_append_right _ _)

theorem closedIn_mentions (t : Term) : t.ClosedIn (· ∈ t.mentions) := by
  induction t using inductionOn with
  | done => trivial
  | message _ _ _ next ih => exact ih
  | choice _ _ branches ih =>
    rw [ClosedIn, branchesClosedIn_iff]
    exact fun b hb => (ih b hb).mono fun _ hv => mentions_subset hb hv
  | mu v body ih => exact ih.mono fun _ hw => .inr (List.mem_cons_of_mem _ hw)
  | var v => exact List.mem_singleton_self v

end Mentions

section Variants

variable {M : Variable → Variable → Prop} {B : Variable → Prop}

/-- A term matches what it becomes when variables that it does not mention are put for some of its
free ones. -/
theorem matches_close (t : Term) {σ : Variable → Option Term} (ht : t.ClosedIn B)
    (hσ : ∀ v, B v → (σ v = none ∧ M v v) ∨
      ∃ v', σ v = some (.var v') ∧ v' ∉ t.mentions ∧ M v v') : Matches M t (t.close σ) := by
  induction t using inductionOn generalizing M B σ with
  | done => exact .done
  | message _ _ _ next ih => exact .message (ih ht hσ)
  | choice _ _ branches ih =>
    rw [ClosedIn, branchesClosedIn_iff] at ht
    have hzip : branches.zip (branches.map fun b => (b.1, b.2.close σ)) =
        branches.map fun b => (b, b.1, b.2.close σ) := List.map_prod_left_eq_zip.symm
    rw [close, closeBranches_eq_map]
    refine .choice (by simp) fun p hp => ?_
    rw [hzip] at hp
    obtain ⟨b, hb, rfl⟩ := List.mem_map.mp hp
    refine ih b hb (ht b hb) fun v hv => (hσ v hv).imp_right ?_
    rintro ⟨v', hv', hfresh, hM⟩
    exact ⟨v', hv', mt (mentions_subset hb ·) hfresh, hM⟩
  | mu w body ih =>
    refine .mu (ih ht fun v hv => ?_)
    by_cases hvw : v = w
    · subst hvw
      exact .inl ⟨Function.update_self .., .inl ⟨rfl, rfl⟩⟩
    · rw [Function.update_of_ne hvw]
      refine (hσ v (hv.resolve_left hvw)).imp (fun h => ⟨h.1, .inr ⟨hvw, hvw, h.2⟩⟩) ?_
      rintro ⟨v', hv', hfresh, hM⟩
      obtain ⟨hne, hfresh⟩ := List.ne_and_not_mem_of_not_mem_cons hfresh
      exact ⟨v', hv', hfresh, .inr ⟨hvw, hne, hM⟩⟩
  | var v =>
    rcases hσ v ht with ⟨hnone, hM⟩ | ⟨v', hv', -, hM⟩
    · rw [close, hnone]
      exact .var hM
    · rw [close, hv']
      exact .var hM

/-- The terms are laid out alike, whatever is around them. -/
def Interchangeable (t t' : Term) : Prop :=
  ∀ scope waiting next r, t.layout scope waiting next = .ok r ↔ t'.layout scope waiting next = .ok r

theorem interchangeable_drop {v : Variable} {body : Term} (h : body.ClosedIn (· ≠ v)) :
    Interchangeable (.mu v body) body := by
  intro scope waiting
  have hself : Matches (fun w w' => w = w' ∧ w ≠ v) body (body.close fun _ => none) :=
    matches_close body h fun w hw => .inl ⟨rfl, rfl, hw⟩
  rw [close_none] at hself
  refine hself.layout ⟨?_, ?_⟩
  · rintro w _ ⟨rfl, hw⟩
    simp [hw]
  · rintro w _ ⟨rfl, -⟩ -
    rfl

theorem interchangeable_merge {x y z : Variable} {body : Term} (h : z ∉ body.mentions) :
    Interchangeable (.mu x (.mu y body)) (.mu z (body.unite x y z)) := by
  intro scope waiting
  have hunite : Matches (fun w w' => if w = x ∨ w = y then w' = z else w' = w ∧ w ≠ z) body
      (body.unite x y z) := by
    refine matches_close body body.closedIn_mentions fun w hw => ?_
    by_cases hxy : w = x ∨ w = y
    · exact .inr ⟨z, if_pos hxy, h, by simp [hxy]⟩
    · refine .inl ⟨if_neg hxy, ?_⟩
      rw [if_neg hxy]
      exact ⟨rfl, fun heq => h (heq ▸ hw)⟩
  refine hunite.layout ⟨fun w w' hM => ?_, fun w w' hM hw => ?_⟩
  · split at hM
    next hxy =>
      subst hM
      rcases hxy with rfl | rfl <;> simp
    next hxy =>
      obtain ⟨rfl, hz⟩ := hM
      simp [not_or.mp hxy, hz]
  · split at hM
    next hxy => rcases hxy with rfl | rfl <;> simp at hw
    next => rw [hM.1]

theorem Variant.interchangeable {t t' : Term} (h : Variant t t') : Interchangeable t t' := by
  cases h with
  | rename h =>
    intro scope waiting
    refine Matches.layout h ⟨?_, ?_⟩
    · rintro v _ rfl
      rfl
    · rintro v _ rfl -
      rfl
  | drop h => exact interchangeable_drop h
  | merge h => exact interchangeable_merge h

theorem Inside.interchangeable {t t' : Term} (h : Inside Variant t t') :
    Interchangeable t t' := by
  induction h with
  | here h => exact h.interchangeable
  | message _ ih => exact fun scope waiting next => layout_message_congr (ih _ _ _)
  | branch before after _ ih =>
    intro scope waiting next
    refine layout_choice_congr (by simp) fun p hp next' r => ?_
    have hself : ∀ branches : List (Label × Term), p ∈ branches.zip branches → p.1 = p.2 := by
      intro branches hp
      rw [← List.map_id branches, List.zip_map', List.mem_map] at hp
      obtain ⟨b, -, rfl⟩ := hp
      rfl
    rw [List.zip_append rfl, List.mem_append, List.zip_cons_cons, List.mem_cons] at hp
    rcases hp with hp | rfl | hp
    · rw [hself _ hp]
    · exact ih _ _ _ _
    · rw [hself _ hp]
  | mu _ ih => exact fun scope waiting => ih scope (_ :: waiting)

/-- Terms that differ in how they bind have the same graph, if they have one at all. -/
theorem toGraph_congr {t t' : Term} (h : Relation.EqvGen (Inside Variant) t t') (g : Graph) :
    t.toGraph = .ok g ↔ t'.toGraph = .ok g := by
  induction h with
  | rel t t' h => simp only [toGraph_eq_ok_iff, h.interchangeable [] [] 0]
  | refl t => rfl
  | symm t t' _ ih => exact ih.symm
  | trans t u t' _ _ ih ih' => exact ih.trans ih'

/-- A binder that is hidden by a further one, two binders in a row, and one in front of the end. -/
theorem toGraph_congr_hidden :
    let t : Term := .mu 0 (.message .output 1 .nat (.mu 1 (.mu 0 (.choice .input 2
      [(0, .var 0), (3, .var 1), (5, .mu 1 .done)]))))
    let t' : Term := .message .output 1 .nat (.mu 4 (.choice .input 2
      [(0, .var 4), (3, .var 4), (5, .done)]))
    let g : Graph := ⟨#[.message .output 1 .nat 1, .choice .input 2 [(0, 1), (3, 1), (5, 2)],
      .done], some 0⟩
    Relation.EqvGen (Inside Variant) t t' ∧ t.toGraph = .ok g ∧
      (t.toGraph = .ok g ↔ t'.toGraph = .ok g) := by
  intro t t' g
  have h : Relation.EqvGen (Inside Variant) t t' := by
    -- the outermost binder goes, then the one in front of the end
    refine .trans _ _ _ (.rel _ _ (.here (.drop ?_))) ?_
    · simp [ClosedIn, BranchesClosedIn]
    refine .trans _ _ _ (.rel _ _ (.message (.mu (.mu (.branch [(0, .var 0), (3, .var 1)] []
      (.here (.drop ?_))))))) ?_
    · trivial
    -- the two in a row become one, which then binds another variable
    refine .trans _ (.message .output 1 .nat (.mu 7 (.choice .input 2
      [(0, .var 7), (3, .var 7), (5, .done)]))) _
      (.rel _ _ (.message (.here (.merge (by decide))))) ?_
    refine .rel _ _ (.here (.rename (.message (.mu (.choice rfl ?_)))))
    simp only [List.zip_cons_cons, List.zip_nil_right, List.forall_mem_cons]
    exact ⟨.var (.inl ⟨rfl, rfl⟩), .var (.inl ⟨rfl, rfl⟩), .done, List.forall_mem_nil _⟩
  exact ⟨h, rfl, toGraph_congr h g⟩

end Variants

end Term

end SessionGraph
