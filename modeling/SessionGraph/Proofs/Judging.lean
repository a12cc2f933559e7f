import Mathlib.Data.List.Basic
import SessionGraph.Proofs.Outcome
import SessionGraph.Proofs.Rounds

/-!
# Judging pairs recursively

`Comparison.judge` is the rules of subtyping as they are read: a pair that is assumed is related,
any other follows the rule for its two nodes, and is itself assumed while what follows is judged.
The labels of a choice are gone through one after the other (`Comparison.judgeLabels`). A judgement
comes with the number of pairs judged for it and with what is assumed afterwards. No assumption made
before gets lost (`Judgement.keeps`), which is also why judging ends.

A walk does the same with a stack of its own. It knows all that a choice asks for before it looks at
any of it, and has one place for the last answer, so it takes an argument that the two agree:
whatever is on the stack, looking at a pair leads to where the judgement of the pair says
(`Walk.leadsTo_judge`).
-/

namespace SessionGraph

/-- What comes of judging when the pairs of `given` are assumed. -/
structure Judgement (given : Assumptions) where
  related : Bool
  /-- The number of pairs judged. -/
  count : Nat
  /-- What is assumed afterwards. -/
  assumed : Assumptions
  keeps : ∀ p ∈ given, p ∈ assumed

namespace Judgement

variable {given : Assumptions} {pair : NodePair}

/-- A judgement that rests on nothing further. -/
def settled (related : Bool) (count : Nat) : Judgement given :=
  ⟨related, count, given, fun _ h => h⟩

/-- The judgement of a pair from that of what follows, for which the pair was assumed. -/
def leave (strategy : Strategy) (hnew : pair ∉ given) (j : Judgement (given.insert pair)) :
    Judgement given where
  related := j.related
  count := j.count + 1
  assumed := strategy.release j.assumed pair
  keeps p hp := by
    have hp' : p ∈ j.assumed := j.keeps p (Assumptions.mem_insert.mpr (.inr hp))
    cases strategy with
    | retaining => exact hp'
    | discharging =>
      refine Assumptions.mem_erase.mpr ⟨?_, hp'⟩
      rintro rfl
      exact hnew hp

/-- Two judgements one after the other, the second of which decides. -/
def andThen (j : Judgement given) (j' : Judgement j.assumed) : Judgement given :=
  ⟨j'.related, j.count + j'.count, j'.assumed, fun p hp => j'.keeps p (j.keeps p hp)⟩

end Judgement

/-- A needed and an offered continuation as a pair of a left and a right node. -/
def Polarity.orient : Polarity → NodePair → NodePair
  | .input => Prod.swap
  | .output => id

namespace Comparison

/-- The number of pairs of nodes that are not assumed. -/
def unassumed (c : Comparison) (assumed : Assumptions) : Nat :=
  ((Walk.allPairs c).filter (· ∉ assumed)).length

theorem unassumed_le (c : Comparison) {assumed assumed' : Assumptions}
    (h : ∀ p ∈ assumed, p ∈ assumed') : c.unassumed assumed' ≤ c.unassumed assumed := by
  refine (List.monotone_filter_right _ fun p hp => ?_).length_le
  simp only [decide_eq_true_eq] at hp ⊢
  exact fun hmem => hp (h p hmem)

theorem unassumed_insert_lt {c : Comparison} {assumed : Assumptions} {pair : NodePair}
    {left right : Node} (hl : c.left.node pair.1 = .ok left) (hr : c.right.node pair.2 = .ok right)
    (hnew : pair ∉ assumed) : c.unassumed (assumed.insert pair) < c.unassumed assumed := by
  have hfilter : (Walk.allPairs c).filter (· ∉ assumed.insert pair) =
      ((Walk.allPairs c).filter (· ∉ assumed)).filter (· ≠ pair) := by
    rw [List.filter_filter]
    congr 1
    funext p
    simp [Bool.decide_and]
  unfold unassumed
  rw [hfilter, List.length_filter_lt_length_iff_exists]
  exact ⟨pair, by simp [Walk.mem_allPairs hl hr, hnew], by simp⟩

mutual

/-- Judges a pair when the pairs of `assumed` are assumed. -/
def judge (c : Comparison) (assumed : Assumptions) (pair : NodePair) :
    Except Fault (Judgement assumed) :=
  if hnew : pair ∈ assumed then .ok (.settled true 1)
  else
    match hl : c.left.node pair.1 with
    | .error fault => .error fault
    | .ok left =>
      match hr : c.right.node pair.2 with
      | .error fault => .error fault
      | .ok right => c.judgeNodes hnew (unassumed_insert_lt hl hr hnew) left right
termination_by (c.unassumed assumed, 1)

/-- Judges a pair that is not assumed by the rule for its nodes. -/
def judgeNodes (c : Comparison) {assumed : Assumptions} {pair : NodePair} (hnew : pair ∉ assumed)
    (_ : c.unassumed (assumed.insert pair) < c.unassumed assumed) :
    (left right : Node) → Except Fault (Judgement assumed)
  | .done, .done => .ok (.settled true 1)
  | .message .input participant payload next, .message .input participant' payload' next' =>
    if participant = participant' ∧ payload'.fits payload then
      (c.judge (assumed.insert pair) (next, next')).map (.leave c.strategy hnew)
    else .ok (.settled false 1)
  | .message .output participant payload next, .message .output participant' payload' next' =>
    if participant = participant' ∧ payload.fits payload' then
      (c.judge (assumed.insert pair) (next, next')).map (.leave c.strategy hnew)
    else .ok (.settled false 1)
  | .choice .output participant branches, .choice .output participant' branches' =>
    if participant = participant' then
      (c.judgeLabels .output (assumed.insert pair) branches branches').map (.leave c.strategy hnew)
    else .ok (.settled false 1)
  | .choice .input participant branches, .choice .input participant' branches' =>
    if participant = participant' then
      (c.judgeLabels .input (assumed.insert pair) branches' branches).map (.leave c.strategy hnew)
    else .ok (.settled false 1)
  | _, _ => .ok (.settled false 1)
termination_by (c.unassumed assumed, 0)

/-- Judges the continuations of the needed labels, each with that of the same label on offer. A
label is looked for behind what was passed over for those before it. The first that is not found,
or whose continuations are not related, settles it, and no later one is looked at. -/
def judgeLabels (c : Comparison) (polarity : Polarity) (assumed : Assumptions)
    (needed offered : List (Label × NodeId)) : Except Fault (Judgement assumed) :=
  match needed with
  | [] => .ok (.settled true 0)
  | (label, need) :: needed =>
    match offered.dropWhile (·.1 < label) with
    | (label', offer) :: offered =>
      if label' = label then do
        let j ← c.judge assumed (polarity.orient (need, offer))
        if j.related then
          have := c.unassumed_le j.keeps
          let j' ← c.judgeLabels polarity j.assumed needed offered
          return j.andThen j'
        else return j
      else .ok (.settled false 0)
    | [] => .ok (.settled false 0)
termination_by (c.unassumed assumed, needed.length + 1)
decreasing_by
  · exact .right _ (by simp)
  · rcases Nat.lt_or_eq_of_le this with hlt | heq
    · exact .left _ _ hlt
    · rw [heq]
      exact .right _ (by simp)

end

section Judge

variable {c : Comparison} {assumed : Assumptions} {pair : NodePair}

theorem judge_of_mem (h : pair ∈ assumed) : c.judge assumed pair = .ok (.settled true 1) := by
  rw [judge, dif_pos h]

theorem judge_of_error {fault : Fault} (hnew : pair ∉ assumed)
    (hd : demandAt c.left c.right pair = .error fault) : c.judge assumed pair = .error fault := by
  unfold demandAt at hd
  rw [judge, dif_neg hnew]
  split
  · rename_i fault' hl
    rw [hl] at hd
    cases hd
    rfl
  · rename_i left hl
    rw [hl] at hd
    split
    · rename_i fault' hr
      rw [hr] at hd
      cases hd
      rfl
    · rename_i right hr
      rw [hr] at hd
      cases hd

/-- What a judgement is when the rules demand something of a pair that is not assumed. -/
inductive Rests (c : Comparison) (assumed : Assumptions) (pair : NodePair) (hnew : pair ∉ assumed) :
    Demand → Except Fault (Judgement assumed) → Prop
  | settled (related : Bool) :
      c.Rests assumed pair hnew (.settled related) (.ok (.settled related 1))
  | next (next : NodePair) : c.Rests assumed pair hnew (.expand [next] true)
      ((c.judge (assumed.insert pair) next).map (.leave c.strategy hnew))
  | labels (polarity : Polarity) (needed offered : List (Label × NodeId)) :
      c.Rests assumed pair hnew
        (.expand ((matchLabels needed offered).1.map polarity.orient)
          (matchLabels needed offered).2)
        ((c.judgeLabels polarity (assumed.insert pair) needed offered).map
          (.leave c.strategy hnew))

/-- A rule that does not apply settles it. -/
theorem Rests.ite {hnew : pair ∉ assumed} {d : Demand} {outcome : Except Fault (Judgement assumed)}
    (h : c.Rests assumed pair hnew d outcome) (P : Prop) [Decidable P] :
    c.Rests assumed pair hnew (if P then d else .settled false)
      (if P then outcome else .ok (.settled false 1)) := by
  split
  · exact h
  · exact .settled false

theorem rests_of_nodes (hnew : pair ∉ assumed)
    (hless : c.unassumed (assumed.insert pair) < c.unassumed assumed) (left right : Node) :
    c.Rests assumed pair hnew (left.demand right) (c.judgeNodes hnew hless left right) := by
  rw [judgeNodes.eq_def]
  split
  · exact .settled true
  · simp only [Node.demand, Polarity.payloadFits, true_and]
    exact Rests.ite (.next _) _
  · simp only [Node.demand, Polarity.payloadFits, true_and]
    exact Rests.ite (.next _) _
  · rename_i branches _ branches'
    have hrests : c.Rests assumed pair hnew _ _ := .labels .output branches branches'
    rw [Polarity.orient, List.map_id] at hrests
    simp only [Node.demand, true_and]
    exact hrests.ite _
  · rename_i branches _ branches'
    simp only [Node.demand, true_and]
    exact Rests.ite (.labels .input branches' branches) _
  · rename_i hdone hreceive hsend hbranch hselect
    have hd : left.demand right = .settled false := by
      unfold Node.demand
      split
      · exact (hdone rfl rfl).elim
      · refine if_neg ?_
        rintro ⟨rfl, -, -⟩
        rename_i polarity _ _ _ _ _ _
        cases polarity with
        | input => exact hreceive _ _ _ _ _ _ rfl rfl
        | output => exact hsend _ _ _ _ _ _ rfl rfl
      · refine if_neg ?_
        rintro ⟨rfl, -⟩
        rename_i polarity _ _ _ _
        cases polarity with
        | input => exact hselect _ _ _ _ rfl rfl
        | output => exact hbranch _ _ _ _ rfl rfl
      · rfl
    rw [hd]
    exact .settled false

theorem rests_of_demand {d : Demand} (hnew : pair ∉ assumed)
    (hd : demandAt c.left c.right pair = .ok d) :
    c.Rests assumed pair hnew d (c.judge assumed pair) := by
  obtain ⟨left, right, hl, hr, rfl⟩ := demandAt_eq_ok_iff.mp hd
  rw [judge, dif_neg hnew]
  split
  · rename_i hl'
    rw [hl] at hl'
    cases hl'
  rename_i left' hl'
  split
  · rename_i hr'
    rw [hr] at hr'
    cases hr'
  rename_i right' hr'
  rw [hl, Except.ok.injEq] at hl'
  rw [hr, Except.ok.injEq] at hr'
  subst hl' hr'
  exact rests_of_nodes hnew _ left right

end Judge

end Comparison

/-! ## A walk judges -/

namespace Walk

variable {c : Comparison}

/-- Rounds lead from one state to another or to a fault. -/
inductive LeadsTo (c : Comparison) : Except Fault Walk → Except Fault Walk → Prop
  | refl (x : Except Fault Walk) : LeadsTo c x x
  | round {w : Walk} {x : Except Fault Walk} (hs : w.stack ≠ [])
      (h : LeadsTo c (w.advance c .never) x) : LeadsTo c (.ok w) x

theorem LeadsTo.trans {x y z : Except Fault Walk} (h : LeadsTo c x y) (h' : LeadsTo c y z) :
    LeadsTo c x z := by
  induction h with
  | refl => exact h'
  | round hs _ ih => exact .round hs (ih h')

/-- The next pair that is asked for is looked at. -/
theorem leadsTo_of_pending {pair next : NodePair} {pending : List NodePair} {complete : Bool}
    {rest : List OpenPair} {assumed : Assumptions} {steps : Nat} {x : Except Fault Walk}
    (h : LeadsTo c
      (inspect ⟨⟨pair, pending, complete⟩ :: rest, assumed, steps, true⟩ c false next) x) :
    LeadsTo c (.ok ⟨⟨pair, next :: pending, complete⟩ :: rest, assumed, steps, true⟩) x := by
  refine .round (List.cons_ne_nil _ _) ?_
  rwa [advance_of_pending rfl rfl]

/-- A pair is left when it asks for no more or has failed. -/
theorem leadsTo_of_leave {top : OpenPair} {rest : List OpenPair} {assumed : Assumptions}
    {steps : Nat} {holds : Bool} (h : holds = false ∨ top.pending = []) :
    LeadsTo c (.ok ⟨top :: rest, assumed, steps, holds⟩)
      (.ok ⟨rest, c.strategy.release assumed top.pair, steps, holds && top.complete⟩) := by
  refine .round (List.cons_ne_nil _ _) ?_
  rw [advance_of_leave rfl h]
  exact .refl _

theorem run_of_leadsTo {w : Walk} {x : Except Fault Walk} (hw : w.Consistent)
    (h : LeadsTo c (.ok w) x) (hx : ∀ w', x = .ok w' → w'.stack = []) :
    w.run c .never hw = x := by
  generalize hy : Except.ok w = y at h
  induction h generalizing w with
  | refl =>
    subst hy
    exact run_of_nil hw (hx w rfl)
  | @round w' x hs h ih =>
    cases hy
    rcases hadvance : w'.advance c .never with fault | w''
    · rw [hadvance] at h
      cases h
      exact run_of_error hw hs hadvance
    · rw [run_of_ok hw hs hadvance]
      exact ih _ hx hadvance.symm

/-- The walk after a pair was looked at, with all that was looked at for it, and judged. -/
def after (w : Walk) (j : Judgement w.assumed) : Walk :=
  ⟨w.stack, j.assumed, w.steps + j.count, j.related⟩

/-- A walk that has left a pair and one that has looked at it before what follows count alike. -/
theorem after_leave (w : Walk) {pair : NodePair} (hnew : pair ∉ w.assumed)
    (j : Judgement (w.assumed.insert pair)) :
    w.after (j.leave c.strategy hnew) =
      ⟨w.stack, c.strategy.release j.assumed pair, w.steps + 1 + j.count, j.related⟩ := by
  simp only [after, Judgement.leave, Nat.add_right_comm, Nat.add_assoc]

/-- An open pair that asks for the labels of a choice is left as their judgement says, if the pairs
that are asked for are looked at as judged. -/
theorem leadsTo_judgeLabels {bound : Nat}
    (hjudge : ∀ (w : Walk) (pair : NodePair), c.unassumed w.assumed < bound →
      LeadsTo c (w.inspect c false pair) ((c.judge w.assumed pair).map w.after))
    (polarity : Polarity) {assumed : Assumptions} (hassumed : c.unassumed assumed < bound)
    (needed offered : List (Label × NodeId)) (pair : NodePair) (rest : List OpenPair)
    (steps : Nat) :
    LeadsTo c
      (.ok ⟨⟨pair, (matchLabels needed offered).1.map polarity.orient,
        (matchLabels needed offered).2⟩ :: rest, assumed, steps, true⟩)
      ((c.judgeLabels polarity assumed needed offered).map fun j =>
        ⟨rest, c.strategy.release j.assumed pair, steps + j.count, j.related⟩) := by
  induction needed generalizing assumed offered steps with
  | nil =>
    rw [Comparison.judgeLabels.eq_def]
    exact leadsTo_of_leave (.inr rfl)
  | cons first needed ih =>
    obtain ⟨label, need⟩ := first
    rw [Comparison.judgeLabels.eq_def]
    simp only [matchLabels]
    generalize offered.dropWhile _ = dropped
    rcases dropped with _ | ⟨⟨label', offer⟩, offered'⟩
    · exact leadsTo_of_leave (.inr rfl)
    by_cases hlabel : label' = label
    · simp only [hlabel, if_true, List.map_cons]
      have hfirst := hjudge ⟨⟨pair, (matchLabels needed offered').1.map polarity.orient,
        (matchLabels needed offered').2⟩ :: rest, assumed, steps, true⟩
        (polarity.orient (need, offer)) hassumed
      refine (leadsTo_of_pending hfirst).trans ?_
      rcases c.judge assumed (polarity.orient (need, offer)) with fault | j
      · exact .refl _
      rcases hj : j.related with _ | _
      · simp only [bind, Except.bind, pure, Except.pure, Except.map, after, hj, Bool.false_eq_true,
          if_false]
        exact leadsTo_of_leave (.inl rfl)
      · have hrest := ih (Nat.lt_of_le_of_lt (c.unassumed_le j.keeps) hassumed) offered'
          (steps + j.count)
        simp only [bind, Except.bind, Except.map, after, hj, if_true]
        rcases hj' : c.judgeLabels polarity j.assumed needed offered' with fault | j'
        · rw [hj'] at hrest
          exact hrest
        · rw [hj'] at hrest
          simp only [Except.map, Nat.add_assoc] at hrest
          exact hrest
    · simp only [hlabel, if_false]
      exact leadsTo_of_leave (.inr rfl)

/-- Looking at a pair leads to where its judgement says, whatever the stack is. -/
theorem leadsTo_judge (c : Comparison) (w : Walk) (pair : NodePair) :
    LeadsTo c (w.inspect c false pair) ((c.judge w.assumed pair).map w.after) := by
  induction hbound : c.unassumed w.assumed using Nat.strongRecOn generalizing w pair with
  | ind bound ih =>
    by_cases hnew : pair ∈ w.assumed
    · rw [inspect_of_mem hnew, Comparison.judge_of_mem hnew]
      exact .refl _
    rw [inspect_of_not_mem hnew]
    rcases hd : demandAt c.left c.right pair with fault | d
    · rw [Comparison.judge_of_error hnew hd]
      exact .refl _
    -- what follows is judged with one pair more assumed
    have hless : c.unassumed (w.assumed.insert pair) < bound := by
      obtain ⟨l, r, hl, hr, -⟩ := demandAt_eq_ok_iff.mp hd
      exact hbound ▸ Comparison.unassumed_insert_lt hl hr hnew
    have hrests := Comparison.rests_of_demand hnew hd
    generalize c.judge w.assumed pair = outcome at hrests
    cases hrests with
    | settled related => exact .refl _
    | next next =>
      have hnext := ih _ hless
        ⟨⟨pair, [], true⟩ :: w.stack, w.assumed.insert pair, w.steps + 1, true⟩ next rfl
      refine (leadsTo_of_pending hnext).trans ?_
      rcases c.judge (w.assumed.insert pair) next with fault | j
      · exact .refl _
      · simp only [Except.map, after_leave]
        have hleave : LeadsTo c
            (.ok ⟨⟨pair, [], true⟩ :: w.stack, j.assumed, w.steps + 1 + j.count, j.related⟩) _ :=
          leadsTo_of_leave (.inr rfl)
        rwa [Bool.and_true] at hleave
    | labels polarity needed offered =>
      have hlabels := leadsTo_judgeLabels (fun w pair hw => ih _ hw w pair rfl) polarity hless
        needed offered pair w.stack (w.steps + 1)
      rcases hj : c.judgeLabels polarity (w.assumed.insert pair) needed offered with fault | j
      · rw [hj] at hlabels
        exact hlabels
      · rw [hj] at hlabels
        simp only [Except.map, after_leave]
        exact hlabels

end Walk

namespace Comparison

variable {c : Comparison} {start : NodePair}

theorem walk_of_leadsTo {x : Except Fault Walk}
    (h : Walk.LeadsTo c (Walk.idle.inspect c false start) x)
    (hx : ∀ w, x = .ok w → w.stack = []) : c.walk .never start = x := by
  rcases hfirst : Walk.idle.inspect c false start with fault | w
  · rw [hfirst] at h
    cases h
    exact walk_of_error hfirst
  · rw [hfirst] at h
    rw [walk_of_ok hfirst]
    exact Walk.run_of_leadsTo _ h hx

/-- A walk gives the verdict of the recursive rules, looks at as many pairs and ends with the same
pairs assumed, or it stops at the same fault. -/
theorem walk_eq_judge (c : Comparison) (start : NodePair) :
    c.walk .never start = (c.judge .empty start).map fun j =>
      { stack := [], assumed := j.assumed, steps := j.count, holds := j.related } := by
  have hleads : Walk.LeadsTo c (Walk.idle.inspect c false start)
      ((c.judge .empty start).map fun j => ⟨[], j.assumed, 0 + j.count, j.related⟩) :=
    Walk.leadsTo_judge c .idle start
  simp only [Nat.zero_add] at hleads
  refine walk_of_leadsTo hleads fun w hw => ?_
  rcases hj : c.judge .empty start with fault | j
  · rw [hj] at hw
    cases hw
  · rw [hj] at hw
    cases hw
    rfl

end Comparison

end SessionGraph
