import SessionGraph.Graph

/-!
# What the subtyping rules ask of two nodes

A pair of nodes is settled at once or asks that other pairs be related (`Node.demand`). Inputs may
be replaced by ones that accept more, and outputs by ones that produce less: a received payload on
the right fits the one on the left and the labels on the right are needed, a sent payload on the
left fits the one on the right and the labels on the left are needed.

The labels of a choice ascend, so the needed ones are found among those on offer in one pass over
both (`matchLabels`).
-/

namespace SessionGraph

/-- A node of the left graph and a node of the right one. -/
abbrev NodePair := NodeId × NodeId

/-- Finds the needed labels among those on offer, both taken to ascend. Gives the continuations of
the labels found before the first that is missing, and whether none is. -/
def matchLabels : (needed offered : List (Label × NodeId)) → List NodePair × Bool
  | [], _ => ([], true)
  | (label, need) :: needed, offered =>
    match offered.dropWhile (·.1 < label) with
    | (label', offer) :: offered' =>
      if label' = label then
        let (found, complete) := matchLabels needed offered'
        ((need, offer) :: found, complete)
      else ([], false)
    | [] => ([], false)

/-- What has to hold for two nodes to be related. -/
inductive Demand where
  /-- Nothing more has to be looked at. -/
  | settled (related : Bool)
  /-- All of `pending` has to be related; even then the nodes are not unless `complete`. -/
  | expand (pending : List NodePair) (complete : Bool)
deriving DecidableEq, Repr

namespace Polarity

/-- Whether a payload on the left may stand for one on the right. -/
def payloadFits : Polarity → Payload → Payload → Bool
  | .input, left, right => right.fits left
  | .output, left, right => left.fits right

/-- The continuations that a choice on the left and one on the right share, and whether no needed
label is missing. -/
def matchBranches : Polarity → (left right : List (Label × NodeId)) → List NodePair × Bool
  | .input, left, right =>
    let (found, complete) := matchLabels right left
    (found.map Prod.swap, complete)
  | .output, left, right => matchLabels left right

end Polarity

namespace Node

/-- The rule for a pair of nodes. -/
def demand : (left right : Node) → Demand
  | .done, .done => .settled true
  | .message polarity participant payload next, .message polarity' participant' payload' next' =>
    if polarity = polarity' ∧ participant = participant' ∧ polarity.payloadFits payload payload' then
      .expand [(next, next')] true
    else .settled false
  | .choice polarity participant branches, .choice polarity' participant' branches' =>
    if polarity = polarity' ∧ participant = participant' then
      let (pending, complete) := polarity.matchBranches branches branches'
      .expand pending complete
    else .settled false
  | _, _ => .settled false

end Node

/-! ## The number of pairs asked for -/

theorem length_matchLabels_le (needed offered : List (Label × NodeId)) :
    (matchLabels needed offered).1.length ≤ needed.length := by
  induction needed generalizing offered with
  | nil => simp [matchLabels]
  | cons first needed ih =>
    obtain ⟨label, need⟩ := first
    simp only [matchLabels]
    split
    · split
      · simpa using ih _
      · simp
    · simp

theorem length_matchBranches_le (polarity : Polarity) (left right : List (Label × NodeId)) :
    (polarity.matchBranches left right).1.length ≤ left.length + right.length := by
  cases polarity with
  | input =>
    have := length_matchLabels_le right left
    simp only [Polarity.matchBranches, List.length_map]
    omega
  | output =>
    have := length_matchLabels_le left right
    simp only [Polarity.matchBranches]
    omega

theorem length_pending_le {left right : Node} {pending : List NodePair} {complete : Bool}
    (h : left.demand right = .expand pending complete) :
    pending.length ≤ left.successors.length + right.successors.length := by
  unfold Node.demand at h
  split at h
  · cases h
  · split at h
    · cases h
      simp [Node.successors]
    · cases h
  · rename_i polarity _ branches _ _ branches'
    split at h
    · simp only [Demand.expand.injEq] at h
      obtain ⟨rfl, -⟩ := h
      simpa [Node.successors] using length_matchBranches_le polarity branches branches'
    · cases h
  · cases h

end SessionGraph
