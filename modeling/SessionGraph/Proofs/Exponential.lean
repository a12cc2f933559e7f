import SessionGraph.Family.Exponential
import SessionGraph.Proofs.Outcome

/-!
# The nodes of the exponential family

The member `k` of the family is made by adding choices and then their branches. What comes out is
the cycle, the sink and the chains, one behind the other (`member_eq`). Branches are only added to
choices that are there, so all that can go wrong is that the node ids do not suffice, and whether
they do depends on the number of nodes alone (`within`).
-/

namespace SessionGraph.ExponentialFamily

/-! ## The nodes in their order -/

/-- A choice with the two labels of the family. -/
def fork (first second : NodeId) : Node := .choice .output 0 [(1, first), (2, second)]

/-- The number of nodes of the chain that starts at position `i` of the cycle. -/
def chainLength (k i : Nat) : Nat := k - 1 - i

/-- The number of nodes of the first `i` chains. -/
def chainsLength (k : Nat) : (i : Nat) → Nat
  | 0 => 0
  | i + 1 => chainsLength k i + chainLength k i

/-- Where the chain that starts at position `i` of the cycle lies: behind the cycle, the sink and
the chains before it. -/
def chainStart (k i : Nat) : NodeId := k + 1 + chainsLength k i

/-- The choice at position `i` of the cycle. -/
def cycleNode (k i : Nat) : Node :=
  if i + 1 < k then fork (i + 1) (chainStart k i) else fork 0 0

/-- The choice at position `j` of the chain that starts at position `i` of the cycle. -/
def chainNode (k i j : Nat) : Node :=
  if j + 1 < chainLength k i then fork (chainStart k i + j + 1) k else fork 0 k

/-- The chain that starts at position `i` of the cycle. -/
def chain (k i : Nat) : List Node := (List.range (chainLength k i)).map (chainNode k i)

/-- The nodes of the member `k`: the cycle, the sink and the chains. -/
def nodes (k : Nat) : List Node :=
  (List.range k).map (cycleNode k) ++ fork k k :: (List.range (k - 1)).flatMap (chain k)

theorem chainsLength_succ (k i : Nat) :
    chainsLength k (i + 1) = chainsLength k i + (k - 1 - i) := rfl

theorem chainsLength_le {k i i' : Nat} (h : i ≤ i') : chainsLength k i ≤ chainsLength k i' := by
  induction h with
  | refl => exact Nat.le_refl _
  | step _ ih =>
    rw [chainsLength_succ]
    omega

theorem length_flatMap_chain (k i : Nat) :
    ((List.range i).flatMap (chain k)).length = chainsLength k i := by
  induction i with
  | zero => rfl
  | succ i ih => simp [List.range_succ, chainsLength, ih, chain]

/-! ## Enough ids -/

section Within

variable {α β : Type}

/-- The value if there are ids for `size` nodes. -/
def within (size : Nat) (a : α) : Except Fault α :=
  if size ≤ NodeId.limit then .ok a else .error .idSpace

theorem within_of_le {size : Nat} (h : size ≤ NodeId.limit) (a : α) : within size a = .ok a :=
  if_pos h

theorem within_eq_ok_iff {size : Nat} {a b : α} :
    within size a = .ok b ↔ size ≤ NodeId.limit ∧ b = a := by
  unfold within
  by_cases h : size ≤ NodeId.limit <;> simp [h, eq_comm]

/-- More nodes need more ids. -/
theorem within_bind {m n : Nat} {a : α} {b : β} {f : α → Except Fault β} (hmn : m ≤ n)
    (h : m ≤ NodeId.limit → f a = within n b) : (within m a >>= f) = within n b := by
  unfold within
  split
  · exact h ‹_›
  · rw [if_neg fun hn => ‹¬ _› (Nat.le_trans hmn hn)]
    rfl

end Within

/-! ## Adding choices and branches -/

/-- The nodes in a row, without a root. -/
def row (ns : List Node) : Graph := ⟨ns.toArray, none⟩

/-- A choice without branches. -/
def bare : Node := .choice .output 0 []

/-- A choice with the first of its branches. -/
def half (first : NodeId) : Node := .choice .output 0 [(1, first)]

theorem pushChoice_row (ns : List Node) :
    pushChoice (row ns) = within (ns.length + 1) (ns.length, row (ns ++ [bare])) := by
  simp only [pushChoice, Graph.push, NodeId.ofIndex, row, Graph.size, within, bare,
    List.size_toArray, Nat.succ_le_iff]
  split
  · simp [bind, Except.bind, pure, Except.pure]
  · rfl

theorem link_row {ns ns' : List Node} {source target : NodeId} {label : Label}
    {branches : List (Label × NodeId)} (hsource : source = ns.length) :
    link (row (ns ++ .choice .output 0 branches :: ns')) source label target =
      .ok (row (ns ++ .choice .output 0 (branches ++ [(label, target)]) :: ns')) := by
  subst hsource
  have hnode : (row (ns ++ .choice .output 0 branches :: ns')).node ns.length =
      .ok (.choice .output 0 branches) := by
    rw [Graph.node_eq_ok_iff]
    simp [row]
  have hlt : ns.length < (row (ns ++ .choice .output 0 branches :: ns')).size := by
    simp [row, Graph.size]
  simp only [link, hnode, bind, Except.bind, Graph.setNode, if_pos hlt]
  simp [row]

theorem link_bare {ns ns' : List Node} {source target : NodeId} (hsource : source = ns.length) :
    link (row (ns ++ bare :: ns')) source 1 target = .ok (row (ns ++ half target :: ns')) :=
  link_row hsource

theorem link_half {ns ns' : List Node} {source first second : NodeId}
    (hsource : source = ns.length) :
    link (row (ns ++ half first :: ns')) source 2 second =
      .ok (row (ns ++ fork first second :: ns')) :=
  link_row hsource

theorem pushChoices_row {ns : List Node} (count : Nat) (h : ns.length ≤ NodeId.limit) :
    pushChoices (row ns) count = within (ns.length + count)
      (List.range' ns.length count, row (ns ++ List.replicate count bare)) := by
  induction count generalizing ns with
  | zero => simp [pushChoices, within, h]
  | succ count ih =>
    have hlength : (ns ++ [bare]).length = ns.length + 1 := by simp
    rw [pushChoices, pushChoice_row]
    refine within_bind (by omega) fun hle => ?_
    dsimp only
    rw [ih (hlength ▸ hle), hlength]
    refine within_bind (by omega) fun hle => ?_
    rw [within_of_le (by omega)]
    simp [List.range'_succ, List.replicate_succ, pure, Except.pure]

/-- The choices of a row get their first branches, all but the last. -/
theorem linkRow_row {ns ns' : List Node} (m : Nat) :
    linkRow (row (ns ++ List.replicate (m + 1) bare ++ ns')) (List.range' ns.length (m + 1)) =
      .ok (row (ns ++ (List.range' ns.length m).map (fun i => half (i + 1)) ++ bare :: ns')) := by
  induction m generalizing ns with
  | zero => simp [List.range'_succ, linkRow]
  | succ m ih =>
    have hlength : (ns ++ [half (ns.length + 1)]).length = ns.length + 1 := by simp
    have hrow : ns ++ List.replicate (m + 2) bare ++ ns' =
        ns ++ bare :: (List.replicate (m + 1) bare ++ ns') := by simp [List.replicate_succ]
    have hrest := @ih (ns ++ [half (ns.length + 1)])
    rw [hlength] at hrest
    rw [hrow, List.range'_succ, List.range'_succ, linkRow, link_bare rfl]
    simpa [List.range'_succ, bind, Except.bind] using hrest

/-- A chain that goes on for `count` more choices behind the one at `start`. -/
def chainFrom (start sink : NodeId) : (count : Nat) → List Node
  | 0 => [fork 0 sink]
  | count + 1 => fork (start + 1) sink :: chainFrom (start + 1) sink count

theorem extendChain_row {ns : List Node} {sink : NodeId} (count : Nat)
    (h : ns.length + 1 ≤ NodeId.limit) :
    extendChain (row (ns ++ [bare])) 0 sink ns.length count =
      within (ns.length + 1 + count) (row (ns ++ chainFrom ns.length sink count)) := by
  induction count generalizing ns with
  | zero =>
    rw [extendChain, link_bare rfl, within_of_le h]
    exact link_half rfl
  | succ count ih =>
    have hlength : (ns ++ [fork (ns.length + 1) sink]).length = ns.length + 1 := by simp
    have hpush : (ns ++ [bare]).length = ns.length + 1 := by simp
    rw [extendChain, pushChoice_row, hpush]
    refine within_bind (by omega) fun hle => ?_
    have hrest := @ih (ns ++ [fork (ns.length + 1) sink]) (by rwa [hlength])
    rw [hlength] at hrest
    dsimp only
    rw [List.append_assoc, List.singleton_append, link_bare rfl]
    dsimp only [bind, Except.bind]
    rw [link_half rfl]
    simpa [chainFrom, Nat.add_assoc, Nat.add_comm, Nat.add_left_comm] using hrest

theorem map_range_chainFrom (start sink : NodeId) (count : Nat) :
    (List.range (count + 1)).map (fun j =>
      if j < count then fork (start + j + 1) sink else fork 0 sink) =
      chainFrom start sink count := by
  induction count generalizing start with
  | zero => rfl
  | succ count ih =>
    rw [List.range_succ_eq_map, chainFrom, ← ih (start + 1)]
    simp [Nat.add_assoc, Nat.add_comm, Nat.add_left_comm]

theorem chain_eq {k i : Nat} (hi : i + 1 < k) :
    chain k i = chainFrom (chainStart k i) k (k - (i + 2)) := by
  have hlength : chainLength k i = k - (i + 2) + 1 := by
    unfold chainLength
    omega
  rw [chain, hlength, ← map_range_chainFrom]
  refine List.map_congr_left fun j _ => ?_
  simp only [chainNode, hlength, Nat.add_lt_add_iff_right]

/-- The choice at position `i` of the cycle before it gets its second branch. -/
def halfNode (k i : Nat) : Node := half (if i + 1 < k then i + 1 else 0)

/-- The nodes when the first `i` choices of the cycle have both branches. -/
def stage (k i : Nat) : List Node :=
  (List.range i).map (cycleNode k) ++ (List.range' i (k - i)).map (halfNode k) ++
    fork k k :: (List.range i).flatMap (chain k)

theorem length_stage {k i : Nat} (hi : i ≤ k) : (stage k i).length = k + 1 + chainsLength k i := by
  simp only [stage, List.length_append, List.length_map, List.length_range, List.length_range',
    List.length_cons, length_flatMap_chain]
  omega

theorem stage_self {k : Nat} (hk : 0 < k) : stage k k = nodes k := by
  obtain ⟨m, rfl⟩ : ∃ m, k = m + 1 := ⟨k - 1, by omega⟩
  simp [stage, nodes, List.range_succ, chain, chainLength]

theorem stage_eq {k i : Nat} (hi : i < k) :
    stage k i = (List.range i).map (cycleNode k) ++ halfNode k i ::
      ((List.range' (i + 1) (k - (i + 1))).map (halfNode k) ++
        fork k k :: (List.range i).flatMap (chain k)) := by
  obtain ⟨r, hr⟩ : ∃ r, k - i = r + 1 := ⟨k - i - 1, by omega⟩
  rw [stage, hr, List.range'_succ, show k - (i + 1) = r by omega]
  simp

theorem stage_succ {k i : Nat} :
    stage k (i + 1) = (List.range i).map (cycleNode k) ++ cycleNode k i ::
      ((List.range' (i + 1) (k - (i + 1))).map (halfNode k) ++
        fork k k :: ((List.range i).flatMap (chain k) ++ chain k i)) := by
  simp [stage, List.range_succ]

/-- The last choice of the cycle leads to the root. -/
theorem link_stage {k i : Nat} (hi : i + 1 = k) :
    link (row (stage k i)) i 2 0 = .ok (row (stage k (i + 1))) := by
  have hhalf : halfNode k i = half 0 := by simp [halfNode, hi]
  have hcycle : cycleNode k i = fork 0 0 := by simp [cycleNode, hi]
  have hchain : chain k i = [] := by simp [chain, chainLength, ← hi]
  rw [stage_eq (by omega), hhalf, link_half (by simp), stage_succ, hcycle, hchain, List.append_nil]

/-- Any other gets a chain. -/
theorem extendChain_stage {k i : Nat} (hi : i + 1 < k)
    (h : (stage k i).length + 1 ≤ NodeId.limit) :
    (do
      let g ← link (row (stage k i ++ [bare])) i 2 (stage k i).length
      extendChain g 0 k (stage k i).length (k - (i + 2))) =
      within (stage k (i + 1)).length (row (stage k (i + 1))) := by
  have hstart : (stage k i).length = chainStart k i := length_stage (by omega)
  have hhalf : halfNode k i = half (i + 1) := by simp [halfNode, hi]
  have hcycle : cycleNode k i = fork (i + 1) (chainStart k i) := by simp [cycleNode, hi]
  -- the chain starts behind all that is there
  let before : List Node := (List.range i).map (cycleNode k) ++ cycleNode k i ::
    ((List.range' (i + 1) (k - (i + 1))).map (halfNode k) ++
      fork k k :: (List.range i).flatMap (chain k))
  have hbefore : before.length = chainStart k i := by
    rw [← hstart, stage_eq (by omega)]
    simp [before]
  have hlink : link (row (stage k i ++ [bare])) i 2 (chainStart k i) =
      .ok (row (before ++ [bare])) := by
    rw [stage_eq (by omega), hhalf, List.append_assoc, List.cons_append, link_half (by simp)]
    simp [before, hcycle]
  have hafter : before ++ chainFrom (chainStart k i) k (k - (i + 2)) = stage k (i + 1) := by
    rw [← chain_eq hi, stage_succ]
    simp [before]
  have hlength : chainStart k i + 1 + (k - (i + 2)) = (stage k (i + 1)).length := by
    rw [length_stage (by omega), chainsLength_succ]
    change k + 1 + chainsLength k i + 1 + (k - (i + 2)) = _
    omega
  rw [hstart] at h ⊢
  rw [hlink]
  have hextend := @extendChain_row before k (k - (i + 2)) (hbefore ▸ h)
  rw [hbefore, hafter, hlength] at hextend
  exact hextend

theorem addChains_row {k i r : Nat} (hi : i + r = k) (h : (stage k i).length ≤ NodeId.limit) :
    addChains (row (stage k i)) k 0 k i (List.range' i r) =
      within (stage k k).length (row (stage k k)) := by
  have hlength {j : Nat} (hj : j ≤ k) : (stage k j).length = k + 1 + chainsLength k j :=
    length_stage hj
  induction r generalizing i with
  | zero =>
    obtain rfl : i = k := hi
    simp [addChains, within, h]
  | succ r ih =>
    have hnext := chainsLength_succ k i
    have hle : chainsLength k (i + 1) ≤ chainsLength k k := chainsLength_le (by omega)
    rw [List.range'_succ, addChains]
    split
    · rename_i hlast
      rw [link_stage (by omega)]
      refine ih (by omega) ?_
      rw [hlength (by omega)] at h ⊢
      omega
    · rename_i hlast
      rw [pushChoice_row]
      refine within_bind ?_ fun hpush => ?_
      · rw [hlength (by omega), hlength (by omega)]
        omega
      · dsimp only
        rw [← bind_assoc, extendChain_stage (by omega) hpush]
        refine within_bind ?_ fun hchain => ih (by omega) hchain
        rw [hlength (by omega), hlength (by omega)]
        omega

/-- The first branches of the cycle. -/
theorem link_cycle (m : Nat) :
    (do
      let g ← linkRow (row (List.replicate (m + 1) bare)) (List.range' 0 (m + 1))
      link g m 1 0) = .ok (row ((List.range' 0 (m + 1)).map (halfNode (m + 1)))) := by
  have hrow : linkRow (row (List.replicate (m + 1) bare)) (List.range' 0 (m + 1)) =
      .ok (row ((List.range' 0 m).map (fun i => half (i + 1)) ++ [bare])) := by
    simpa using @linkRow_row [] [] m
  have hhalves : (List.range' 0 (m + 1)).map (halfNode (m + 1)) =
      (List.range' 0 m).map (fun i => half (i + 1)) ++ [half 0] := by
    rw [List.range'_1_concat, List.map_append]
    congr 1
    · refine List.map_congr_left fun i hi => ?_
      rw [List.mem_range'_1] at hi
      rw [halfNode, if_pos (by omega)]
    · simp [halfNode]
  rw [hrow, hhalves]
  exact link_bare (by simp)

/-- The sink. -/
theorem link_sink {ns : List Node} {k : Nat} (hk : k = ns.length) :
    (do
      let g ← link (row (ns ++ [bare])) k 1 k
      link g k 2 k) = .ok (row (ns ++ [fork k k])) := by
  rw [link_bare hk]
  exact link_half hk

/-- The member `k` has the nodes of the cycle, the sink and the chains, if there are ids enough. -/
theorem member_eq {k : Nat} (hk : 0 < k) :
    member k = within (nodes k).length ⟨(nodes k).toArray, some 0⟩ := by
  obtain ⟨m, rfl⟩ : ∃ m, k = m + 1 := ⟨k - 1, by omega⟩
  have hnodes : m + 1 + 1 ≤ (nodes (m + 1)).length := by
    rw [← stage_self hk, length_stage (Nat.le_refl _)]
    exact Nat.le_add_right _ _
  have hlast : (0 :: List.range' 1 m).getLast (List.cons_ne_nil _ _) = m := by
    have hconcat := List.range'_1_concat (s := 0) (n := m)
    rw [List.range'_succ, Nat.zero_add] at hconcat
    rw [List.getLast_eq_iff_getLast?_eq_some, hconcat, List.getLast?_concat,
      Nat.zero_add]
  have hcycle : ((List.range' 0 (m + 1)).map (halfNode (m + 1))).length = m + 1 := by simp
  have hstage : (List.range' 0 (m + 1)).map (halfNode (m + 1)) ++ [fork (m + 1) (m + 1)] =
      stage (m + 1) 0 := by simp [stage]
  have hempty : Graph.empty = row [] := rfl
  rw [member, if_neg (Nat.succ_ne_zero m), hempty, pushChoices_row _ (Nat.zero_le _)]
  refine within_bind (by simp; omega) fun hle => ?_
  simp only [List.length_nil, List.range'_succ, hlast, List.nil_append]
  rw [← List.range'_succ, ← bind_assoc, link_cycle]
  change (pushChoice _ >>= _) = _
  rw [pushChoice_row, hcycle]
  refine within_bind hnodes fun hle => ?_
  dsimp only
  rw [← bind_assoc, link_sink hcycle.symm, hstage]
  change (addChains _ _ _ _ _ _ >>= _) = _
  rw [addChains_row (by omega) (by rw [length_stage (Nat.zero_le _)]; exact hle), stage_self hk]
  exact within_bind (Nat.le_refl _) fun hle => (within_of_le hle _).symm

end SessionGraph.ExponentialFamily
