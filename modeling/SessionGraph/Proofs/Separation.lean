import Mathlib.Data.Nat.ModEq
import Mathlib.Tactic.Linarith
import SessionGraph.Proofs.Effort
import SessionGraph.Proofs.Exponential

/-!
# The strategies are exponentially far apart

Every node of the exponential family is a fork, so all pairs of nodes of two members are similar
and a walk that retains its assumptions stays within twice the number of pairs.

A walk that discharges them follows each label word for itself. Take the members `k` and `k + 1`
and read a word of length `k * (k + 1)`. Label 1 leads round the cycle, and so does label 2 from a
node of the cycle, through a chain. At the times `m * (k + 1)` with `m < k` both sides are on their
cycles, so both labels may be taken there. The time can be read off a pair: the two positions
within a lap are the remainders of the time by `k` and by `k + 1`, which are coprime. No pair is
thus met twice along such a word, and there are `2 ^ k` of them.
-/

namespace SessionGraph.ExponentialFamily

/-! ## The nodes of a member -/

theorem two_mul_chainsLength {k i : Nat} (h : i ≤ k) :
    2 * chainsLength k i + i * i + i = 2 * (i * k) := by
  induction i with
  | zero => simp [chainsLength]
  | succ i ih =>
    have ih := ih (by omega)
    obtain ⟨d, rfl⟩ : ∃ d, k = i + 1 + d := ⟨k - (i + 1), by omega⟩
    rw [chainsLength_succ, show i + 1 + d - 1 - i = d by omega]
    nlinarith

theorem chainsLength_eq (k : Nat) : chainsLength k (k - 1) = k * (k - 1) / 2 := by
  cases k with
  | zero => rfl
  | succ k =>
    have h := two_mul_chainsLength (k := k + 1) (i := k) (by omega)
    have h' : 2 * chainsLength (k + 1) k = (k + 1) * k := by nlinarith
    rw [Nat.add_sub_cancel, ← h', Nat.mul_div_cancel_left _ Nat.two_pos]

theorem length_nodes (k : Nat) : (nodes k).length = k + 1 + k * (k - 1) / 2 := by
  simp only [nodes, List.length_append, List.length_map, List.length_range, List.length_cons,
    length_flatMap_chain, chainsLength_eq]
  omega

theorem getElem?_cycle {k i : Nat} (h : i < k) : (nodes k)[i]? = some (cycleNode k i) := by
  rw [nodes, List.getElem?_append_left (by simpa using h)]
  simp [h]

theorem getElem?_flatMap_chain {k i j m : Nat} (hi : i < m) (hj : j < chainLength k i) :
    ((List.range m).flatMap (chain k))[chainsLength k i + j]? = some (chainNode k i j) := by
  induction m with
  | zero => omega
  | succ m ih =>
    rw [List.range_succ, List.flatMap_append, List.flatMap_singleton]
    rcases Nat.lt_succ_iff_lt_or_eq.mp hi with hi | rfl
    · rw [List.getElem?_append_left, ih hi]
      have hle := chainsLength_le (k := k) (show i + 1 ≤ m from hi)
      rw [length_flatMap_chain]
      rw [chainsLength] at hle
      omega
    · rw [List.getElem?_append_right (by rw [length_flatMap_chain]; omega), length_flatMap_chain]
      simp [chain, hj]

theorem getElem?_chain {k i j : Nat} (hi : i < k - 1) (hj : j < chainLength k i) :
    (nodes k)[chainStart k i + j]? = some (chainNode k i j) := by
  have hcycle : ((List.range k).map (cycleNode k)).length = k := by simp
  change (nodes k)[k + 1 + chainsLength k i + j]? = _
  rw [nodes, List.getElem?_append_right (by rw [hcycle]; omega), hcycle,
    show k + 1 + chainsLength k i + j - k = chainsLength k i + j + 1 by omega,
    List.getElem?_cons_succ, getElem?_flatMap_chain hi hj]

/-- The nodes of a member are forks that lead to its nodes. -/
theorem exists_fork {k : Nat} {n : Node} (hk : 0 < k) (hn : n ∈ nodes k) :
    ∃ a b : Nat, n = fork a b ∧ a < (nodes k).length ∧ b < (nodes k).length := by
  have hlength : (nodes k).length = k + 1 + chainsLength k (k - 1) := by
    rw [length_nodes, chainsLength_eq]
  rw [hlength]
  have hchain : ∀ {i}, i + 1 < k → chainsLength k i + (k - 1 - i) ≤ chainsLength k (k - 1) :=
    fun hi => chainsLength_le (show _ + 1 ≤ k - 1 by omega)
  simp only [nodes, List.mem_append, List.mem_map, List.mem_cons, List.mem_range, List.mem_flatMap,
    chain] at hn
  rcases hn with ⟨i, hi, rfl⟩ | rfl | ⟨i, hi, j, hj, rfl⟩
  · unfold cycleNode
    split
    · rename_i hi
      have := hchain hi
      exact ⟨_, _, rfl, by omega, by unfold chainStart; omega⟩
    · exact ⟨_, _, rfl, by omega, by omega⟩
  · exact ⟨_, _, rfl, by omega, by omega⟩
  · have := hchain (show i + 1 < k by omega)
    unfold chainNode
    unfold chainLength at hj ⊢
    split
    · exact ⟨_, _, rfl, by unfold chainStart; omega, by omega⟩
    · exact ⟨_, _, rfl, by omega, by omega⟩

/-- The rules ask for both continuations of two forks. -/
theorem demand_fork (a b a' b' : NodeId) :
    (fork a b).demand (fork a' b') = .expand [(a, a'), (b, b')] true := rfl

/-- The graph of the member `k`. -/
def graph (k : Nat) : Graph := ⟨(nodes k).toArray, some 0⟩

theorem size_graph (k : Nat) : (graph k).size = k + 1 + k * (k - 1) / 2 := length_nodes k

theorem node_graph {k : Nat} {id : NodeId} {n : Node} (h : (nodes k)[id]? = some n) :
    (graph k).node id = .ok n := by
  rw [Graph.node_eq_ok_iff]
  simpa [graph] using h

theorem member_eq_ok {k : Nat} (hk : 0 < k) (hspace : (graph k).size ≤ NodeId.limit) :
    member k = .ok (graph k) := by
  have hlength : (nodes k).length ≤ NodeId.limit := by
    rwa [size_graph, ← length_nodes] at hspace
  rw [member_eq hk, within_of_le hlength, graph]

/-! ## All nodes are similar -/

section Similar

variable {k k' : Nat} (hk : 0 < k) (hk' : 0 < k')

include hk hk'

theorem exists_demandAt {pair : NodePair} (hl : pair.1 < (graph k).size)
    (hr : pair.2 < (graph k').size) :
    ∃ p p' : NodePair, demandAt (graph k) (graph k') pair = .ok (.expand [p, p'] true) ∧
      ∀ q ∈ [p, p'], q.1 < (graph k).size ∧ q.2 < (graph k').size := by
  obtain ⟨l, hnl⟩ := Graph.exists_node hl
  obtain ⟨r, hnr⟩ := Graph.exists_node hr
  obtain ⟨a, b, rfl, ha, hb⟩ := exists_fork hk (Graph.mem_nodes_of_node hnl)
  obtain ⟨a', b', rfl, ha', hb'⟩ := exists_fork hk' (Graph.mem_nodes_of_node hnr)
  refine ⟨(a, a'), (b, b'), demandAt_eq_ok_iff.mpr ⟨_, _, hnl, hnr, demand_fork a b a' b'⟩, ?_⟩
  simp only [List.forall_mem_cons]
  exact ⟨⟨ha, ha'⟩, ⟨hb, hb'⟩, by simp⟩

theorem isSimulation_inBounds :
    IsSimulation (graph k) (graph k') fun p => p.1 < (graph k).size ∧ p.2 < (graph k').size := by
  rintro pair ⟨hl, hr⟩
  obtain ⟨p, p', hd, hbounds⟩ := exists_demandAt hk hk' hl hr
  exact ⟨_, hd, rfl, hbounds⟩

theorem breadth_le (strategy : Strategy) (pair : NodePair) :
    Comparison.breadth ⟨strategy, graph k, graph k'⟩ pair ≤ 2 := by
  unfold Comparison.breadth
  split
  · rename_i d hd
    obtain ⟨l, r, hnl, hnr, -⟩ := demandAt_eq_ok_iff.mp hd
    obtain ⟨p, p', hd', -⟩ :=
      exists_demandAt hk hk' (Graph.lt_size_of_node hnl) (Graph.lt_size_of_node hnr)
    rw [hd, Except.ok.injEq] at hd'
    simp [hd', Demand.pending]
  · omega

/-- A comparison of two members relates them. -/
theorem exists_walk (strategy : Strategy) :
    ∃ w, Comparison.walk ⟨strategy, graph k, graph k'⟩ .never (0, 0) = .ok w ∧
      w.holds = true := by
  have hstart : 0 < (graph k).size ∧ 0 < (graph k').size := by
    rw [size_graph, size_graph]
    omega
  have hexplorable : Explorable (graph k) (graph k')
      fun p => p.1 < (graph k).size ∧ p.2 < (graph k').size := by
    rintro pair ⟨hl, hr⟩
    obtain ⟨p, p', hd, hbounds⟩ := exists_demandAt hk hk' hl hr
    exact ⟨_, hd, hbounds⟩
  obtain ⟨w, hw⟩ : ∃ w, Comparison.walk ⟨strategy, graph k, graph k'⟩ .never (0, 0) = .ok w :=
    Comparison.exists_walk hexplorable hstart
  have hsimilar : Similar (graph k) (graph k') (0, 0) :=
    ⟨_, isSimulation_inBounds hk hk', hstart⟩
  exact ⟨w, hw, (Comparison.walk_holds_iff_similar hw).mpr hsimilar⟩

end Similar

/-! ## Words that meet no pair twice -/

/-- Where a word may have led at time `n`: round the cycle, or through the chain by which the lap
that is under way may be left. That is the chain at position `exit lap`. -/
def At (k : Nat) (exit : Nat → Nat) (n id : Nat) : Prop :=
  id = n % k ∨
    exit (n / k) < n % k ∧ id = chainStart k (exit (n / k)) + (n % k - 1 - exit (n / k))

section At

variable {k n n' id : Nat} {exit exit' : Nat → Nat}

theorem lap_succ (h : n % k + 1 < k) : (n + 1) / k = n / k ∧ (n + 1) % k = n % k + 1 := by
  have hn := Nat.mod_add_div n k
  refine (Nat.div_mod_unique (by omega)).mpr ⟨?_, h⟩
  omega

theorem at_zero (h : k ≤ n % k + 1) (hk : 0 < k) : At k exit (n + 1) 0 := by
  have hn := Nat.mod_add_div n k
  have hlt := Nat.mod_lt n hk
  have hmod : (n + 1) / k = n / k + 1 ∧ (n + 1) % k = 0 := by
    refine (Nat.div_mod_unique hk).mpr ⟨?_, hk⟩
    rw [Nat.mul_add]
    omega
  exact .inl hmod.2.symm

/-- A step by label 1 keeps to the lap, and so does one by label 2 where the lap may be left. -/
theorem At.step (hk : 0 < k) (h : At k exit n id) :
    ∃ a b : Nat, (graph k).node id = .ok (fork a b) ∧ At k exit (n + 1) a ∧
      (n % k = exit (n / k) → At k exit (n + 1) b) := by
  have hlt := Nat.mod_lt n hk
  rcases h with rfl | ⟨hexit, rfl⟩
  · have hnode := node_graph (getElem?_cycle hlt)
    unfold cycleNode at hnode
    split at hnode
    · rename_i hnext
      refine ⟨_, _, hnode, .inl (lap_succ hnext).2.symm, fun hleave => .inr ?_⟩
      rw [(lap_succ hnext).1, (lap_succ hnext).2, ← hleave]
      exact ⟨by omega, by simp⟩
    · have hzero : At k exit (n + 1) 0 := at_zero (by omega) hk
      exact ⟨0, 0, hnode, hzero, fun _ => hzero⟩
  · have hnode := node_graph (getElem?_chain (k := k) (i := exit (n / k))
      (j := n % k - 1 - exit (n / k)) (by omega) (by unfold chainLength; omega))
    unfold chainNode chainLength at hnode
    split at hnode
    · rename_i hnext
      have hnext : n % k + 1 < k := by omega
      refine ⟨_, k, hnode, .inr ?_, fun hleave => by omega⟩
      rw [(lap_succ hnext).1, (lap_succ hnext).2]
      refine ⟨by omega, ?_⟩
      rw [Nat.add_assoc]
      congr 1
      omega
    · exact ⟨0, k, hnode, at_zero (by omega) hk, fun hleave => by omega⟩

theorem chainsLength_add_lt {i i' j : Nat} (hi : i < i') (hj : j < k - 1 - i) :
    chainsLength k i + j < chainsLength k i' := by
  have hle := chainsLength_le (k := k) (show i + 1 ≤ i' from hi)
  rw [chainsLength_succ] at hle
  omega

/-- The position within a lap can be read off a node. -/
theorem At.modEq (hk : 0 < k) (h : At k exit n id) (h' : At k exit' n' id) : n ≡ n' [MOD k] := by
  have hlt := Nat.mod_lt n hk
  have hlt' := Nat.mod_lt n' hk
  have hstart : ∀ i, k < chainStart k i := fun i => by unfold chainStart; omega
  unfold Nat.ModEq
  rcases h with rfl | ⟨hexit, rfl⟩ <;> rcases h' with h' | ⟨hexit', h'⟩
  · exact h'
  · have := hstart (exit' (n' / k))
    omega
  · have := hstart (exit (n / k))
    omega
  · -- two chains have no node in common
    unfold chainStart at h'
    rcases Nat.lt_trichotomy (exit (n / k)) (exit' (n' / k)) with hchain | hchain | hchain
    · have := chainsLength_add_lt (k := k) (j := n % k - 1 - exit (n / k)) hchain (by omega)
      omega
    · rw [hchain] at h'
      omega
    · have := chainsLength_add_lt (k := k) (j := n' % k - 1 - exit' (n' / k)) hchain (by omega)
      omega

end At

/-- Where a word may have led in both members at time `n`: the first leaves each lap one position
later than the lap before, and the second leaves each lap at the root. -/
def Along (k n : Nat) (pair : NodePair) : Prop :=
  At k (fun lap => lap) n pair.1 ∧ At (k + 1) (fun _ => 0) n pair.2

section Along

variable {k n n' : Nat} {pair : NodePair} {path : List NodePair} {strategy : Strategy}

theorem along_zero (k : Nat) : Along k 0 (0, 0) := ⟨.inl (by simp), .inl (by simp)⟩

theorem Along.step (hk : 0 < k) (h : Along k n pair) :
    ∃ p p', demandAt (graph k) (graph (k + 1)) pair = .ok (.expand [p, p'] true) ∧
      Along k (n + 1) p ∧ (n % k = n / k → n % (k + 1) = 0 → Along k (n + 1) p') := by
  obtain ⟨a, b, hl, ha, hb⟩ := h.1.step hk
  obtain ⟨a', b', hr, ha', hb'⟩ := h.2.step (Nat.succ_pos k)
  exact ⟨(a, a'), (b, b'), demandAt_eq_ok_iff.mpr ⟨_, _, hl, hr, demand_fork a b a' b'⟩,
    ⟨ha, ha'⟩, fun hleave hroot => ⟨hb hleave, hb' hroot⟩⟩

theorem Along.unique (hk : 0 < k) (h : Along k n pair) (h' : Along k n' pair)
    (hn : n < k * (k + 1)) (hn' : n' < k * (k + 1)) : n = n' := by
  have hcoprime : Nat.Coprime k (k + 1) :=
    Nat.coprime_self_add_right.mpr (Nat.coprime_one_right k)
  have hmod : n ≡ n' [MOD k * (k + 1)] :=
    (Nat.modEq_and_modEq_iff_modEq_mul hcoprime).mp
      ⟨h.1.modEq hk h'.1, h.2.modEq (Nat.succ_pos k) h'.2⟩
  exact hmod.eq_of_lt_of_lt hn hn'

/-- No pair of a word is met twice, so both continuations of each are looked at. -/
theorem Along.visits_eq (hk : 0 < k) (h : Along k n pair) (hn : n < k * (k + 1))
    (hpath : ∀ p ∈ path, ∃ n' < n, Along k n' p) :
    let c : Comparison := ⟨strategy, graph k, graph (k + 1)⟩
    ∃ p p', c.visits path pair = 1 + (c.visits (pair :: path) p + c.visits (pair :: path) p') ∧
      Along k (n + 1) p ∧ (n % k = n / k → n % (k + 1) = 0 → Along k (n + 1) p') := by
  intro c
  have hmem : pair ∉ path := by
    intro hmem
    obtain ⟨n', hlt, h'⟩ := hpath pair hmem
    exact hlt.ne (h'.unique hk h (hlt.trans hn) hn)
  obtain ⟨p, p', hd, hp, hp'⟩ := h.step hk
  refine ⟨p, p', ?_, hp, hp'⟩
  have hvisits := Comparison.visits_of_expand (c := c) hmem hd
  simpa using hvisits

theorem Along.forall_mem_cons (h : Along k n pair) (hpath : ∀ p ∈ path, ∃ n' < n, Along k n' p) :
    ∀ p ∈ pair :: path, ∃ n' < n + 1, Along k n' p := by
  refine List.forall_mem_cons.mpr ⟨⟨n, Nat.lt_succ_self n, h⟩, fun p hp => ?_⟩
  obtain ⟨n', hlt, h'⟩ := hpath p hp
  exact ⟨n', hlt.trans (Nat.lt_succ_self n), h'⟩

/-- With `m` choices made or passed by and `e` still ahead, at least `2 ^ e` pairs are looked
at. -/
theorem two_pow_le_visits {m e : Nat} (hk : 0 < k) (hm : m + e = k) (hn : n ≤ m * (k + 1))
    (h : Along k n pair) (hpath : ∀ p ∈ path, ∃ n' < n, Along k n' p) :
    2 ^ e ≤ Comparison.visits ⟨strategy, graph k, graph (k + 1)⟩ path pair := by
  induction e generalizing m n pair path with
  | zero => exact Comparison.visits_pos
  | succ e ih =>
    have hlast : m * (k + 1) < k * (k + 1) := Nat.mul_lt_mul_of_pos_right (by omega) (by omega)
    -- the next choice is made after `d` more steps by label 1
    obtain ⟨d, hd⟩ := Nat.exists_eq_add_of_le hn
    induction d generalizing n pair path with
    | zero =>
      obtain ⟨p, p', hvisits, hp, hp'⟩ := h.visits_eq hk (by omega) hpath
      have hroot : n % (k + 1) = 0 := by
        rw [show n = m * (k + 1) by omega, Nat.mul_mod_left]
      have hleave : n / k = m ∧ n % k = m := by
        refine (Nat.div_mod_unique hk).mpr ⟨?_, by omega⟩
        rw [Nat.mul_add, Nat.mul_one, Nat.mul_comm] at hd
        omega
      have hnext : n + 1 ≤ (m + 1) * (k + 1) := by
        rw [Nat.succ_mul]
        omega
      have hpath' := h.forall_mem_cons hpath
      have hfirst := ih (by omega) hnext hp hpath'
      have hsecond := ih (by omega) hnext (hp' (hleave.2.trans hleave.1.symm) hroot) hpath'
      rw [hvisits, Nat.pow_succ]
      omega
    | succ d ihd =>
      obtain ⟨p, p', hvisits, hp, -⟩ := h.visits_eq hk (by omega) hpath
      have hfirst := ihd (by omega) hp (h.forall_mem_cons hpath) (by omega)
      rw [hvisits]
      omega

end Along

/-- The member `k` has `k + 1 + k * (k - 1) / 2` nodes and is related to the next one by either
strategy. Giving up assumptions looks at no fewer than `2 ^ k` pairs to find that out, and keeping
them at no more than twice the number of pairs of nodes and one. -/
theorem separation {k : Nat} (hk : 1 ≤ k)
    (hspace : (k + 1) + 1 + (k + 1) * k / 2 ≤ NodeId.limit) :
    ∃ g g' steps steps', member k = .ok g ∧ member (k + 1) = .ok g' ∧
      g.size = k + 1 + k * (k - 1) / 2 ∧
      (Comparison.discharging g g').report .never = .ok ⟨true, steps⟩ ∧
      (Comparison.retaining g g').report .never = .ok ⟨true, steps'⟩ ∧
      2 ^ k ≤ steps ∧ steps' ≤ 1 + 2 * g.size * g'.size := by
  have hk' : 0 < k + 1 := Nat.succ_pos k
  have hspace' : (graph (k + 1)).size ≤ NodeId.limit := by
    rw [size_graph]
    exact hspace
  have hsize : (graph k).size ≤ (graph (k + 1)).size := by
    have hchains : k * (k - 1) / 2 ≤ (k + 1) * (k + 1 - 1) / 2 :=
      Nat.div_le_div_right (Nat.mul_le_mul (by omega) (by omega))
    rw [size_graph, size_graph]
    omega
  obtain ⟨w, hw, hholds⟩ := exists_walk hk hk' .discharging
  obtain ⟨v, hv, hholds'⟩ := exists_walk hk hk' .retaining
  have hreach := Comparison.reaches_of_walk hw
  have hreport := Comparison.report_of_walk (Comparison.roots_eq_some rfl rfl) hw
  have hreport' := Comparison.report_of_walk (Comparison.roots_eq_some rfl rfl) hv
  rw [hholds] at hreport
  rw [hholds'] at hreport'
  refine ⟨graph k, graph (k + 1), w.steps, v.steps, member_eq_ok hk (hsize.trans hspace'),
    member_eq_ok hk' hspace', size_graph k, hreport, hreport', ?_, ?_⟩
  · have hsteps := hreach.1.steps_add_outstanding rfl hholds
    rw [hreach.2, Walk.outstanding, Nat.add_zero] at hsteps
    rw [hsteps]
    exact two_pow_le_visits hk (Nat.zero_add k) (Nat.zero_le _) (along_zero k) (by simp)
  · exact (Comparison.reaches_of_walk hv).1.steps_le rfl (breadth_le hk hk' .retaining)

/-- The members 3 and 4. -/
theorem separation_three :
    1 ≤ 3 ∧ (3 + 1) + 1 + (3 + 1) * 3 / 2 ≤ NodeId.limit ∧
    ∃ g g' steps steps', member 3 = .ok g ∧ member (3 + 1) = .ok g' ∧
      g.size = 3 + 1 + 3 * (3 - 1) / 2 ∧
      (Comparison.discharging g g').report .never = .ok ⟨true, steps⟩ ∧
      (Comparison.retaining g g').report .never = .ok ⟨true, steps'⟩ ∧
      2 ^ 3 ≤ steps ∧ steps' ≤ 1 + 2 * g.size * g'.size :=
  ⟨by decide, by decide, separation (by decide) (by decide)⟩

end SessionGraph.ExponentialFamily
