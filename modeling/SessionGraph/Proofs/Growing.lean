import Mathlib.Algebra.GroupWithZero.Nat
import Mathlib.Data.List.Sort
import SessionGraph.Proofs.Families
import SessionGraph.Proofs.Treelike

/-!
# Random types spend their budget

An action takes one node of the budget and leaves the rest to what follows it. The cuts that share
the rest out among the branches of a choice differ and lie inside it, so the shares are positive and
add up to it (`Shared`). What is left at the end is one, and it goes to the end of the protocol or
to an edge back. So the nodes and the edges back are as many as the budget (`Spends`), and the nodes
lie as a tree.

Growing faults only as its source does (`Drawing.FaultsIn`): ids do not run out, because a branch
starts behind at most as many nodes as were shared out before it.
-/

namespace SessionGraph

/-! ## Faults of draws -/

/-- A run of `x` that stops without a result stops with one of `faults`. -/
def Drawing.FaultsIn {σ α : Type} (x : Drawing σ α) (faults : Fault → Prop) : Prop :=
  ∀ s fault, x.run s = .error fault → faults fault

namespace Drawing

variable {σ α β : Type} {faults : Fault → Prop} {x : Drawing σ α} {f : α → Drawing σ β}

theorem FaultsIn.bind (hx : x.FaultsIn faults) (hf : ∀ a, x.Gives a → (f a).FaultsIn faults) :
    (x >>= f).FaultsIn faults := by
  intro s fault h
  rw [StateT.run_bind, bind_eq_error_iff] at h
  rcases h with h | ⟨⟨a, s'⟩, ha, h⟩
  · exact hx s fault h
  · exact hf a ⟨s, s', ha⟩ s' fault h

theorem faultsIn_pure (a : α) : (pure a : Drawing σ α).FaultsIn faults := by
  intro s fault h
  cases h

theorem faultsIn_ofIndex {index : Nat} (h : index < NodeId.limit) :
    (liftM (NodeId.ofIndex index) : Drawing σ NodeId).FaultsIn faults := by
  intro s fault hrun
  rw [StateT.run_monadLift, NodeId.ofIndex_eq_ok_iff.mpr ⟨h, rfl⟩] at hrun
  cases hrun

end Drawing

/-- The draws from the source stop only with one of `faults`, and so does drawing different numbers
below a number up to `bound`. -/
structure Source.FaultsIn {σ : Type} (source : Source σ) (faults : Fault → Prop) (bound : Nat) :
    Prop where
  below : ∀ width bound' positive, (source.below width bound' positive).FaultsIn faults
  flip : source.flip.FaultsIn faults
  distinct : ∀ count bound' room, bound' ≤ bound →
    (source.distinct count bound' room).FaultsIn faults

namespace Source

variable {σ : Type} {source : Source σ} {faults : Fault → Prop} {bound : Nat}

theorem faultsIn_distinctFrom (hundrawn : faults .undrawn)
    (hbelow : ∀ width bound positive, (source.below width bound positive).FaultsIn faults)
    {tries needed : Nat} (room : needed ≤ bound) (seen : Std.TreeSet Nat) :
    (source.distinctFrom bound tries needed room seen).FaultsIn faults := by
  fun_induction distinctFrom source bound tries needed room seen with
  | case1 => exact Drawing.faultsIn_pure _
  | case2 =>
    intro s fault h
    cases h
    exact hundrawn
  | case3 tries needed room seen ihseen ihnew =>
    refine (hbelow _ _ _).bind fun value _ => ?_
    split
    · exact ihseen
    · exact (ihnew value).bind fun values _ => Drawing.faultsIn_pure _

/-- A source whose draws can only be given up can only give up drawing different numbers. -/
theorem faultsIn_of_undrawn (hundrawn : faults .undrawn)
    (hbelow : ∀ width bound positive, (source.below width bound positive).FaultsIn faults)
    (hflip : source.flip.FaultsIn faults) : source.FaultsIn faults bound :=
  ⟨hbelow, hflip, fun _ _ room _ => faultsIn_distinctFrom hundrawn hbelow room ∅⟩

theorem lt_of_distinctFrom {tries needed : Nat} {room : needed ≤ bound} {seen : Std.TreeSet Nat}
    {values : List Nat} (h : (source.distinctFrom bound tries needed room seen).Gives values) :
    ∀ value ∈ values, value < bound := by
  fun_induction distinctFrom source bound tries needed room seen generalizing values with
  | case1 =>
    obtain rfl := h.pure
    exact nofun
  | case2 => exact absurd h Drawing.not_gives_throw
  | case3 tries needed room seen ihseen ihnew =>
    obtain ⟨value, -, h⟩ := h.bind
    split at h
    · exact ihseen h
    · obtain ⟨values', hvalues, h⟩ := h.bind
      obtain rfl := h.pure
      exact List.forall_mem_cons.mpr ⟨value.isLt, ihnew value hvalues⟩

end Source

theorem Seed.faultsIn_belowFrom (tries : Nat) (width : WordWidth) (bound : Nat)
    (positive : 0 < bound) :
    Drawing.FaultsIn (fun seed => belowFrom width bound positive tries seed) (· = .undrawn) := by
  induction tries with
  | zero =>
    intro seed fault h
    cases h
    rfl
  | succ tries ih =>
    intro seed fault h
    rw [StateT.run, belowFrom] at h
    dsimp only at h
    split at h
    · exact ih _ fault h
    · cases h

/-- The seeded source can only give up. -/
theorem Seed.faultsIn_source (bound : Nat) : source.FaultsIn (· = .undrawn) bound := by
  have hflip : source.flip.FaultsIn (· = .undrawn) := by
    intro seed fault h
    cases h
  exact Source.faultsIn_of_undrawn rfl (faultsIn_belowFrom patience) hflip

namespace RandomFamily

variable {σ : Type} {source : Source σ} {family : RandomFamily} {next : Nat} {path : List NodeId}

/-! ## Shares -/

section Gaps

variable {start stop : Nat} {cuts : List Nat}

theorem gaps_pos (h : (start :: (cuts ++ [stop])).Pairwise (· < ·)) :
    ∀ gap ∈ gaps start cuts stop, 0 < gap := by
  induction cuts generalizing start with
  | nil =>
    have hlt : start < stop := by simpa using h
    simpa [gaps] using hlt
  | cons cut cuts ih =>
    obtain ⟨hstart, hcuts⟩ := List.pairwise_cons.mp h
    have hlt : start < cut := hstart cut List.mem_cons_self
    exact List.forall_mem_cons.mpr ⟨Nat.sub_pos_of_lt hlt, ih hcuts⟩

theorem sum_gaps (h : (start :: (cuts ++ [stop])).Pairwise (· < ·)) :
    (gaps start cuts stop).sum = stop - start := by
  induction cuts generalizing start with
  | nil => simp [gaps]
  | cons cut cuts ih =>
    obtain ⟨hstart, hcuts⟩ := List.pairwise_cons.mp h
    have hlt : start < cut := hstart cut List.mem_cons_self
    have hlt' : cut < stop := (List.pairwise_cons.mp hcuts).1 stop (by simp)
    rw [gaps, List.sum_cons, ih hcuts]
    omega

end Gaps

/-- The places to cut a budget of `size - 1` at, with its ends, when `cuts` are drawn. -/
theorem pairwise_cuts {cuts : List Nat} {size : Nat} (hsize : 1 < size) (hnodup : cuts.Nodup)
    (hlt : ∀ cut ∈ cuts, cut < size - 2) :
    (0 :: ((cuts.map (· + 1)).mergeSort ++ [size - 1])).Pairwise (· < ·) := by
  have hmem : ∀ cut ∈ (cuts.map (· + 1)).mergeSort, 0 < cut ∧ cut < size - 1 := by
    intro cut hcut
    obtain ⟨cut', hcut', rfl⟩ := List.mem_map.mp (List.mem_mergeSort.mp hcut)
    have := hlt cut' hcut'
    omega
  have hdistinct : ((cuts.map (· + 1)).mergeSort).Nodup :=
    List.nodup_mergeSort.mpr (hnodup.map fun a b h => Nat.succ.inj h)
  refine List.pairwise_cons.mpr ⟨fun cut hcut => ?_, List.pairwise_append.mpr ⟨?_, ?_, ?_⟩⟩
  · rcases List.mem_append.mp hcut with hcut | hcut
    · exact (hmem cut hcut).1
    · rw [List.mem_singleton.mp hcut]
      omega
  · exact (List.sortedLE_mergeSort.sortedLT_of_nodup hdistinct).pairwise
  · exact List.pairwise_singleton _ _
  · intro cut hcut stop hstop
    rw [List.mem_singleton.mp hstop]
    exact (hmem cut hcut).2

/-- `shares` share `total` nodes out among between one and `factor` labels below `factor`. -/
structure Shared (factor total : Nat) (shares : List (Label × Nat)) : Prop where
  nonempty : shares ≠ []
  length_le : shares.length ≤ factor
  labels_nodup : (shares.map Prod.fst).Nodup
  labels_lt : ∀ label ∈ shares.map Prod.fst, label < factor
  sizes_pos : ∀ size ∈ shares.map Prod.snd, 0 < size
  sizes_sum : (shares.map Prod.snd).sum = total

theorem shared_of_drawShares {factor size : Nat} {hfactor : 0 < factor} {hsize : 1 < size}
    {shares : List (Label × Nat)}
    (h : (drawShares source factor size hfactor hsize).Gives shares) :
    Shared factor (size - 1) shares := by
  have hnodup := nodup_drawShares h
  unfold drawShares at h
  obtain ⟨extra, -, h⟩ := h.bind
  obtain ⟨labels, hlabels, h⟩ := h.bind
  obtain ⟨cuts, hcuts, h⟩ := h.bind
  obtain rfl := h.pure
  obtain ⟨-, -, hlength⟩ := Source.distinctFrom_spec hlabels
  obtain ⟨hdistinct, -, hlength'⟩ := Source.distinctFrom_spec hcuts
  have hpairwise := pairwise_cuts hsize hdistinct (Source.lt_of_distinctFrom hcuts)
  have hgaps : (gaps 0 ((cuts.map (· + 1)).mergeSort) (size - 1)).length = labels.length := by
    rw [length_gaps, List.length_mergeSort, List.length_map, hlength, hlength']
  have hextra := extra.isLt
  have hzip : (labels.zip (gaps 0 ((cuts.map (· + 1)).mergeSort) (size - 1))).length =
      extra.val + 1 := by
    rw [List.length_zip, hgaps, Nat.min_self, hlength]
  refine ⟨List.ne_nil_of_length_eq_add_one hzip, by omega, hnodup, ?_, ?_, ?_⟩
  · rw [List.map_fst_zip hgaps.ge]
    exact Source.lt_of_distinctFrom hlabels
  · rw [List.map_snd_zip hgaps.le]
    exact gaps_pos hpairwise
  · rw [List.map_snd_zip hgaps.le, sum_gaps hpairwise, Nat.sub_zero]

/-- A share is no more than is shared out. -/
theorem Shared.size_le {factor total : Nat} {shares : List (Label × Nat)}
    (h : Shared factor total shares) {size : Nat} (hsize : size ∈ shares.map Prod.snd) :
    size ≤ total :=
  h.sizes_sum ▸ List.le_sum_of_mem hsize

/-! ## Budgets -/

/-- The actions of the family: participants and labels are below their numbers, and a choice has
between one branch and as many as there are labels, in the order of the labels. -/
def Admits (family : RandomFamily) : Node → Prop
  | .done => True
  | .message _ participant _ _ => participant < family.participants
  | .choice _ participant branches =>
    participant < family.participants ∧ 1 ≤ branches.length ∧
      branches.length ≤ family.labelCount ∧ Ascending (branches.map Prod.fst) ∧
      ∀ label ∈ branches.map Prod.fst, label < family.labelCount

/-- `nodes` lie as trees below `path` and start with `ids`. With the edges back, which lead to
`backs`, they are as many as `budget`. -/
structure Spends (family : RandomFamily) (budget : Nat) (path : List NodeId) (next : Nat)
    (ids : List NodeId) (nodes : List Node) (backs : List NodeId) : Prop where
  tree : Treelike List.Perm path next ids nodes backs
  spent : nodes.length + backs.length = budget
  admits : ∀ n ∈ nodes, family.Admits n
  plain : family.backEdges = false → backs = []

namespace Spends

variable {budget budget' : Nat} {id : NodeId} {ids starts backs backs' : List NodeId} {n : Node}
  {nodes nodes' : List Node}

theorem nil : family.Spends 0 path next [] [] [] := ⟨.nil, rfl, nofun, fun _ => rfl⟩

theorem back (hfamily : family.backEdges = true) (hid : id ∈ path) :
    family.Spends 1 path next [id] [] [id] :=
  ⟨.back hid .nil, rfl, nofun, fun h => by simp [hfamily] at h⟩

theorem action (hn : family.Admits n) (hperm : n.successors.Perm starts)
    (h : family.Spends budget (next :: path) (next + 1) starts nodes backs) :
    family.Spends (budget + 1) path next [next] (n :: nodes) backs where
  tree := .single hperm h.tree
  spent := by
    have := h.spent
    rw [List.length_cons]
    omega
  admits := List.forall_mem_cons.mpr ⟨hn, h.admits⟩
  plain := h.plain

theorem done : family.Spends 1 path next [next] [.done] [] := action trivial (List.Perm.refl _) nil

theorem append (h : family.Spends budget path next [id] nodes backs)
    (h' : family.Spends budget' path (next + nodes.length) ids nodes' backs') :
    family.Spends (budget + budget') path next (id :: ids) (nodes ++ nodes') (backs ++ backs') where
  tree := h.tree.append h'.tree
  spent := by
    have := h.spent
    have := h'.spent
    rw [List.length_append, List.length_append]
    omega
  admits n hn := (List.mem_append.mp hn).elim (h.admits n) (h'.admits n)
  plain hfamily := by rw [h.plain hfamily, h'.plain hfamily, List.append_nil]

theorem length_le (h : family.Spends budget path next ids nodes backs) : nodes.length ≤ budget :=
  h.spent ▸ Nat.le_add_right _ _

end Spends

section Growing

variable {id : NodeId} {nodes : List Node}

theorem exists_spends_of_drawLeaf
    (h : (drawLeaf source family.backEdges path next).Gives (id, nodes)) :
    ∃ backs, family.Spends 1 path next [id] nodes backs := by
  rcases gives_drawLeaf h with ⟨hfamily, hid, rfl⟩ | ⟨rfl, rfl⟩
  · exact ⟨[id], .back hfamily hid⟩
  · exact ⟨[], .done⟩

/-- The branches spend what their shares come to, in the order in which they are grown. -/
theorem exists_spends_of_growBranches {grow : Nat → Nat → Drawing σ (NodeId × List Node)}
    {shares : List (Label × Nat)} {targets : List (Label × NodeId)}
    (hgrow : ∀ size ∈ shares.map Prod.snd, ∀ {next' id nodes},
      (grow size next').Gives (id, nodes) → ∃ backs, family.Spends size path next' [id] nodes backs)
    (h : (growBranches grow shares next).Gives (targets, nodes)) :
    (∃ backs,
      family.Spends (shares.map Prod.snd).sum path next (targets.map Prod.snd) nodes backs) ∧
      targets.map Prod.fst = shares.map Prod.fst := by
  induction shares generalizing next targets nodes with
  | nil =>
    cases h.pure
    exact ⟨⟨[], .nil⟩, rfl⟩
  | cons share shares ih =>
    obtain ⟨label, size⟩ := share
    obtain ⟨hsize, hsizes⟩ := List.forall_mem_cons.mp hgrow
    cases shares with
    | nil =>
      obtain ⟨⟨target, nodes'⟩, hgrown, h⟩ := h.bind
      cases h.pure
      exact ⟨hsize hgrown, rfl⟩
    | cons share' shares =>
      obtain ⟨⟨target, nodes₁⟩, hgrown, h⟩ := h.bind
      obtain ⟨⟨targets', nodes₂⟩, hrest, h⟩ := h.bind
      cases h.pure
      obtain ⟨backs, hspends⟩ := hsize hgrown
      obtain ⟨⟨backs', hspends'⟩, hlabels⟩ := ih hsizes hrest
      exact ⟨⟨_, hspends.append hspends'⟩, by rw [List.map_cons, hlabels]; rfl⟩

/-- The labels of a choice are those that its budget was shared out among. -/
theorem Shared.admits {total : Nat} {shares : List (Label × Nat)}
    {targets : List (Label × NodeId)} {polarity : Polarity} {participant : Participant}
    (h : Shared family.labelCount total shares)
    (hlabels : targets.map Prod.fst = shares.map Prod.fst)
    (hparticipant : participant < family.participants) :
    family.Admits (.choice polarity participant (sortBranches targets)) := by
  have hlength : (sortBranches targets).length = shares.length := by
    rw [sortBranches, List.length_mergeSort, ← List.length_map Prod.fst, hlabels, List.length_map]
  refine ⟨hparticipant, ?_, hlength ▸ h.length_le, sorted_sortBranches ?_, fun label hlabel => ?_⟩
  · rw [hlength]
    exact List.length_pos_iff.mpr h.nonempty
  · rw [hlabels]
    exact h.labels_nodup
  · apply h.labels_lt
    rw [← hlabels]
    exact ((List.mergeSort_perm targets _).map Prod.fst).mem_iff.mp hlabel

variable {hparticipants : 0 < family.participants} {hfactor : 0 < family.labelCount}
  {depth size : Nat}

theorem exists_spends_of_grow (hdepth : size ≤ depth)
    (h : (family.grow source hparticipants hfactor depth size path next).Gives (id, nodes)) :
    ∃ backs, family.Spends (max 1 size) path next [id] nodes backs := by
  induction depth generalizing size path next id nodes with
  | zero =>
    rw [Nat.max_eq_left (by omega)]
    exact exists_spends_of_drawLeaf h
  | succ depth ih =>
    rcases gives_grow h with
      ⟨hsize, rfl, polarity, participant, payload, target, nodes', hparticipant, hgrown, rfl⟩ |
      ⟨hsize, rfl, polarity, participant, shares, targets, nodes', hparticipant, hshares, hgrown,
        rfl⟩ | ⟨hsize, hleaf⟩
    · obtain ⟨backs, hspends⟩ := ih (by omega) hgrown
      have hbudget : max 1 size = max 1 (size - 1) + 1 := by omega
      rw [hbudget]
      exact ⟨backs, .action hparticipant (List.Perm.refl _) hspends⟩
    · have hshared := shared_of_drawShares hshares
      obtain ⟨⟨backs, hspends⟩, hlabels⟩ := exists_spends_of_growBranches
        (fun share hshare {_ _ _} hgives => by
          have hpos := hshared.sizes_pos share hshare
          have hle := hshared.size_le hshare
          rw [← Nat.max_eq_right hpos]
          exact ih (by omega) hgives) hgrown
      have hbudget : max 1 size = size - 1 + 1 := by omega
      rw [hshared.sizes_sum] at hspends
      rw [hbudget]
      refine ⟨backs, .action (hshared.admits hlabels hparticipant) ?_ hspends⟩
      exact (List.mergeSort_perm targets _).map Prod.snd
    · rw [Nat.max_eq_left hsize]
      exact exists_spends_of_drawLeaf hleaf

/-! ## Faults -/

variable {faults : Fault → Prop} {bound : Nat}

theorem faultsIn_drawLeaf (hsource : source.FaultsIn faults bound) (hnext : next < NodeId.limit)
    (backEdges : Bool) : (drawLeaf source backEdges path next).FaultsIn faults := by
  unfold drawLeaf
  split
  · refine hsource.flip.bind fun side _ => ?_
    split
    · exact (hsource.below _ _ _).bind fun index _ => Drawing.faultsIn_pure _
    · exact (Drawing.faultsIn_ofIndex hnext).bind fun id _ => Drawing.faultsIn_pure _
  · exact (Drawing.faultsIn_ofIndex hnext).bind fun id _ => Drawing.faultsIn_pure _

theorem faultsIn_drawShares {factor : Nat} (hsource : source.FaultsIn faults bound)
    (hfactor : 0 < factor) (hsize : 1 < size) (hbound : size ≤ bound) (hbound' : factor ≤ bound) :
    (drawShares source factor size hfactor hsize).FaultsIn faults := by
  refine (hsource.below _ _ _).bind fun extra _ => ?_
  refine (hsource.distinct _ _ _ hbound').bind fun labels _ => ?_
  exact (hsource.distinct _ _ _ (by omega)).bind fun cuts _ => Drawing.faultsIn_pure _

/-- Branches that are grown from no more than their shares stay below `stop` if the shares do. -/
theorem faultsIn_growBranches {grow : Nat → Nat → Drawing σ (NodeId × List Node)} {stop : Nat}
    {shares : List (Label × Nat)}
    (hgrow : ∀ size ∈ shares.map Prod.snd, ∀ next', next' + size ≤ stop →
      (grow size next').FaultsIn faults)
    (hlength : ∀ size ∈ shares.map Prod.snd, ∀ {next' id nodes},
      (grow size next').Gives (id, nodes) → nodes.length ≤ size)
    (hstop : next + (shares.map Prod.snd).sum ≤ stop) :
    (growBranches grow shares next).FaultsIn faults := by
  induction shares generalizing next with
  | nil => exact Drawing.faultsIn_pure _
  | cons share shares ih =>
    obtain ⟨label, size⟩ := share
    obtain ⟨hsize, hsizes⟩ := List.forall_mem_cons.mp hgrow
    obtain ⟨hnodes, hlengths⟩ := List.forall_mem_cons.mp hlength
    rw [List.map_cons, List.sum_cons] at hstop
    have hfirst := hsize next (by omega)
    cases shares with
    | nil => exact hfirst.bind fun _ _ => Drawing.faultsIn_pure _
    | cons share' shares =>
      refine hfirst.bind fun (target, nodes) hgives => ?_
      -- the branch has not used up more ids than its share, so those of the others are left
      have hle : nodes.length ≤ size := hnodes hgives
      exact (ih hsizes hlengths (by omega)).bind fun _ _ => Drawing.faultsIn_pure _

theorem faultsIn_grow (hsource : source.FaultsIn faults bound) (hdepth : size ≤ depth)
    (hlimit : next + max 1 size ≤ NodeId.limit) (hbound : size ≤ bound)
    (hbound' : family.labelCount ≤ bound) :
    (family.grow source hparticipants hfactor depth size path next).FaultsIn faults := by
  induction depth generalizing size path next with
  | zero => exact faultsIn_drawLeaf hsource (by omega) _
  | succ depth ih =>
    rw [grow]
    split
    · rename_i hsize
      refine (hsource.below _ _ _).bind fun participant _ => ?_
      refine (Drawing.faultsIn_ofIndex (by omega)).bind fun id hid => ?_
      refine (hsource.below _ _ _).bind fun kind _ => ?_
      extract_lets polarity
      split
      · refine ((hsource.below _ _ _).bind fun _ _ => Drawing.faultsIn_pure _).bind fun _ _ => ?_
        exact (ih (by omega) (by omega) (by omega)).bind fun _ _ => Drawing.faultsIn_pure _
      · refine (faultsIn_drawShares hsource _ hsize hbound hbound').bind fun shares hshares => ?_
        have hshared := shared_of_drawShares hshares
        have hsizes : ∀ share ∈ shares.map Prod.snd, 0 < share ∧ share ≤ size - 1 :=
          fun share hshare => ⟨hshared.sizes_pos share hshare, hshared.size_le hshare⟩
        refine Drawing.FaultsIn.bind ?_ fun _ _ => Drawing.faultsIn_pure _
        refine faultsIn_growBranches ?_ ?_ (Nat.le_refl _)
        · intro share hshare next' hle
          have := hsizes share hshare
          rw [hshared.sizes_sum] at hle
          exact ih (by omega) (by omega) (by omega)
        · intro share hshare next' id' nodes hgives
          have := hsizes share hshare
          obtain ⟨backs, hspends⟩ := exists_spends_of_grow (by omega) hgives
          exact Nat.max_eq_right this.1 ▸ hspends.length_le
    · exact faultsIn_drawLeaf hsource (by omega) _

end Growing

end RandomFamily

end SessionGraph
