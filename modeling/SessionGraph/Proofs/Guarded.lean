import SessionGraph.Proofs.Growing

/-!
# Random types are grown within bounds

Nothing that growing a random type does falls outside its bounds: no number is drawn below zero, no
larger number is taken from a smaller one, no entry is asked for behind the end of a list, and the
depth is never used up. The guarded operations stop with a fault where this happens, and growing by
them is growing (`growGuarded_eq`). What is grown has a node or an edge back for each unit of its
budget (`Spent`).
-/

namespace SessionGraph

/-! ## Guarded operations -/

namespace Drawing

variable {σ α β : Type}

/-- The difference of two numbers, the first of which must not be smaller. -/
def minus (a b : Nat) : Drawing σ Nat :=
  if b ≤ a then pure (a - b) else throw (.raised "attempt to subtract with overflow")

/-- The entry at an index, which must be within the list. -/
def entry (list : List α) (index : Nat) : Drawing σ α :=
  match list[index]? with
  | some a => pure a
  | none => throw (.outOfBounds list.length index)

theorem minus_bind {a b : Nat} (h : b ≤ a) (f : Nat → Drawing σ β) :
    minus a b >>= f = f (a - b) := by
  rw [minus, if_pos h, pure_bind]

theorem entry_get (list : List α) (index : Fin list.length) :
    entry list index.val = (pure (list.get index) : Drawing σ α) := by
  simp [entry]

/-- What follows a draw matters only for what may be drawn. -/
theorem bind_congr_gives {x : Drawing σ α} {f g : α → Drawing σ β}
    (h : ∀ a, x.Gives a → f a = g a) : x >>= f = x >>= g := by
  funext s
  show (x s >>= fun r => f r.1 r.2) = (x s >>= fun r => g r.1 r.2)
  cases hx : x s with
  | error fault => rfl
  | ok r => exact congrFun (h r.1 ⟨s, r.2, hx⟩) r.2

end Drawing

namespace Source

variable {σ β : Type} {source : Source σ} {bound : Nat}

/-- A number below `bound`, which must be positive. -/
def belowGuarded (source : Source σ) (width : WordWidth) (bound : Nat) : Drawing σ Nat :=
  if positive : 0 < bound then do
    let value ← source.below width bound positive
    return value.val
  else throw (.raised "empty range")

/-- As `distinctFrom`, with guarded draws. -/
def distinctFromGuarded (source : Source σ) (bound : Nat) :
    (tries needed : Nat) → (seen : Std.TreeSet Nat) → Drawing σ (List Nat)
  | _, 0, _ => return []
  | 0, _ + 1, _ => throw .undrawn
  | tries + 1, needed + 1, seen => do
    let value ← source.belowGuarded .full bound
    if value ∈ seen then source.distinctFromGuarded bound tries (needed + 1) seen
    else
      let values ← source.distinctFromGuarded bound tries needed (seen.insert value)
      return value :: values

/-- As `distinct`, where `count` must not be larger than `bound`. -/
def distinctGuarded (source : Source σ) (count bound : Nat) : Drawing σ (List Nat) :=
  if count ≤ bound then source.distinctFromGuarded bound source.patience count ∅
  else throw (.raised "assertion failed: count <= bound")

theorem belowGuarded_bind {width : WordWidth} (positive : 0 < bound) (f : Nat → Drawing σ β) :
    source.belowGuarded width bound >>= f =
      source.below width bound positive >>= fun value => f value.val := by
  rw [belowGuarded, dif_pos positive, bind_assoc]
  exact bind_congr fun value => pure_bind value.val f

theorem distinctFromGuarded_eq {tries needed : Nat} (room : needed ≤ bound)
    (seen : Std.TreeSet Nat) :
    source.distinctFromGuarded bound tries needed seen =
      source.distinctFrom bound tries needed room seen := by
  fun_induction distinctFrom source bound tries needed room seen with
  | case1 => rw [distinctFromGuarded]
  | case2 => rw [distinctFromGuarded]
  | case3 tries needed room seen ihseen ihnew =>
    rw [distinctFromGuarded, belowGuarded_bind (by omega)]
    refine bind_congr fun value => ?_
    rw [ihseen, ihnew value]

theorem distinctGuarded_eq {count : Nat} (room : count ≤ bound) :
    source.distinctGuarded count bound = source.distinct count bound room := by
  rw [distinctGuarded, if_pos room, distinctFromGuarded_eq room]
  rfl

end Source

namespace RandomFamily

variable {σ : Type} {source : Source σ} {family : RandomFamily} {next : Nat} {path : List NodeId}

/-! ## Guarded growing -/

/-- As `drawLeaf`, with guarded operations. -/
def leafGuarded (source : Source σ) (backEdges : Bool) (path : List NodeId) (next : Nat) :
    Drawing σ (NodeId × List Node) := do
  if backEdges = true ∧ 0 < path.length then
    if ← source.flip then
      let index ← source.belowGuarded .full path.length
      let id ← Drawing.entry path.reverse index
      return (id, [])
  let id ← NodeId.ofIndex next
  return (id, [.done])

/-- As `gaps`, with guarded operations. -/
def gapsGuarded (start : Nat) (cuts : List Nat) (stop : Nat) : Drawing σ (List Nat) :=
  match cuts with
  | [] => do
    let gap ← Drawing.minus stop start
    return [gap]
  | cut :: cuts => do
    let gap ← Drawing.minus cut start
    let rest ← gapsGuarded cut cuts stop
    return gap :: rest

/-- As `drawShares`, with guarded operations. -/
def sharesGuarded (source : Source σ) (factor size : Nat) : Drawing σ (List (Label × Nat)) := do
  let total ← Drawing.minus size 1
  let extra ← source.belowGuarded .full (min total factor)
  let labels ← source.distinctGuarded (extra + 1) factor
  let room ← Drawing.minus size 2
  let cuts ← source.distinctGuarded extra room
  let gaps ← gapsGuarded 0 ((cuts.map (· + 1)).mergeSort) total
  return labels.zip gaps

/-- As `grow`, with guarded operations and a fault where the depth is used up. -/
def growGuarded (source : Source σ) (family : RandomFamily) :
    (depth size : Nat) → (path : List NodeId) → (next : Nat) → Drawing σ (NodeId × List Node)
  | 0, size, path, next =>
    if 1 < size then throw (.raised "the depth is used up")
    else leafGuarded source family.backEdges path next
  | depth + 1, size, path, next =>
    if 1 < size then do
      let participant ← source.belowGuarded .half family.participants
      let id ← NodeId.ofIndex next
      let kind ← source.belowGuarded .half 4
      let polarity : Polarity := if kind = 0 ∨ kind = 3 then .input else .output
      if kind < 2 then
        let index ← source.belowGuarded .full Payload.all.length
        let payload ← Drawing.entry Payload.all index
        let rest ← Drawing.minus size 1
        let (target, nodes) ← growGuarded source family depth rest (id :: path) (next + 1)
        return (id, .message polarity participant payload target :: nodes)
      else
        let shares ← sharesGuarded source family.labelCount size
        let (targets, nodes) ←
          growBranches (fun size next => growGuarded source family depth size (id :: path) next)
            shares (next + 1)
        return (id, .choice polarity participant (sortBranches targets) :: nodes)
    else leafGuarded source family.backEdges path next

/-- As `draw`, with guarded operations. -/
def drawGuarded (family : RandomFamily) (source : Source σ) : Drawing σ Graph := do
  let (root, nodes) ← family.growGuarded source family.budget family.budget [] 0
  return ⟨nodes.toArray, some root⟩

theorem leafGuarded_eq (backEdges : Bool) :
    leafGuarded source backEdges path next = drawLeaf source backEdges path next := by
  unfold leafGuarded drawLeaf
  split
  · rename_i hinside
    refine bind_congr fun side => ?_
    split
    · rw [Source.belowGuarded_bind hinside.2]
      refine bind_congr fun index => ?_
      exact congrArg (· >>= fun id => pure (id, []))
        (Drawing.entry_get path.reverse (index.cast List.length_reverse.symm))
    · rfl
  · rfl

theorem gapsGuarded_eq {start stop : Nat} {cuts : List Nat}
    (h : (start :: (cuts ++ [stop])).Pairwise (· < ·)) :
    (gapsGuarded start cuts stop : Drawing σ (List Nat)) = pure (gaps start cuts stop) := by
  induction cuts generalizing start with
  | nil =>
    have hlt : start < stop := by simpa using h
    rw [gapsGuarded, Drawing.minus_bind hlt.le, gaps]
  | cons cut cuts ih =>
    obtain ⟨hstart, hcuts⟩ := List.pairwise_cons.mp h
    have hlt : start < cut := hstart cut List.mem_cons_self
    rw [gapsGuarded, Drawing.minus_bind hlt.le, ih hcuts, pure_bind, gaps]

theorem sharesGuarded_eq {factor size : Nat} (hfactor : 0 < factor) (hsize : 1 < size) :
    sharesGuarded source factor size = drawShares source factor size hfactor hsize := by
  unfold sharesGuarded drawShares
  rw [Drawing.minus_bind (by omega), Source.belowGuarded_bind (by omega)]
  refine bind_congr fun extra => ?_
  have hextra := extra.isLt
  rw [Source.distinctGuarded_eq (by omega)]
  refine bind_congr fun labels => ?_
  rw [Drawing.minus_bind (by omega), Source.distinctGuarded_eq (by omega)]
  refine Drawing.bind_congr_gives fun cuts hcuts => ?_
  obtain ⟨hdistinct, -, -⟩ := Source.distinctFrom_spec hcuts
  have hpairwise := pairwise_cuts hsize hdistinct (Source.lt_of_distinctFrom hcuts)
  rw [gapsGuarded_eq hpairwise, pure_bind]

theorem growBranches_congr {grow grow' : Nat → Nat → Drawing σ (NodeId × List Node)}
    {shares : List (Label × Nat)}
    (h : ∀ size ∈ shares.map Prod.snd, ∀ next, grow size next = grow' size next) :
    growBranches grow shares next = growBranches grow' shares next := by
  induction shares generalizing next with
  | nil => rfl
  | cons share shares ih =>
    obtain ⟨label, size⟩ := share
    obtain ⟨hsize, hsizes⟩ := List.forall_mem_cons.mp h
    cases shares with
    | nil => exact congrArg (· >>= _) (hsize next)
    | cons share' shares =>
      rw [growBranches, growBranches, hsize next]
      · refine bind_congr fun (target, nodes) => ?_
        exact congrArg (· >>= _) (ih hsizes)
      all_goals exact nofun

theorem growGuarded_eq (hparticipants : 0 < family.participants)
    (hfactor : 0 < family.labelCount) {depth size : Nat} (hdepth : size ≤ depth) :
    family.growGuarded source depth size path next =
      family.grow source hparticipants hfactor depth size path next := by
  induction depth generalizing size path next with
  | zero => rw [growGuarded, if_neg (by omega), leafGuarded_eq, grow]
  | succ depth ih =>
    rw [growGuarded, grow]
    split
    · rename_i hsize
      rw [Source.belowGuarded_bind hparticipants]
      refine bind_congr fun participant => bind_congr fun id => ?_
      rw [Source.belowGuarded_bind (by decide)]
      refine bind_congr fun kind => ?_
      extract_lets polarity
      split
      · rw [Source.belowGuarded_bind (by decide), drawPayload, bind_assoc]
        refine bind_congr fun index => ?_
        rw [Drawing.entry_get, pure_bind, pure_bind, Drawing.minus_bind (by omega),
          ih (by omega)]
      · rw [sharesGuarded_eq hfactor hsize]
        -- no share that may be drawn comes up to `size`, so the depth left suffices for each
        refine Drawing.bind_congr_gives fun shares hshares => ?_
        have hshared := shared_of_drawShares hshares
        rw [growBranches_congr fun share hshare next' => ih ?_]
        have := hshared.size_le hshare
        omega
    · exact leafGuarded_eq _

/-! ## What is drawn -/

/-- The graph is a tree with edges back, of actions of the family. Its nodes and edges back are as
many as the budget, or one if there is none. -/
structure Spent (family : RandomFamily) (g : Graph) : Prop where
  tree : g.TreeWithBackEdges
  spent : g.size + g.backEdges.length = max 1 family.budget
  admits : ∀ n ∈ g.nodes, family.Admits n
  plain : family.backEdges = false → g.backEdges = [] ∧ g.size = max 1 family.budget

theorem Spends.toGraph {root : NodeId} {nodes : List Node} {backs : List NodeId}
    (h : family.Spends (max 1 family.budget) [] 0 [root] nodes backs) :
    family.Spent ⟨nodes.toArray, some root⟩ := by
  obtain ⟨htree, hbacks⟩ := h.tree.treeWithBackEdges fun _ _ hperm => hperm
  have hspent : Graph.size ⟨nodes.toArray, some root⟩ +
      (Graph.backEdges ⟨nodes.toArray, some root⟩).length = max 1 family.budget := by
    rw [hbacks, ← h.spent]
    rfl
  refine ⟨htree, hspent, fun n hn => h.admits n (List.mem_toArray.mp hn), fun hplain => ?_⟩
  rw [h.plain hplain] at hbacks
  rw [hbacks] at hspent
  exact ⟨List.length_eq_zero_iff.mp hbacks, hspent⟩

/-- A random type is drawn within bounds, and unless its source faults it is a tree with edges back
that spends the budget. -/
theorem draw_spends_budget (family : RandomFamily) (source : Source σ) {faults : Fault → Prop}
    (hparticipants : 0 < family.participants) (hfactor : 0 < family.labelCount)
    (hbudget : family.budget ≤ NodeId.limit)
    (hsource : source.FaultsIn faults (max family.budget family.labelCount)) :
    family.draw source = .ok (family.drawGuarded source) ∧
      ∀ s, (∃ g s', (family.drawGuarded source).run s = .ok (g, s') ∧ family.Spent g) ∨
        ∃ fault, (family.drawGuarded source).run s = .error fault ∧ faults fault := by
  have hgrow : family.growGuarded source family.budget family.budget [] 0 =
      family.grow source hparticipants hfactor family.budget family.budget [] 0 :=
    growGuarded_eq hparticipants hfactor (Nat.le_refl _)
  refine ⟨by rw [draw, dif_pos hparticipants, dif_pos hfactor, drawGuarded, hgrow], fun s => ?_⟩
  have hfaults : (family.drawGuarded source).FaultsIn faults := by
    rw [drawGuarded, hgrow]
    refine Drawing.FaultsIn.bind ?_ fun _ _ => Drawing.faultsIn_pure _
    have hlimit : 0 + max 1 family.budget ≤ NodeId.limit := by
      rw [Nat.zero_add]
      exact Nat.max_le.mpr ⟨by decide, hbudget⟩
    exact faultsIn_grow hsource le_rfl hlimit (Nat.le_max_left _ _) (Nat.le_max_right _ _)
  cases hrun : (family.drawGuarded source).run s with
  | error fault => exact .inr ⟨fault, rfl, hfaults s fault hrun⟩
  | ok result =>
    obtain ⟨g, s'⟩ := result
    have hg : (family.drawGuarded source).Gives g := ⟨s, s', hrun⟩
    rw [drawGuarded, hgrow] at hg
    obtain ⟨⟨root, nodes⟩, hgrown, hg⟩ := hg.bind
    cases hg.pure
    obtain ⟨backs, hspends⟩ := exists_spends_of_grow le_rfl hgrown
    exact .inl ⟨_, s', rfl, hspends.toGraph⟩

theorem sortBranches_pair (b b' : Label × NodeId) :
    sortBranches [b, b'] = if b.1 ≤ b'.1 then [b, b'] else [b', b] := by
  simp [sortBranches, List.mergeSort, List.merge]

/-- From the seed 8, five nodes and four edges back are drawn for a budget of nine. -/
theorem draw_spends_budget_seeded :
    let family : RandomFamily := ⟨9, 3, true, 2⟩
    (0 < family.participants ∧ 0 < family.labelCount ∧ family.budget ≤ NodeId.limit ∧
        Seed.source.FaultsIn (· = .undrawn) (max family.budget family.labelCount)) ∧
      family.draw Seed.source = .ok (family.drawGuarded Seed.source) ∧
      ∃ g s', (family.drawGuarded Seed.source).run ⟨8⟩ = .ok (g, s') ∧ family.Spent g ∧
        g.size = 5 ∧ g.backEdges = [(2, 1), (3, 3), (4, 3), (4, 2)] := by
  -- the merging of two rows does not reduce, so the branches stand here as they were drawn
  have hrun : (drawGuarded ⟨9, 3, true, 2⟩ Seed.source).run ⟨8⟩ =
      .ok (⟨#[.message .input 0 .int 1, .message .output 0 .bool 2,
        .choice .output 1 (sortBranches [(2, 1), (0, 3)]),
        .choice .output 0 (sortBranches [(1, 3), (0, 4)]),
        .choice .input 1 (sortBranches [(0, 3), (2, 2)])], some 0⟩, ⟨80173289655764466⟩) := by
    with_unfolding_all rfl
  simp only [sortBranches_pair] at hrun
  intro family
  have hsource : Seed.source.FaultsIn (· = .undrawn) (max family.budget family.labelCount) :=
    Seed.faultsIn_source _
  obtain ⟨hdraw, hruns⟩ :=
    draw_spends_budget family Seed.source (by decide) (by decide) (by decide) hsource
  refine ⟨⟨by decide, by decide, by decide, hsource⟩, hdraw, ?_⟩
  rcases hruns ⟨8⟩ with ⟨g, s', hg, hspent⟩ | ⟨fault, hfault, -⟩
  · cases hrun.symm.trans hg
    exact ⟨_, _, hrun, hspent, rfl, by decide⟩
  · cases hrun.symm.trans hfault

end RandomFamily

end SessionGraph
