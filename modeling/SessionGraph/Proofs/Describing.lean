import SessionGraph.Proofs.Writing

/-!
# The text of a graph by recursion

`Graph.describe` is what the text of a graph is meant to be. A node on the path is described by its
letter, and is given the next one if it has none. Any other node is described by its own text around
the descriptions of what follows it, below a path with the node on it, and after the binder of its
letter if it has one by then. The letters that were given are handed on from each description to the
next.

The writer has a path of open nodes and one text for all of them instead, and puts a binder into
what is written already. It writes what is spelled (`Spells.writes`), and a description reads the
same as the term that is spelled (`Spells.describeAll`).
-/

namespace SessionGraph

/-! ## Letters -/

/-- The letters that nodes have, and how many were given. -/
structure Lettering where
  letters : List (NodeId × Char)
  given : Nat

namespace Lettering

/-- No node has a letter. -/
def none : Lettering := ⟨[], 0⟩

/-- The letter of a node, which is given the next one if it has none. -/
def name (ls : Lettering) (id : NodeId) : Char × Lettering :=
  match ls.letters.lookup id with
  | some name => (name, ls)
  | .none =>
    (Variable.letter ls.given, ⟨(id, Variable.letter ls.given) :: ls.letters, ls.given + 1⟩)

/-- The binder of a node that has a letter. -/
def binder (ls : Lettering) (id : NodeId) : String :=
  match ls.letters.lookup id with
  | some name => "μ" ++ name.toString ++ "."
  | .none => ""

end Lettering

/-! ## Descriptions -/

/-- The texts of the branches of a choice after their labels. -/
def Node.branchTexts (branches : List (Label × NodeId)) (texts : List String) : String :=
  ", ".intercalate ((branches.zip texts).map fun b => "l" ++ toString b.1.1 ++ ": " ++ b.2)

/-- The text of a node around the texts of what follows it. -/
def Node.textAround (texts : List String) : Node → String
  | .done => "end"
  | .message .input participant payload _ =>
    "p" ++ toString participant ++ "?" ++ "[" ++ payload.word ++ "];" ++ texts.headD ""
  | .message .output participant payload _ =>
    "p" ++ toString participant ++ "!" ++ "[" ++ payload.word ++ "];" ++ texts.headD ""
  | .choice .input participant branches =>
    "p" ++ toString participant ++ "&" ++ "\x7b" ++ branchTexts branches texts ++ "\x7d"
  | .choice .output participant branches =>
    "p" ++ toString participant ++ "⊕" ++ "\x7b" ++ branchTexts branches texts ++ "\x7d"

namespace Graph

mutual

/-- The text of a node below the nodes of `path`, and the letters that nodes have afterwards. -/
def describe (g : Graph) (path : List NodeId) (ls : Lettering) (id : NodeId) :
    Except Fault (String × Lettering) :=
  if hnew : id ∈ path then
    let (name, ls) := ls.name id
    .ok (name.toString, ls)
  else
    match hn : g.node id with
    | .error fault => .error fault
    | .ok node => do
      have := DepthFirst.fresh_cons_lt (List.mem_range.mpr (lt_size_of_node hn)) hnew
      let (texts, ls) ← g.describeAll (id :: path) ls node.successors
      return (ls.binder id ++ node.textAround texts, ls)
termination_by (DepthFirst.fresh (List.range g.size) path, 0)

/-- The texts of some nodes below those of `path`, one after the other. -/
def describeAll (g : Graph) (path : List NodeId) (ls : Lettering) :
    (ids : List NodeId) → Except Fault (List String × Lettering)
  | [] => .ok ([], ls)
  | id :: ids => do
    let (text, ls) ← g.describe path ls id
    let (texts, ls) ← g.describeAll path ls ids
    return (text :: texts, ls)
termination_by ids => (DepthFirst.fresh (List.range g.size) path, ids.length + 1)

end

variable {g : Graph} {path : List NodeId} {ls ls' : Lettering} {id : NodeId}

theorem describe_of_mem (h : id ∈ path) :
    g.describe path ls id = .ok ((ls.name id).1.toString, (ls.name id).2) := by
  rw [describe, dif_pos h]

theorem describe_of_node {n : Node} {texts : List String} (h : id ∉ path) (hn : g.node id = .ok n)
    (hbelow : g.describeAll (id :: path) ls n.successors = .ok (texts, ls')) :
    g.describe path ls id = .ok (ls'.binder id ++ n.textAround texts, ls') := by
  rw [describe, dif_neg h]
  split
  · simp_all
  · rename_i n' hn'
    rw [hn, Except.ok.injEq] at hn'
    subst hn'
    rw [hbelow]
    rfl

theorem describeAll_cons {ids : List NodeId} {text : String} {texts : List String}
    {ls'' : Lettering} (hfirst : g.describe path ls id = .ok (text, ls'))
    (hrest : g.describeAll path ls' ids = .ok (texts, ls'')) :
    g.describeAll path ls (id :: ids) = .ok (text :: texts, ls'') := by
  rw [describeAll, hfirst]
  simp only [bind, Except.bind, hrest]
  rfl

theorem describe_of_single {text : String} (h : g.describeAll path ls [id] = .ok ([text], ls')) :
    g.describe path ls id = .ok (text, ls') := by
  rw [describeAll, bind_eq_ok_iff] at h
  obtain ⟨⟨text', ls₁⟩, hfirst, hrest⟩ := h
  simp only [describeAll, bind, Except.bind, pure, Except.pure, Except.ok.injEq, Prod.mk.injEq,
    List.cons.injEq, and_true] at hrest
  rw [hfirst, hrest.1, hrest.2]

end Graph

/-! ## Descriptions of what is spelled -/

/-- The nodes of `named` have the letters with their numbers, and no other node has one. -/
structure Lettering.Follows (ls : Lettering) (named : Names) : Prop where
  given : ls.given = named.length
  lookup : ∀ id,
    ls.letters.lookup id = if id ∈ named then some (Variable.letter (named.number id)) else .none

namespace Lettering.Follows

variable {ls : Lettering} {named : Names} {id : NodeId}

theorem none : Lettering.none.Follows [] := ⟨rfl, fun _ => rfl⟩

theorem name (h : ls.Follows named) (id : NodeId) :
    (ls.name id).1 = Variable.letter (named.number id) ∧
      (ls.name id).2.Follows (named.note id) := by
  have hid := h.lookup id
  unfold Lettering.name
  by_cases hmem : id ∈ named
  · rw [if_pos hmem] at hid
    rw [hid, Names.note, if_pos hmem]
    exact ⟨rfl, h⟩
  · rw [if_neg hmem] at hid
    have hnumber : ls.given = named.number id := by
      rw [h.given, Names.number_of_not_mem hmem]
    rw [hid]
    refine ⟨by rw [hnumber], ?_, fun id' => ?_⟩
    · rw [Names.length_note hmem, h.given]
    · rw [List.lookup_cons, h.lookup id']
      by_cases heq : id' = id
      · simp [heq, Names.mem_note, Names.number_note, hnumber]
      · simp only [beq_eq_false_iff_ne.mpr heq, Names.mem_note_iff, heq, false_or]
        by_cases hmem' : id' ∈ named
        · simp only [hmem', if_true, Names.number_stable Names.prefix_note hmem']
        · simp only [hmem', if_false]

theorem binder_append (h : ls.Follows named) (t : Term) :
    ls.binder id ++ t.text = (named.bind id t).text := by
  unfold binder Names.bind
  rw [h.lookup id]
  split_ifs
  · rfl
  · exact String.empty_append

end Lettering.Follows

theorem branchesText_eq_intercalate (branches : List (Label × Term)) :
    Term.branchesText branches = ", ".intercalate (branches.map fun (label, t) =>
      "l" ++ toString label ++ ": " ++ t.text) := by
  induction branches with
  | nil => rfl
  | cons b branches ih =>
    cases branches with
    | nil => simp [Term.branchesText]
    | cons b' branches =>
      rw [Term.branchesText, ih]
      · simp [String.append_assoc]
      · simp

theorem Node.textAround_map_text {n : Node} {ts : List Term}
    (h : ts.length = n.successors.length) :
    n.textAround (ts.map Term.text) = (n.term ts).text := by
  cases n with
  | done => rfl
  | message polarity participant payload next =>
    obtain ⟨t, rfl⟩ := List.length_eq_one_iff.mp h
    cases polarity <;> rfl
  | choice polarity participant branches =>
    have hbranches : branchTexts branches (ts.map Term.text) =
        Term.branchesText ((branches.map Prod.fst).zip ts) := by
      rw [branchTexts, branchesText_eq_intercalate]
      simp [List.zip_map_left, List.zip_map_right, Function.comp_def]
    cases polarity <;> rw [textAround, term, Term.text, hbranches]

/-- What is described reads as the terms that are spelled. -/
theorem Spells.describeAll {g : Graph} {path ids : List NodeId} {named named' : Names}
    {us : List Term} (h : Spells g path named ids us named') {ls : Lettering}
    (hls : ls.Follows named) :
    ∃ ls', g.describeAll path ls ids = .ok (us.map Term.text, ls') ∧ ls'.Follows named' := by
  induction h generalizing ls with
  | nil => exact ⟨ls, by rw [Graph.describeAll]; rfl, hls⟩
  | @again path ids named named' id us hid hrest ih =>
    obtain ⟨hname, hls₁⟩ := hls.name id
    obtain ⟨ls', htexts, hls'⟩ := ih hls₁
    have hfirst : g.describe path ls id = .ok _ := Graph.describe_of_mem hid
    rw [hname] at hfirst
    exact ⟨ls', Graph.describeAll_cons hfirst htexts, hls'⟩
  | @node path ids named named₁ named' id n ts us hid hn hbelow hrest ihbelow ihrest =>
    obtain ⟨ls₁, htexts₁, hls₁⟩ := ihbelow hls
    obtain ⟨ls', htexts, hls'⟩ := ihrest hls₁
    have hfirst := Graph.describe_of_node hid hn htexts₁
    rw [Node.textAround_map_text hbelow.length_eq, hls₁.binder_append] at hfirst
    exact ⟨ls', Graph.describeAll_cons hfirst htexts, hls'⟩

namespace Graph

variable {g : Graph} {root : NodeId}

/-- Writing ends, and the text of the graph is the description of its root. The writer has given the
same letters to the same nodes. -/
theorem text_eq_description (hroot : g.root = some root) (hg : g.Traversable) :
    ∃ w text ls, g.write root = .ok w ∧ g.text = .ok text ∧
      g.describe [] .none root = .ok (text, ls) ∧
      w.given = ls.given ∧ ∀ id, w.names[id]? = ls.letters.lookup id := by
  obtain ⟨w, t, named, hwrite, htext, hw, hspells⟩ := exists_write hg (.root hroot)
  obtain ⟨ls, hdescribe, hls⟩ := hspells.describeAll .none
  refine ⟨w, t.text, ls, hwrite, htext ▸ text_of_write hroot hwrite,
    describe_of_single hdescribe, hw.given.trans hls.given.symm, fun id => ?_⟩
  rw [hw.names, hls.lookup]

/-- Labels that do not ascend, a node that is written twice and has its letter from the first time,
and an edge to a node that is not there from one that is not met. -/
theorem text_eq_description_shared :
    let g : Graph := ⟨#[.choice .output 0 [(4, 1), (1, 2)], .message .input 1 .nat 2,
      .choice .input 2 [(0, 1), (3, 2)], .message .output 0 .bool 9], some 0⟩
    let text := "p0⊕\x7bl4: μX.p1?[Nat];μY.p2&\x7bl0: X, l3: Y\x7d, " ++
      "l1: μY.p2&\x7bl0: μX.p1?[Nat];Y, l3: Y\x7d\x7d"
    g.Traversable ∧ g.text = .ok text ∧
      ∃ w ls, g.write 0 = .ok w ∧ g.describe [] .none 0 = .ok (text, ls) ∧
        w.given = ls.given ∧ ∀ id, w.names[id]? = ls.letters.lookup id := by
  intro g text
  have hmet : ∀ id, g.Reachable id → id < 3 := by
    intro id h
    induction h with
    | root h =>
      cases h
      decide
    | @next id id' n _ hn hmem ih =>
      match id, ih with
      | 0, _ | 1, _ | 2, _ =>
        cases hn
        revert id'
        decide
  have htext : g.text = .ok text := by decide +kernel
  have hg : g.Traversable := fun id hid => Nat.lt_succ_of_lt (hmet id hid)
  obtain ⟨w, text', ls, hwrite, htext', hdescribe, hletters⟩ :=
    text_eq_description (g := g) rfl hg
  rw [htext, Except.ok.injEq] at htext'
  exact ⟨hg, htext, w, ls, hwrite, htext' ▸ hdescribe, hletters⟩

/-! ## Letters that are used again -/

/-- Choices in a row that each lead to themselves as well as to the next, or for the last only to
themselves. -/
def selfLoops (n : Nat) : Graph :=
  ⟨((List.range (n + 1)).map fun i => .choice .output 0 [(0, i), (1, min (i + 1) n)]).toArray,
    some 0⟩

/-- What is spelled for choice `i` with `k` others behind it. -/
def selfLoopsTerm (i : Nat) : (k : Nat) → Term
  | 0 => .mu i (.choice .output 0 [(0, .var i), (1, .var i)])
  | k + 1 => .mu i (.choice .output 0 [(0, .var i), (1, selfLoopsTerm (i + 1) k)])

theorem node_selfLoops {n i : Nat} (hi : i ≤ n) :
    (selfLoops n).node i = .ok (.choice .output 0 [(0, i), (1, min (i + 1) n)]) := by
  rw [node_eq_ok_iff]
  simp [selfLoops, Nat.lt_succ_of_le hi]

/-- A choice of the row is met again at once, so it has the next letter when it is left. -/
theorem spells_selfLoops_node {n i : Nat} {path : List NodeId} {t : Term} (hi : i ≤ n)
    (hnew : i ∉ path) (h : Spells (selfLoops n) (i :: path) (List.range (i + 1)) [min (i + 1) n]
      [t] (List.range (n + 1))) :
    Spells (selfLoops n) path (List.range i) [i]
      [.mu i (.choice .output 0 [(0, .var i), (1, t)])] (List.range (n + 1)) := by
  have hbelow : Spells (selfLoops n) (i :: path) (List.range i) [i, min (i + 1) n]
      [.var (Names.number (List.range i) i), t] (List.range (n + 1)) :=
    .again List.mem_cons_self (by rwa [Names.note_range])
  have hleft := Spells.node hnew (node_selfLoops hi) hbelow .nil
  have hmem : i ∈ List.range (n + 1) := List.mem_range.mpr (Nat.lt_succ_of_le hi)
  rwa [Names.number_range (Nat.le_refl i), Names.bind, if_pos hmem,
    Names.number_range (Nat.le_succ_of_le hi)] at hleft

theorem spells_selfLoops {n : Nat} (k i : Nat) {path : List NodeId} (hi : i + k = n)
    (hpath : ∀ id ∈ path, id < i) :
    Spells (selfLoops n) path (List.range i) [i] [selfLoopsTerm i k] (List.range (n + 1)) := by
  induction k generalizing i path with
  | zero =>
    obtain rfl : i = n := hi
    refine spells_selfLoops_node (Nat.le_refl i) (fun hmem => Nat.lt_irrefl i (hpath i hmem)) ?_
    have hmem : i ∈ List.range (i + 1) := List.mem_range.mpr (Nat.lt_succ_self i)
    have hagain : Spells (selfLoops i) (i :: path) (List.range (i + 1)) [i]
        [.var (Names.number (List.range (i + 1)) i)] (Names.note (List.range (i + 1)) i) :=
      .again List.mem_cons_self .nil
    rw [Names.number_range (Nat.le_succ i), Names.note, if_pos hmem] at hagain
    rwa [Nat.min_eq_right (Nat.le_succ i)]
  | succ k ih =>
    have hle : i + 1 ≤ n := by omega
    refine spells_selfLoops_node (Nat.le_of_succ_le hle)
      (fun hmem => Nat.lt_irrefl i (hpath i hmem)) ?_
    rw [Nat.min_eq_left hle]
    refine ih (i + 1) (by omega) (List.forall_mem_cons.mpr ⟨Nat.lt_succ_self i, fun id hid => ?_⟩)
    exact Nat.lt_succ_of_lt (hpath id hid)

/-- Choice `i` of the row has the letter with number `i`. -/
theorem write_selfLoops (n : Nat) :
    ∃ w, (selfLoops n).write 0 = .ok w ∧ w.out = (selfLoopsTerm 0 n).text ∧
      ∀ i ≤ n, w.names[i]? = some (Variable.letter i) := by
  obtain ⟨w, hwrite, hout, hw⟩ := write_of_spells (spells_selfLoops n 0 (Nat.zero_add n) (by simp))
  refine ⟨w, hwrite, hout, fun i hi => ?_⟩
  have hmem : i ∈ List.range (n + 1) := List.mem_range.mpr (Nat.lt_succ_of_le hi)
  rw [hw.names, if_pos hmem, Names.number_range (Nat.le_succ_of_le hi)]

example : ∃ w, (selfLoops 26).write 0 = .ok w ∧ w.names[0]? = some 'X' ∧ w.names[1]? = some 'Y' ∧
    w.names[26]? = some 'X' := by
  obtain ⟨w, hwrite, -, hnames⟩ := write_selfLoops 26
  exact ⟨w, hwrite, hnames 0 (by decide), hnames 1 (by decide), hnames 26 (by decide)⟩

end Graph

end SessionGraph
