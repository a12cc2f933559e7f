import Mathlib.Algebra.GroupWithZero.Nat
import Mathlib.Logic.Relation
import SessionGraph.Proofs.Grammar
import SessionGraph.Proofs.Spelling

/-!
# What is written is a term

The writer goes through the same nodes as the spelling: from a state with nodes that are pending,
rounds lead to the same state with nothing pending, and the text has grown by that of the terms
spelled (`Spells.writes`). Nothing that was written before is touched in between. So the byte at
which the text of an open node starts stays where it is until the node is left, and the binder that
is put in there is the one that the spelling puts around the term (`Writer.Tracks.leave`).

So the text of a graph is that of a term, and laying that term out gives back what the graph stands
for if there are ids enough for its actions.
-/

namespace SessionGraph

namespace Writer

variable {g : Graph} {w w' : Writer}

/-! ## Rounds -/

/-- Rounds lead from one state to the other. -/
def Rounds (g : Graph) : Writer → Writer → Prop :=
  Relation.ReflTransGen fun w w' => w.path ≠ [] ∧ w.advance g = .ok w'

theorem run_of_nil (hw : w.Consistent) (hpath : w.path = []) : w.run g hw = .ok w := by
  rw [run, dif_pos hpath]

theorem run_of_ok (hw : w.Consistent) (hpath : w.path ≠ []) (h : w.advance g = .ok w') :
    w.run g hw = w'.run g (hw.advance hpath h) := by
  rw [run, dif_neg hpath]
  split
  · simp_all
  · rename_i w'' h'
    rw [h, Except.ok.injEq] at h'
    subst h'
    rfl

theorem run_of_rounds (h : Rounds g w w') (hw : w.Consistent) (hpath : w'.path = []) :
    w.run g hw = .ok w' := by
  induction h using Relation.ReflTransGen.head_induction_on with
  | refl => exact run_of_nil hw hpath
  | head hround _ ih =>
    rw [run_of_ok hw hround.1 hround.2]
    exact ih _

theorem rounds_of_advance {top : OpenNode} {rest : List OpenNode} (hpath : w.path = top :: rest)
    (h : w.advance g = .ok w') : Rounds g w w' :=
  .single ⟨hpath ▸ List.cons_ne_nil _ _, h⟩

theorem advance_of_nil {id : NodeId} {start begun : Nat} {closing : String}
    {rest : List OpenNode} (hpath : w.path = ⟨id, start, [], begun, closing⟩ :: rest) :
    w.advance g = leave { w with path := rest, out := w.out ++ closing } id start := by
  obtain ⟨path, onPath, names, given, out⟩ := w
  cases hpath
  rfl

theorem advance_of_cons {id next : NodeId} {start begun : Nat} {label : Option Label}
    {pending : List (Option Label × NodeId)} {closing : String} {rest : List OpenNode}
    (hpath : w.path = ⟨id, start, (label, next) :: pending, begun, closing⟩ :: rest) :
    w.advance g = enter { w with
      path := ⟨id, start, pending, begun + 1, closing⟩ :: rest
      out := w.out ++ lead label begun } g next := by
  obtain ⟨path, onPath, names, given, out⟩ := w
  cases hpath
  rfl

theorem enter_of_mem {id : NodeId} (h : id ∈ w.onPath) :
    w.enter g id = .ok (w.emitName id) := by
  rw [enter, if_pos h]

theorem enter_of_done {id : NodeId} (h : id ∉ w.onPath) (hn : g.node id = .ok .done) :
    w.enter g id = w.passNode id .done := by
  rw [enter, if_neg h, hn]
  rfl

theorem enter_of_node {id : NodeId} {n : Node} (h : id ∉ w.onPath) (hn : g.node id = .ok n)
    (hdone : n ≠ .done) : w.enter g id = .ok (w.openNode id n) := by
  rw [enter, if_neg h, hn]
  cases n with
  | done => exact absurd rfl hdone
  | message => rfl
  | choice => rfl

/-! ## Names -/

/-- The writer knows the nodes of `path` to be on its path, and those of `named` have letters. -/
structure Tracks (w : Writer) (path : List NodeId) (named : Names) : Prop where
  onPath : ∀ id, id ∈ w.onPath ↔ id ∈ path
  given : w.given = named.length
  size : w.names.size = named.length
  names : ∀ id,
    w.names[id]? = if id ∈ named then some (Variable.letter (named.number id)) else none

theorem tracks_blank : blank.Tracks [] [] :=
  ⟨fun id => by simp [blank], rfl, rfl, fun id => by simp [blank]⟩

namespace Tracks

variable {path : List NodeId} {named : Names} {id : NodeId}

/-- The path and the text are not looked at. -/
theorem congr (h : w.Tracks path named) (hon : w'.onPath = w.onPath) (hgiven : w'.given = w.given)
    (hnames : w'.names = w.names) : w'.Tracks path named :=
  ⟨hon ▸ h.onPath, hgiven ▸ h.given, hnames ▸ h.size, hnames ▸ h.names⟩

theorem openNode (h : w.Tracks path named) (id : NodeId) (n : Node) :
    (w.openNode id n).Tracks (id :: path) named := by
  refine ⟨fun id' => ?_, h.given, h.size, h.names⟩
  simp only [Writer.openNode, Std.TreeSet.mem_insert, Std.LawfulEqCmp.compare_eq_iff_eq,
    List.mem_cons, h.onPath]
  rw [eq_comm]

/-- A node is written by the letter with its number, which it is given if it has none. -/
theorem emitName (h : w.Tracks path named) (id : NodeId) :
    (w.emitName id).Tracks path (named.note id) ∧
      (w.emitName id).out = w.out ++ (Term.var (named.number id)).text := by
  have hname := h.names id
  unfold Writer.emitName
  by_cases hmem : id ∈ named
  · rw [if_pos hmem] at hname
    rw [hname, Names.note, if_pos hmem]
    exact ⟨h.congr rfl rfl rfl, rfl⟩
  · rw [if_neg hmem] at hname
    have hnew : ¬ w.names.contains id = true := by
      rw [Std.TreeMap.contains_eq_isSome_getElem?, hname]
      exact Bool.false_ne_true
    have hletter : letter w.given = Variable.letter (named.number id) := by
      rw [letter_eq, h.given, Names.number_of_not_mem hmem]
    rw [hname, hletter]
    refine ⟨⟨h.onPath, ?_, ?_, fun id' => ?_⟩, rfl⟩
    · simp only [emit, h.given, Names.length_note hmem]
    · simp only [emit, Std.TreeMap.size_insert, if_neg hnew, h.size, Names.length_note hmem]
    · simp only [emit, Std.TreeMap.getElem?_insert, Std.LawfulEqCmp.compare_eq_iff_eq,
        h.names id', Names.mem_note_iff]
      by_cases heq : id' = id
      · subst heq
        rw [if_pos rfl, if_pos (.inl rfl), Names.number_note]
      · rw [if_neg (Ne.symm heq)]
        by_cases hmem' : id' ∈ named
        · rw [if_pos hmem', if_pos (.inr hmem'), Names.number_stable Names.prefix_note hmem']
        · rw [if_neg hmem', if_neg (not_or.mpr ⟨heq, hmem'⟩)]

/-- The binder of a node goes between what was written before the node and the text of the node. -/
theorem bindAt (h : w.Tracks path named) (before : String) (t : Term) :
    bindAt w.names[id]? (before ++ t.text) before.utf8ByteSize =
      .ok (before ++ (named.bind id t).text) := by
  unfold Writer.bindAt Names.bind
  rw [h.names id]
  split_ifs
  · refine insertAt_eq_ok_iff.mpr ⟨before, t.text, rfl, rfl, ?_⟩
    simp only [Term.text, String.append_assoc]
  · rfl

/-- A node is left with its binder before its text, wherever it starts. -/
theorem leave (h : w.Tracks (id :: path) named) (hid : id ∉ path) {before : String} {t : Term}
    (hout : w.out = before ++ t.text) :
    ∃ w', w.leave id before.utf8ByteSize = .ok w' ∧ w'.Tracks path named ∧ w'.path = w.path ∧
      w'.out = before ++ (named.bind id t).text := by
  refine ⟨{ w with onPath := w.onPath.erase id, out := before ++ (named.bind id t).text }, ?_,
    ⟨fun id' => ?_, h.given, h.size, h.names⟩, rfl, rfl⟩
  · rw [leave_eq, hout, h.bindAt before t]
    rfl
  · simp only [Std.TreeSet.mem_erase, Ne, Std.LawfulEqCmp.compare_eq_iff_eq, h.onPath,
      List.mem_cons]
    constructor
    · rintro ⟨hne, hid'⟩
      exact hid'.resolve_left (Ne.symm hne)
    · intro hid'
      exact ⟨fun heq => hid (heq ▸ hid'), .inr hid'⟩

end Tracks

/-! ## Texts -/

/-- What is added to the text when `us` is written for what is pending. -/
def written : (begun : Nat) → (pending : List (Option Label × NodeId)) → (us : List Term) → String
  | begun, (label, _) :: pending, u :: us =>
    lead label begun ++ u.text ++ written (begun + 1) pending us
  | _, _, _ => ""

theorem branchesText_eq (begun : Nat) (label : Label) (t : Term) (branches : List (Label × NodeId))
    {ts : List Term} (h : ts.length = branches.length) :
    Term.branchesText ((label, t) :: (branches.map Prod.fst).zip ts) =
      lead (some label) 0 ++ t.text ++
        written (begun + 1) (branches.map (Prod.map some id)) ts := by
  induction branches generalizing label t ts begun with
  | nil => simp [Term.branchesText, written, lead, branchLead]
  | cons b branches ih =>
    obtain ⟨t', ts, rfl⟩ := List.exists_cons_of_length_eq_add_one h
    rw [List.map_cons, List.zip_cons_cons, Term.branchesText]
    · rw [ih (begun + 1) b.1 t' (by simpa using h), ← branchLead]
      simp [written, lead, String.append_assoc]
    · simp

theorem text_term {n : Node} {ts : List Term} (h : ts.length = n.successors.length) :
    (n.term ts).text = n.opening ++ written 0 n.parts ts ++ n.closing := by
  cases n with
  | done => simp [Node.term, Term.text, Node.opening, Node.parts, Node.closing, written]
  | message polarity participant payload next =>
    obtain ⟨t, rfl⟩ := List.length_eq_one_iff.mp h
    rw [Node.term, List.headD_cons, ← Node.opening_message _ _ _ next]
    simp [Node.parts, Node.closing, written, lead]
  | choice polarity participant branches =>
    rw [Node.term, ← Node.opening_choice _ _ branches, Node.parts]
    cases branches with
    | nil => simp [written, Term.branchesText]
    | cons b branches =>
      obtain ⟨t, ts, rfl⟩ := List.exists_cons_of_length_eq_add_one h
      have hlength : ts.length = branches.length := by simpa [Node.successors] using h
      rw [List.map_cons, List.zip_cons_cons, branchesText_eq 0 _ _ _ hlength]
      rfl

/-! ## Writing what is spelled -/

/-- From any state in which the nodes of `ids` are pending, rounds lead to the same state with `us`
written for them. -/
def Writes (g : Graph) (path : List NodeId) (named : Names) (ids : List NodeId) (us : List Term)
    (named' : Names) : Prop :=
  ∀ {w : Writer} {top : OpenNode} {rest : List OpenNode}, w.Tracks path named →
    w.path = top :: rest → top.pending.map Prod.snd = ids →
      ∃ w' begun, Rounds g w w' ∧ w'.Tracks path named' ∧
        w'.path = { top with pending := [], begun := begun } :: rest ∧
        w'.out = w.out ++ written top.begun top.pending us

/-- A node that is entered is written with all below it, and left. -/
theorem Tracks.exists_enter {path : List NodeId} {named named' : Names} {id : NodeId} {n : Node}
    {ts : List Term} (hw : w.Tracks path named) (hid : id ∉ path) (hn : g.node id = .ok n)
    (hspells : Spells g (id :: path) named n.successors ts named')
    (hbelow : Writes g (id :: path) named n.successors ts named') :
    ∃ w₁ w', w.enter g id = .ok w₁ ∧ Rounds g w₁ w' ∧ w'.Tracks path named' ∧ w'.path = w.path ∧
      w'.out = w.out ++ (named'.bind id (n.term ts)).text := by
  have hnew : id ∉ w.onPath := fun hon => hid ((hw.onPath id).mp hon)
  have hopen := hw.openNode id n
  by_cases hdone : n = .done
  · subst hdone
    cases hspells
    let w₂ : Writer := { w with onPath := w.onPath.insert id, out := w.out ++ Node.done.opening }
    have hw₂ : w₂.Tracks (id :: path) named := hopen.congr rfl rfl rfl
    have hout₂ : w₂.out = w.out ++ Term.done.text := rfl
    obtain ⟨w', hleave, hw', hpath, hout⟩ := hw₂.leave hid hout₂
    exact ⟨w', w', (enter_of_done hnew hn).trans hleave, .refl, hw', hpath, hout⟩
  · obtain ⟨w₂, begun, hrounds, hw₂, hpath₂, hout₂⟩ := hbelow hopen rfl (Node.map_snd_parts n)
    let w₃ : Writer := { w₂ with path := w.path, out := w₂.out ++ n.closing }
    have hw₃ : w₃.Tracks (id :: path) named' := hw₂.congr rfl rfl rfl
    have hout₃ : w₃.out = w.out ++ (n.term ts).text := by
      rw [text_term hspells.length_eq]
      simp only [w₃, hout₂, Writer.openNode, String.append_assoc]
    obtain ⟨w', hleave, hw', hpath, hout⟩ := hw₃.leave hid hout₃
    refine ⟨_, w', enter_of_node hnew hn hdone, hrounds.trans ?_, hw', hpath, hout⟩
    exact rounds_of_advance hpath₂ ((advance_of_nil hpath₂).trans hleave)

/-- What is pending is written part by part. -/
theorem Writes.cons {path ids : List NodeId} {named named₁ named' : Names} {next : NodeId}
    {u : Term} {us : List Term}
    (hfirst : ∀ {w : Writer}, w.Tracks path named → ∃ w₁ w₂, w.enter g next = .ok w₁ ∧
      Rounds g w₁ w₂ ∧ w₂.Tracks path named₁ ∧ w₂.path = w.path ∧ w₂.out = w.out ++ u.text)
    (hrest : Writes g path named₁ ids us named') :
    Writes g path named (next :: ids) (u :: us) named' := by
  intro w top rest hw hpath hids
  obtain ⟨id, start, pending, begun, closing⟩ := top
  obtain ⟨⟨label, next⟩, pending, rfl, rfl, hpending⟩ := List.map_eq_cons_iff.mp hids
  let w₀ : Writer := { w with
    path := ⟨id, start, pending, begun + 1, closing⟩ :: rest
    out := w.out ++ lead label begun }
  have hw₀ : w₀.Tracks path named := hw.congr rfl rfl rfl
  obtain ⟨w₁, w₂, henter, hrounds₂, hw₂, hpath₂, hout₂⟩ := hfirst hw₀
  obtain ⟨w', begun', hrounds, hw', hpath', hout'⟩ := hrest hw₂ hpath₂ hpending
  refine ⟨w', begun', ?_, hw', hpath', ?_⟩
  · exact (rounds_of_advance hpath ((advance_of_cons hpath).trans henter)).trans
      (hrounds₂.trans hrounds)
  · simp only [hout', hout₂, w₀, written, String.append_assoc]

end Writer

open Writer in
/-- Rounds write what is spelled. -/
theorem Spells.writes {g : Graph} {path ids : List NodeId} {named named' : Names} {us : List Term}
    (h : Spells g path named ids us named') : Writes g path named ids us named' := by
  induction h with
  | nil =>
    intro w top rest hw hpath hids
    obtain ⟨id, start, pending, begun, closing⟩ := top
    cases List.map_eq_nil_iff.mp hids
    exact ⟨w, begun, .refl, hw, hpath, String.append_empty.symm⟩
  | @again path ids named named' next us hnext hrest ih =>
    refine Writes.cons (fun {w} hw => ?_) ih
    obtain ⟨hw₁, hout₁⟩ := hw.emitName next
    exact ⟨_, _, enter_of_mem ((hw.onPath next).mpr hnext), .refl, hw₁, path_emitName w next, hout₁⟩
  | node hnext hn hbelow hrest ihbelow ihrest =>
    exact Writes.cons (fun hw => hw.exists_enter hnext hn hbelow ihbelow) ihrest

namespace Graph

variable {g : Graph} {root : NodeId}

theorem write_of_rounds {w w' : Writer} (h : Writer.blank.enter g root = .ok w)
    (hrounds : Writer.Rounds g w w') (hpath : w'.path = []) : g.write root = .ok w' := by
  unfold write
  split
  · simp_all
  · rename_i w₁ h₁
    rw [h, Except.ok.injEq] at h₁
    subst h₁
    exact Writer.run_of_rounds hrounds _ hpath

/-- Writing ends with the text of what is spelled. -/
theorem write_of_spells {t : Term} {named : Names} (h : Spells g [] [] [root] [t] named) :
    ∃ w, g.write root = .ok w ∧ w.out = t.text ∧ w.Tracks [] named := by
  cases h with
  | again h => exact absurd h List.not_mem_nil
  | node hnew hn hbelow hrest =>
    cases hrest
    obtain ⟨w₁, w, henter, hrounds, hw, hpath, hout⟩ :=
      Writer.tracks_blank.exists_enter hnew hn hbelow hbelow.writes
    exact ⟨w, write_of_rounds henter hrounds hpath, hout.trans String.empty_append, hw⟩

/-- Where all ids lead to nodes, writing ends with the text of what is spelled. -/
theorem exists_write (hg : g.Traversable) (hroot : g.Reachable root) :
    ∃ w t named, g.write root = .ok w ∧ w.out = t.text ∧ w.Tracks [] named ∧
      Spells g [] [] [root] [t] named := by
  obtain ⟨us, named, hspells⟩ := exists_spells hg [] [] (List.forall_mem_singleton.mpr hroot)
  obtain ⟨t, rfl⟩ := List.length_eq_one_iff.mp hspells.length_eq
  obtain ⟨w, hwrite, htext, hw⟩ := write_of_spells hspells
  exact ⟨w, t, named, hwrite, htext, hw, hspells⟩

theorem text_of_write {w : Writer} (hroot : g.root = some root) (h : g.write root = .ok w) :
    g.text = .ok w.out := by
  unfold text
  rw [hroot]
  exact bind_eq_ok_iff.mpr ⟨w, h, rfl⟩

theorem exists_text (hg : g.Traversable) : ∃ text, g.text = .ok text := by
  cases hroot : g.root with
  | none => exact ⟨"", by rw [text, hroot]⟩
  | some root =>
    obtain ⟨w, t, named, hwrite, -⟩ := exists_write hg (.root hroot)
    exact ⟨_, text_of_write hroot hwrite⟩

/-- The text of a graph is that of a term that stands for the same tree, and the variables of the
term are those with letters of their own if the nodes that are given letters are not more than
these. The graph of the term shows the same tree at all depths, if there are ids for the actions of
the term; this is the only way in which laying it out can fail. -/
theorem text_eq_term (hroot : g.root = some root) (hg : g.Traversable) (hs : g.Sorted) :
    ∃ w t, g.write root = .ok w ∧ g.text = .ok t.text ∧
      (w.names.size ≤ 26 → t.Everywhere (Term.VariableBelow 26)) ∧
      t.Closed ∧ t.Guarded [] ∧ t.Everywhere Term.LabelsAscend ∧
      (∀ depth, g.Displays depth t root) ∧
      (t.actions ≤ NodeId.limit → ∃ g' root', t.toGraph = .ok g' ∧ g'.root = some root' ∧
        ∀ depth, ∃ tree, g.tree depth root = .ok tree ∧ g'.tree depth root' = .ok tree) ∧
      (NodeId.limit < t.actions → t.toGraph = .error (.fault .idSpace)) := by
  obtain ⟨w, t, named, hwrite, htext, hw, hspells⟩ := exists_write hg (.root hroot)
  have hmem : t ∈ [t] := List.mem_singleton_self t
  have hdisplays : ∀ depth, g.Displays depth t root := by
    intro depth
    have hall := hspells.displays depth (σ := fun _ => none) ⟨by simp, by simp⟩
    simpa only [Term.close_none] using (List.forall₂_cons.mp hall).1
  have hclosed : t.Closed := (hspells.closedIn t hmem).mono (by simp)
  have hguarded := hspells.guarded t hmem
  have hlabels := hspells.labelsAscend hs (List.forall_mem_singleton.mpr (.root hroot)) t hmem
  have hgraph := Term.exists_toGraph hclosed hguarded hlabels
  refine ⟨w, t, hwrite, htext ▸ text_of_write hroot hwrite, fun hle => ?_, hclosed, hguarded,
    hlabels, hdisplays, fun hsize => ?_, fun hsize => ?_⟩
  · exact (hspells.variablesBelow t hmem).mono fun u => .mono (hw.size ▸ hle)
  · obtain ⟨g', root', hgraph, hroot', hdisplays'⟩ :=
      hgraph.resolve_right fun h => Nat.not_le_of_lt h.2 hsize
    refine ⟨g', root', hgraph, hroot', fun depth => ?_⟩
    obtain ⟨tree, htree, hshows⟩ := hdisplays depth
    obtain ⟨tree', htree', hshows'⟩ := hdisplays' depth
    exact ⟨tree, htree, (hshows' tree).mp ((hshows tree).mpr rfl) ▸ htree'⟩
  · refine (hgraph.resolve_left ?_).1
    rintro ⟨g', -, hgraph, -⟩
    exact Nat.not_le_of_lt hsize (Term.actions_le_of_toGraph hgraph)

/-- A node is bound where its variable does not occur, as it was met again on another path. -/
theorem text_eq_term_shared :
    let g : Graph := ⟨#[.choice .output 0 [(0, 1), (1, 2)], .message .input 1 .nat 2,
      .choice .input 2 [(0, 1), (3, 2)]], some 0⟩
    let text := "p0⊕\x7bl0: μX.p1?[Nat];μY.p2&\x7bl0: X, l3: Y\x7d, " ++
      "l1: μY.p2&\x7bl0: μX.p1?[Nat];Y, l3: Y\x7d\x7d"
    g.Traversable ∧ g.Sorted ∧ g.text = .ok text ∧
    ∃ t : Term, text = t.text ∧ t.Everywhere (Term.VariableBelow 26) ∧
      t.Closed ∧ t.Guarded [] ∧ t.Everywhere Term.LabelsAscend ∧
      (∀ depth, g.Displays depth t 0) ∧
      ∃ g' root', t.toGraph = .ok g' ∧ g'.root = some root' ∧ ∀ depth, ∃ tree,
        g.tree depth 0 = .ok tree ∧ g'.tree depth root' = .ok tree := by
  intro g text
  have hg : g.Traversable := InBounds.traversable (by decide)
  have hs : g.Sorted := sorted_of_forall (by decide)
  have hnames : (g.write 0).map (fun w => w.names.size) = .ok 2 := by decide +kernel
  have hlimit : Term.marks text ≤ NodeId.limit := by decide +kernel
  have htext : g.text = .ok text := by decide +kernel
  obtain ⟨w, t, hwrite, hterm, hletters, hclosed, hguarded, hlabels, hdisplays, hgraph, -⟩ :=
    text_eq_term (g := g) rfl hg hs
  rw [htext, Except.ok.injEq] at hterm
  rw [hwrite] at hnames
  have hsize : w.names.size = 2 := Except.ok.inj hnames
  refine ⟨hg, hs, htext, t, hterm, hletters (by rw [hsize]; decide), hclosed, hguarded, hlabels,
    hdisplays, hgraph ?_⟩
  rwa [← Term.marks_text, ← hterm]

/-! ## A text with more actions than there are ids -/

/-- Choices in a row, of which both branches lead to the next one, and an end. -/
def doubling (n : Nat) : Graph :=
  ⟨(.done :: (List.range n).map fun i => .choice .output 0 [(0, i), (1, i)]).toArray, some n⟩

/-- What is spelled for the choice with `n` others behind it. -/
def doublingTerm : (n : Nat) → Term
  | 0 => .done
  | n + 1 => .choice .output 0 [(0, doublingTerm n), (1, doublingTerm n)]

theorem spells_doubling {n : Nat} (i : Nat) {path : List NodeId} (hi : i ≤ n)
    (hpath : ∀ id ∈ path, i < id) {ids : List NodeId} {us : List Term}
    (hrest : Spells (doubling n) path [] ids us []) :
    Spells (doubling n) path [] (i :: ids) (doublingTerm i :: us) [] := by
  have hnew : i ∉ path := fun hmem => Nat.lt_irrefl i (hpath i hmem)
  induction i generalizing path ids us with
  | zero => exact .node hnew rfl .nil hrest
  | succ i ih =>
    have hn : (doubling n).node (i + 1) = .ok (.choice .output 0 [(0, i), (1, i)]) := by
      rw [node_eq_ok_iff]
      simp [doubling, Nat.lt_of_succ_le hi]
    have hbelow : ∀ id ∈ (i + 1) :: path, i < id := by
      refine List.forall_mem_cons.mpr ⟨Nat.lt_succ_self i, fun id hid => ?_⟩
      exact Nat.lt_of_succ_lt (hpath id hid)
    have hself : i ∉ (i + 1) :: path := fun hmem => Nat.lt_irrefl i (hbelow i hmem)
    have hle := Nat.le_of_succ_le hi
    exact .node hnew hn (ih hle hbelow (ih hle hbelow .nil hself) hself) hrest

theorem actions_doublingTerm (n : Nat) : (doublingTerm n).actions + 1 = 2 ^ (n + 1) := by
  induction n with
  | zero => rfl
  | succ n ih =>
    rw [doublingTerm, Term.actions, Nat.pow_succ, ← ih]
    simp only [Term.branchActions]
    omega

/-- The tree of a graph with few nodes can be so large that no term with the text of the graph has a
graph. -/
theorem doubling_without_graph :
    let g := doubling 33
    g.size = 34 ∧ g.root = some 33 ∧ g.Traversable ∧ g.Sorted ∧
      (∃ w, g.write 33 = .ok w ∧ w.names.size ≤ 26) ∧
      ¬ ∃ t : Term, t.Everywhere (Term.VariableBelow 26) ∧ g.text = .ok t.text ∧
        ∃ g' root', t.toGraph = .ok g' ∧ g'.root = some root' ∧ ∀ depth, ∃ tree,
          g.tree depth 33 = .ok tree ∧ g'.tree depth root' = .ok tree := by
  intro g
  have hspells : Spells g [] [] [33] [doublingTerm 33] [] :=
    spells_doubling 33 (Nat.le_refl 33) (by simp) .nil
  obtain ⟨w, hwrite, hout, hw⟩ := write_of_spells hspells
  refine ⟨rfl, rfl, InBounds.traversable (by decide), sorted_of_forall (by decide),
    ⟨w, hwrite, by rw [hw.size]; decide⟩, ?_⟩
  rintro ⟨t, -, htext, g', -, hgraph, -⟩
  rw [text_of_write rfl hwrite, hout, Except.ok.injEq] at htext
  have hactions : (doublingTerm 33).actions = t.actions := by
    rw [← Term.marks_text, htext, Term.marks_text]
  have hlarge := actions_doublingTerm 33
  have hsmall := Term.actions_le_of_toGraph hgraph
  rw [NodeId.limit] at hsmall
  omega

end Graph

end SessionGraph
