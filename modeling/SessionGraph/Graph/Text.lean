import SessionGraph.DepthFirst
import SessionGraph.Graph
import Std.Data.TreeMap.Lemmas
import Std.Data.TreeSet.Lemmas

/-!
# The text of a graph

A graph is written as a term. Writing goes depth first from the root; a node met again below itself
is written as a variable, and the text of a node that was met so starts with the binder of its
variable. Whether it was is known only when all below the node is written. As there is one text for
all nodes, every node on the path keeps the byte at which its own text starts, and a binder is put
in there when the node is left (`insertAt`). A node keeps its variable to the end, also where it is
written once more on another path.

One round is `Writer.advance`. The nodes on the path are distinct and known to be there in all
writing (`Writer.Consistent`), so a round leaves less to do (`Writer.advance_lt`) and `Writer.run`
ends.
-/

namespace SessionGraph

/-! ## Letters -/

/-- The letters that variables are written by, first to last. -/
def letters : List Char := "XYZWVUTSRQPONMLKJIHGFEDCBA".toList

/-- The letter that is given after `number` others. They are used again when all are taken. -/
def letter (number : Nat) : Char := letters.getD (number % letters.length) 'X'

theorem getElem?_letters {number : Nat} (h : number < letters.length) :
    letters[number]? = some (letter number) := by
  rw [letter, Nat.mod_eq_of_lt h, List.getD_eq_getElem?_getD, List.getElem?_eq_getElem h,
    Option.getD_some]

theorem letter_add_length (number : Nat) : letter (number + letters.length) = letter number := by
  rw [letter, Nat.add_mod_right, ← letter]

/-! ## Insertion -/

/-- The text with `piece` put in at a byte. -/
def insertAt (text : String) (offset : Nat) (piece : String) : Except Fault String :=
  if h : String.Pos.Raw.IsValid text ⟨offset⟩ then
    let position : text.Pos := ⟨⟨offset⟩, h⟩
    .ok ((text.sliceTo position).copy ++ piece ++ (text.sliceFrom position).copy)
  else .error .insideCharacter

/-- A text can be put in exactly where another is put together from two. -/
theorem insertAt_eq_ok_iff {text piece text' : String} {offset : Nat} :
    insertAt text offset piece = .ok text' ↔ ∃ before after, text = before ++ after ∧
      offset = before.utf8ByteSize ∧ text' = before ++ piece ++ after := by
  unfold insertAt
  constructor
  · intro h
    split at h
    · rename_i hvalid
      have hsplits := (⟨⟨offset⟩, hvalid⟩ : text.Pos).splits
      exact ⟨_, _, hsplits.eq_append, congrArg String.Pos.Raw.byteIdx hsplits.offset_eq_rawEndPos,
        (Except.ok.inj h).symm⟩
    · cases h
  · rintro ⟨before, after, rfl, rfl, rfl⟩
    have hvalid : String.Pos.Raw.IsValid (before ++ after) ⟨before.utf8ByteSize⟩ :=
      String.Pos.Raw.isValid_iff_exists_append.mpr ⟨before, after, rfl, rfl⟩
    have hsplits : (⟨_, hvalid⟩ : (before ++ after).Pos).Splits before after := ⟨rfl, rfl⟩
    rw [dif_pos hvalid]
    simp only [hsplits.copy_sliceTo_eq, hsplits.copy_sliceFrom_eq]

/-! ## Texts of nodes -/

namespace Polarity

/-- The sign of a message. -/
def messageSign : Polarity → String
  | .input => "?"
  | .output => "!"

/-- The sign of a choice. -/
def choiceSign : Polarity → String
  | .input => "&"
  | .output => "⊕"

end Polarity

namespace Node

/-- The text of an action before what follows it. -/
def opening : Node → String
  | .done => "end"
  | .message polarity participant payload _ =>
    "p" ++ toString participant ++ polarity.messageSign ++ "[" ++ payload.name ++ "];"
  | .choice polarity participant _ => "p" ++ toString participant ++ polarity.choiceSign ++ "\x7b"

/-- What follows an action, with the labels of a choice. -/
def parts : Node → List (Option Label × NodeId)
  | .done => []
  | .message _ _ _ next => [(none, next)]
  | .choice _ _ branches => branches.map (Prod.map some id)

/-- The text of an action after what follows it. -/
def closing : Node → String
  | .choice _ _ _ => "\x7d"
  | _ => ""

theorem map_snd_parts (node : Node) : node.parts.map Prod.snd = node.successors := by
  cases node <;> simp [parts, successors]

theorem length_parts (node : Node) : node.parts.length = node.successors.length := by
  rw [← map_snd_parts, List.length_map]

end Node

/-- The text that leads to a branch. -/
def branchLead (label : Label) : String := "l" ++ toString label ++ ": "

/-- The text that leads to what follows an action, when `begun` parts of it were written before. -/
def lead : (label : Option Label) → (begun : Nat) → String
  | none, _ => ""
  | some label, 0 => branchLead label
  | some label, _ + 1 => ", " ++ branchLead label

/-- A node on the path. -/
structure OpenNode where
  id : NodeId
  /-- The byte at which the text of the node starts. -/
  start : Nat
  /-- What follows the node and is still to be written. -/
  pending : List (Option Label × NodeId)
  /-- How much of what follows the node was begun. -/
  begun : Nat
  closing : String
deriving DecidableEq, Repr

/-- Writing that is under way. -/
structure Writer where
  /-- The path from the node that is being written back to the root. -/
  path : List OpenNode
  /-- The nodes on the path. -/
  onPath : Std.TreeSet NodeId
  /-- The letters of the nodes that have variables. -/
  names : Std.TreeMap NodeId Char
  /-- How many letters were given. -/
  given : Nat
  /-- The text so far. -/
  out : String

namespace Writer

/-- Nothing is written yet. -/
def blank : Writer := ⟨[], ∅, ∅, 0, ""⟩

/-- Adds to the text. -/
def emit (w : Writer) (text : String) : Writer :=
  match w with
  | ⟨path, onPath, names, given, out⟩ => ⟨path, onPath, names, given, out ++ text⟩

/-- Writes the letter of a node, which is given the next one if it has none. -/
def emitName (w : Writer) (id : NodeId) : Writer :=
  match w.names[id]? with
  | some name => w.emit name.toString
  | none =>
    let name := letter w.given
    { w with names := w.names.insert id name, given := w.given + 1 }.emit name.toString

/-- The text with a binder put in at a byte, if there is a letter to be bound. -/
def bindAt (name : Option Char) (out : String) (start : Nat) : Except Fault String :=
  match name with
  | some name => insertAt out start ("μ" ++ name.toString ++ ".")
  | none => .ok out

/-- Takes a node off the path, and puts its binder before its text if it has a letter. -/
def leave (w : Writer) (id : NodeId) (start : Nat) : Except Fault Writer :=
  match w with
  | ⟨path, onPath, names, given, out⟩ => do
    let out ← bindAt names[id]? out start
    return ⟨path, onPath.erase id, names, given, out⟩

/-- Starts the text of a node that something follows. -/
def openNode (w : Writer) (id : NodeId) (node : Node) : Writer :=
  match w with
  | ⟨path, onPath, names, given, out⟩ =>
    ⟨⟨id, out.utf8ByteSize, node.parts, 0, node.closing⟩ :: path, onPath.insert id, names, given,
      out ++ node.opening⟩

/-- Writes a node at once. -/
def passNode (w : Writer) (id : NodeId) (node : Node) : Except Fault Writer :=
  match w with
  | ⟨path, onPath, names, given, out⟩ =>
    let start := out.utf8ByteSize
    leave ⟨path, onPath.insert id, names, given, out ++ node.opening⟩ id start

/-- Writes a node that is on the path as a variable, an end at once, and opens any other node. -/
def enter (w : Writer) (g : Graph) (id : NodeId) : Except Fault Writer :=
  if id ∈ w.onPath then .ok (w.emitName id)
  else do
    match ← g.node id with
    | .done => w.passNode id .done
    | node => return w.openNode id node

/-- One round: goes on to what follows the node that is being written, or leaves that node. An empty
path stays as it is. -/
def advance (w : Writer) (g : Graph) : Except Fault Writer :=
  match w with
  | ⟨[], onPath, names, given, out⟩ => .ok ⟨[], onPath, names, given, out⟩
  | ⟨⟨id, start, (label, next) :: pending, begun, closing⟩ :: path, onPath, names, given, out⟩ =>
    enter ⟨⟨id, start, pending, begun + 1, closing⟩ :: path, onPath, names, given,
      out ++ lead label begun⟩ g next
  | ⟨⟨id, start, [], _, closing⟩ :: path, onPath, names, given, out⟩ =>
    leave ⟨path, onPath, names, given, out ++ closing⟩ id start

/-- The nodes on the path are distinct and known to be there. -/
structure Consistent (w : Writer) : Prop where
  nodup : (w.path.map OpenNode.id).Nodup
  onPath : ∀ id ∈ w.path.map OpenNode.id, id ∈ w.onPath

/-- The path as far as it matters for what is left to do: the nodes, and how much follows each. -/
def outline (w : Writer) : List (NodeId × Nat) :=
  w.path.map fun node => (node.id, node.pending.length)

/-- What is left to do. -/
def backlog (g : Graph) (w : Writer) : Nat :=
  DepthFirst.backlog g.edges.length (List.range g.size) w.outline

/-! ## The rounds -/

theorem path_emitName (w : Writer) (id : NodeId) : (w.emitName id).path = w.path := by
  unfold emitName
  split <;> rfl

theorem onPath_emitName (w : Writer) (id : NodeId) : (w.emitName id).onPath = w.onPath := by
  unfold emitName
  split <;> rfl

/-- Leaving a node changes nothing but what is on the path and the text. -/
theorem leave_eq (w : Writer) (id : NodeId) (start : Nat) : w.leave id start =
    (bindAt w.names[id]? w.out start).map fun out =>
      { w with onPath := w.onPath.erase id, out := out } := by
  obtain ⟨path, onPath, names, given, out⟩ := w
  simp only [leave]
  cases bindAt names[id]? out start <;> rfl

theorem leave_cases {w w' : Writer} {id : NodeId} {start : Nat} (h : w.leave id start = .ok w') :
    ∃ out, w' = { w with onPath := w.onPath.erase id, out := out } := by
  rw [leave_eq] at h
  rcases hout : bindAt w.names[id]? w.out start with _ | out
  · rw [hout] at h
    cases h
  · rw [hout] at h
    exact ⟨out, (Except.ok.inj h).symm⟩

/-- Everything that entering a node can do. -/
theorem enter_cases {g : Graph} {w w' : Writer} {id : NodeId} (h : w.enter g id = .ok w') :
    (id ∈ w.onPath ∧ w' = w.emitName id) ∨
    (id ∉ w.onPath ∧ g.node id = .ok .done ∧ w.passNode id .done = .ok w') ∨
    (∃ node, id ∉ w.onPath ∧ g.node id = .ok node ∧ w' = w.openNode id node) := by
  unfold enter at h
  split at h
  · cases h
    exact .inl ⟨‹_›, rfl⟩
  · rcases hn : g.node id with _ | node
    · simp [hn, bind, Except.bind] at h
    · simp only [hn, bind, Except.bind] at h
      split at h
      · exact .inr (.inl ⟨‹_›, rfl, h⟩)
      · exact .inr (.inr ⟨node, ‹_›, rfl, (Except.ok.inj h).symm⟩)

/-- Everything that a round can do. -/
theorem advance_cases {g : Graph} {w w' : Writer} (hpath : w.path ≠ [])
    (h : w.advance g = .ok w') :
    (∃ id start label next pending begun closing path,
      w.path = ⟨id, start, (label, next) :: pending, begun, closing⟩ :: path ∧
      enter ⟨⟨id, start, pending, begun + 1, closing⟩ :: path, w.onPath, w.names, w.given,
        w.out ++ lead label begun⟩ g next = .ok w') ∨
    (∃ id start begun closing path, w.path = ⟨id, start, [], begun, closing⟩ :: path ∧
      leave ⟨path, w.onPath, w.names, w.given, w.out ++ closing⟩ id start = .ok w') := by
  unfold advance at h
  split at h
  · exact absurd rfl hpath
  · exact .inl ⟨_, _, _, _, _, _, _, _, rfl, h⟩
  · exact .inr ⟨_, _, _, _, _, rfl, h⟩

theorem passNode_eq (w : Writer) (id : NodeId) (node : Node) : w.passNode id node =
    leave { w with onPath := w.onPath.insert id, out := w.out ++ node.opening } id
      w.out.utf8ByteSize :=
  rfl

/-- A node that is passed leaves the path as it was. -/
theorem passNode_cases {w w' : Writer} {id : NodeId} {node : Node}
    (h : w.passNode id node = .ok w') :
    w'.path = w.path ∧ w'.onPath = (w.onPath.insert id).erase id := by
  rw [passNode_eq] at h
  obtain ⟨out, rfl⟩ := leave_cases h
  exact ⟨rfl, rfl⟩

theorem Consistent.insert {w : Writer} (hw : w.Consistent) (id : NodeId) :
    ∀ id' ∈ id :: w.path.map OpenNode.id, id' ∈ w.onPath.insert id := by
  intro id' hid'
  rw [Std.TreeSet.mem_insert, Std.LawfulEqCmp.compare_eq_iff_eq]
  rcases List.mem_cons.mp hid' with rfl | hid'
  · exact .inl rfl
  · exact .inr (hw.onPath id' hid')

/-- A path stays known when a node that is not on it is taken off. -/
theorem consistent_of_erase {w' : Writer} {onPath : Std.TreeSet NodeId} {id : NodeId}
    (hnodup : (w'.path.map OpenNode.id).Nodup) (hid : id ∉ w'.path.map OpenNode.id)
    (hon : ∀ id' ∈ w'.path.map OpenNode.id, id' ∈ onPath) (hw' : w'.onPath = onPath.erase id) :
    w'.Consistent := by
  refine ⟨hnodup, fun id' hid' => ?_⟩
  rw [hw', Std.TreeSet.mem_erase, Ne, Std.LawfulEqCmp.compare_eq_iff_eq]
  refine ⟨?_, hon id' hid'⟩
  rintro rfl
  exact hid hid'

theorem Consistent.enter {g : Graph} {w w' : Writer} {id : NodeId} (hw : w.Consistent)
    (h : w.enter g id = .ok w') : w'.Consistent := by
  rcases enter_cases h with ⟨-, rfl⟩ | ⟨hnew, -, hpass⟩ | ⟨node, hnew, -, rfl⟩
  · constructor
    · rw [path_emitName]
      exact hw.nodup
    · rw [path_emitName, onPath_emitName]
      exact hw.onPath
  · obtain ⟨hpath, honPath⟩ := passNode_cases hpass
    refine consistent_of_erase (hpath ▸ hw.nodup) ?_ (fun id' hid' => ?_) honPath
    · rw [hpath]
      exact fun hid => hnew (hw.onPath id hid)
    · rw [hpath] at hid'
      exact hw.insert id id' (List.mem_cons_of_mem _ hid')
  · exact ⟨List.nodup_cons.mpr ⟨fun hmem => hnew (hw.onPath _ hmem), hw.nodup⟩, hw.insert id⟩

theorem Consistent.advance {g : Graph} {w w' : Writer} (hw : w.Consistent) (hpath : w.path ≠ [])
    (h : w.advance g = .ok w') : w'.Consistent := by
  obtain ⟨hnodup, hon⟩ := hw
  rcases advance_cases hpath h with
    ⟨id, start, label, next, pending, begun, closing, path, hp, henter⟩ |
    ⟨id, start, begun, closing, path, hp, hleave⟩
  · rw [hp] at hnodup hon
    exact Consistent.enter ⟨hnodup, hon⟩ henter
  · rw [hp, List.map_cons] at hnodup hon
    obtain ⟨out, rfl⟩ := leave_cases hleave
    exact consistent_of_erase (List.nodup_cons.mp hnodup).2 (List.nodup_cons.mp hnodup).1
      (fun id' hid' => hon id' (List.mem_cons_of_mem _ hid')) rfl

/-- A round leaves less to do. -/
theorem advance_lt {g : Graph} {w w' : Writer} (hw : w.Consistent) (hpath : w.path ≠ [])
    (h : w.advance g = .ok w') : w'.backlog g < w.backlog g := by
  unfold backlog
  rcases advance_cases hpath h with
    ⟨id, start, label, next, pending, begun, closing, path, hp, henter⟩ |
    ⟨id, start, begun, closing, path, hp, hleave⟩
  · have hon := hw.onPath
    rw [hp] at hon
    have houtline : w.outline = (id, pending.length + 1)
        :: path.map fun node => (node.id, node.pending.length) := by
      rw [outline, hp]
      rfl
    rw [houtline]
    rcases enter_cases henter with ⟨-, rfl⟩ | ⟨-, -, hpass⟩ | ⟨node, hnew, hn, rfl⟩
    · rw [outline, path_emitName]
      exact DepthFirst.backlog_spend
    · rw [outline, (passNode_cases hpass).1]
      exact DepthFirst.backlog_spend
    · refine DepthFirst.backlog_push (List.mem_range.mpr (Graph.lt_size_of_node hn)) ?_ ?_
      · intro hmem
        exact hnew (hon _ (by simpa [Function.comp_def] using hmem))
      · simpa [Node.length_parts] using Graph.length_successors_le hn
  · have houtline : w.outline = (id, 0)
        :: path.map fun node => (node.id, node.pending.length) := by
      rw [outline, hp]
      rfl
    obtain ⟨out, rfl⟩ := leave_cases hleave
    rw [houtline]
    exact DepthFirst.backlog_pop _

theorem consistent_blank : blank.Consistent :=
  ⟨List.nodup_nil, fun _ h => absurd h List.not_mem_nil⟩

/-- Rounds until the path is empty. -/
def run (w : Writer) (g : Graph) (hw : w.Consistent) : Except Fault Writer :=
  if hpath : w.path = [] then .ok w
  else
    match h : w.advance g with
    | .error fault => .error fault
    | .ok w' =>
      have := advance_lt hw hpath h
      run w' g (hw.advance hpath h)
termination_by w.backlog g

end Writer

namespace Graph

/-- Writes the part of a graph below a node to the end. -/
def write (g : Graph) (id : NodeId) : Except Fault Writer :=
  match h : Writer.blank.enter g id with
  | .error fault => .error fault
  | .ok w => w.run g (Writer.consistent_blank.enter h)

/-- The graph as a term; nothing if it has no root. -/
def text (g : Graph) : Except Fault String :=
  match g.root with
  | none => .ok ""
  | some root => do
    let w ← g.write root
    return w.out

end Graph

end SessionGraph
