import SessionGraph.Graph.Text
import SessionGraph.Proofs.Diagnosis

/-!
# The grammar of terms

How a term is written, said without the writer: every action with its signs, every payload by its
name and every variable by its letter (`Term.text`). The writer has tables of its own, which say the
same (`letter_eq`, `Payload.name_eq`, `Node.opening_message`, `Node.opening_choice`).

An action is written with exactly one "p" or "d", that of its participant or that of "end", and
neither letter is used for anything else. So the number of actions of a term can be read off its
text (`Term.marks_text`).
-/

namespace SessionGraph

/-! ## Texts -/

/-- The letter of a variable. The alphabet is gone through once more for each 26 variables. -/
def Variable.letter : Variable → Char
  | 0 => 'X'
  | 1 => 'Y'
  | 2 => 'Z'
  | 3 => 'W'
  | 4 => 'V'
  | 5 => 'U'
  | 6 => 'T'
  | 7 => 'S'
  | 8 => 'R'
  | 9 => 'Q'
  | 10 => 'P'
  | 11 => 'O'
  | 12 => 'N'
  | 13 => 'M'
  | 14 => 'L'
  | 15 => 'K'
  | 16 => 'J'
  | 17 => 'I'
  | 18 => 'H'
  | 19 => 'G'
  | 20 => 'F'
  | 21 => 'E'
  | 22 => 'D'
  | 23 => 'C'
  | 24 => 'B'
  | 25 => 'A'
  | v + 26 => Variable.letter v

/-- The name of a payload in a term. -/
def Payload.word : Payload → String
  | .int => "Int"
  | .nat => "Nat"
  | .bool => "Bool"

namespace Term

mutual

/-- The text of a term. -/
def text : Term → String
  | .done => "end"
  | .message .input participant payload next =>
    "p" ++ toString participant ++ "?" ++ "[" ++ payload.word ++ "];" ++ next.text
  | .message .output participant payload next =>
    "p" ++ toString participant ++ "!" ++ "[" ++ payload.word ++ "];" ++ next.text
  | .choice .input participant branches =>
    "p" ++ toString participant ++ "&" ++ "\x7b" ++ branchesText branches ++ "\x7d"
  | .choice .output participant branches =>
    "p" ++ toString participant ++ "⊕" ++ "\x7b" ++ branchesText branches ++ "\x7d"
  | .mu v body => "μ" ++ v.letter.toString ++ "." ++ body.text
  | .var v => v.letter.toString

/-- The text of the branches of a choice. -/
def branchesText : List (Label × Term) → String
  | [] => ""
  | [(label, body)] => "l" ++ toString label ++ ": " ++ body.text
  | (label, body) :: branches =>
    "l" ++ toString label ++ ": " ++ body.text ++ ", " ++ branchesText branches

end

end Term

/-! ## The tables of the writer -/

theorem letter_eq (number : Nat) : letter number = Variable.letter number := by
  fun_induction Variable.letter number with
  | case27 v ih => exact (letter_add_length v).trans ih
  | _ => rfl

theorem Payload.name_eq (payload : Payload) : payload.name = payload.word := by
  cases payload <;> rfl

theorem Node.opening_message (polarity : Polarity) (participant : Participant) (payload : Payload)
    (next : NodeId) (t : Term) :
    (message polarity participant payload next).opening ++ t.text =
      (Term.message polarity participant payload t).text := by
  cases polarity <;> simp [opening, Polarity.messageSign, Term.text, Payload.name_eq]

theorem Node.opening_choice (polarity : Polarity) (participant : Participant)
    (branches : List (Label × NodeId)) (bs : List (Label × Term)) :
    (choice polarity participant branches).opening ++ Term.branchesText bs ++
        (choice polarity participant branches).closing =
      (Term.choice polarity participant bs).text := by
  cases polarity <;> simp [opening, closing, Polarity.choiceSign, Term.text]

/-! ## Marks -/

namespace Term

/-- How often the letters that mark actions occur in a text. -/
def marks (text : String) : Nat := text.toList.countP fun c => c = 'p' ∨ c = 'd'

theorem marks_append (text text' : String) : marks (text ++ text') = marks text + marks text' := by
  simp [marks]

theorem marks_toString (n : Nat) : marks (toString n) = 0 := by
  refine List.countP_eq_zero.mpr fun c hc hmark => ?_
  rw [show toString n = n.repr from rfl, Nat.repr_eq_ofList_toDigits, String.toList_ofList] at hc
  have hdigit := Nat.isDigit_of_mem_toDigits (b := 10) (by decide) (by decide) hc
  rcases of_decide_eq_true hmark with rfl | rfl <;> cases hdigit

theorem marks_letter (v : Variable) : marks v.letter.toString = 0 := by
  fun_induction Variable.letter v with
  | case27 v ih => exact ih
  | _ => rfl

theorem marks_word (payload : Payload) : marks payload.word = 0 := by
  cases payload <;> rfl

theorem marks_signs : marks "p" = 1 ∧ marks "?" = 0 ∧ marks "!" = 0 ∧ marks "[" = 0 ∧
    marks "];" = 0 ∧ marks "&" = 0 ∧ marks "⊕" = 0 ∧ marks "\x7b" = 0 ∧ marks "\x7d" = 0 ∧
    marks "μ" = 0 ∧ marks "." = 0 ∧ marks "l" = 0 ∧ marks ": " = 0 ∧ marks ", " = 0 := by
  decide

mutual

/-- Every action has one mark. -/
theorem marks_text : (t : Term) → marks t.text = t.actions
  | .done => by decide
  | .message polarity participant payload next => by
    cases polarity <;>
      simp only [text, actions, marks_append, marks_toString, marks_word, marks_signs,
        marks_text next] <;>
      omega
  | .choice polarity participant branches => by
    cases polarity <;>
      simp only [text, actions, marks_append, marks_toString, marks_signs,
        marks_branchesText branches] <;>
      omega
  | .mu v body => by
    simp only [text, actions, marks_append, marks_letter, marks_signs, marks_text body]
    omega
  | .var v => marks_letter v

theorem marks_branchesText : (branches : List (Label × Term)) →
    marks (branchesText branches) = branchActions branches
  | [] => by decide
  | [(label, body)] => by
    simp only [branchesText, branchActions, marks_append, marks_toString, marks_signs,
      marks_text body]
    omega
  | (label, body) :: b :: branches => by
    simp only [branchesText, branchActions, marks_append, marks_toString, marks_signs,
      marks_text body, marks_branchesText (b :: branches)]
    omega

end

end Term

end SessionGraph
