/-!
# Depth-first searches end

A depth-first search keeps a stack of frames, each with a key and a number of visits still to
make. A visit spends one of the top frame's and may put a frame with a new key on the stack, and a
frame is taken off when nothing more is to be visited. When all keys come from one list and a
frame brings at most `width` visits, the search ends: `backlog` is smaller after each of the three
moves (`backlog_pop`, `backlog_spend` and `backlog_push`).
-/

namespace SessionGraph.DepthFirst

variable {κ : Type} [BEq κ]

/-- How many keys are not on the path. -/
def fresh (keys path : List κ) : Nat :=
  (keys.filter fun key => !path.contains key).length

/-- What one visit counts for when `free` keys are not on the path. -/
def weight (width : Nat) : (free : Nat) → Nat
  | 0 => 1
  | free + 1 => (width + 2) * weight width free

/-- What is left to do for a stack of keys with their numbers of visits. -/
def backlog (width : Nat) (keys : List κ) : List (κ × Nat) → Nat
  | [] => 0
  | (key, visits) :: rest =>
    (visits + 1) * weight width (fresh keys (key :: rest.map Prod.fst)) + backlog width keys rest

theorem weight_pos (width free : Nat) : 0 < weight width free := by
  induction free with
  | zero => exact Nat.one_pos
  | succ free ih => exact Nat.mul_pos (by omega) ih

theorem weight_le_of_le {width free free' : Nat} (h : free ≤ free') :
    weight width free ≤ weight width free' := by
  induction h with
  | refl => exact Nat.le_refl _
  | step _ ih => exact Nat.le_trans ih (Nat.le_mul_of_pos_left _ (by omega))

theorem fresh_cons_lt [LawfulBEq κ] {keys path : List κ} {key : κ} (hkey : key ∈ keys)
    (hnew : key ∉ path) : fresh keys (key :: path) < fresh keys path := by
  have hfilter : keys.filter (fun k => !(key :: path).contains k)
      = (keys.filter fun k => !path.contains k).filter (fun k => !k == key) := by
    rw [List.filter_filter]
    congr 1
    funext k
    simp [Bool.not_or]
  unfold fresh
  rw [hfilter, List.length_filter_lt_length_iff_exists]
  exact ⟨key, by simp [hkey, hnew], by simp⟩

variable {width : Nat} {keys : List κ} {rest : List (κ × Nat)} {key key' : κ} {visits visits' : Nat}

theorem backlog_pop (frame : κ × Nat) :
    backlog width keys rest < backlog width keys (frame :: rest) := by
  have hpos : 0 < (frame.2 + 1) * weight width (fresh keys (frame.1 :: rest.map Prod.fst)) :=
    Nat.mul_pos (Nat.succ_pos _) (weight_pos _ _)
  simp only [backlog]
  omega

theorem backlog_spend :
    backlog width keys ((key, visits) :: rest) < backlog width keys ((key, visits + 1) :: rest) := by
  have hpos := weight_pos width (fresh keys (key :: rest.map Prod.fst))
  simp only [backlog, Nat.add_mul]
  omega

theorem backlog_push [LawfulBEq κ] (hkey : key' ∈ keys)
    (hnew : key' ∉ key :: rest.map Prod.fst) (hwidth : visits' ≤ width) :
    backlog width keys ((key', visits') :: (key, visits) :: rest)
      < backlog width keys ((key, visits + 1) :: rest) := by
  have hfresh := fresh_cons_lt hkey hnew
  have hpos := weight_pos width (fresh keys (key' :: key :: rest.map Prod.fst))
  have hle : (visits' + 1) * weight width (fresh keys (key' :: key :: rest.map Prod.fst))
      < weight width (fresh keys (key :: rest.map Prod.fst)) :=
    Nat.lt_of_lt_of_le (Nat.mul_lt_mul_of_pos_right (by omega) hpos) (weight_le_of_le hfresh)
  simp only [backlog, Nat.add_mul, List.map_cons]
  simp only [Nat.add_mul] at hle
  omega

end SessionGraph.DepthFirst
