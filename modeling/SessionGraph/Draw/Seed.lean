import SessionGraph.Draw

/-!
# Seeded draws

A source of draws whose state is one machine word. A step adds a constant to the word and folds
the double-width product of the sum and a scrambled sum onto itself. A word is brought below a
bound by multiplication: the high half of the product is the draw, and words whose low half would
favour some draws over others are passed over.
-/

namespace SessionGraph

namespace WordWidth

/-- The number of words: half a word has 32 bits and a full one has 64. -/
def words : WordWidth → Nat
  | .half => 0x100000000
  | .full => 0x10000000000000000

theorem words_pos (width : WordWidth) : 0 < width.words := by
  cases width <;> decide

end WordWidth

/-- The state of a seeded source, at first the seed. -/
structure Seed where
  state : UInt64
deriving DecidableEq, Repr

namespace Seed

/-- What a step adds to the state. -/
def increment : UInt64 := 0x2d358dccaa6c78a5

/-- What scrambles the second factor. -/
def scramble : UInt64 := 0x8bb84b93962eacc9

/-- The next word. -/
def next (seed : Seed) : UInt64 × Seed :=
  let state := seed.state + increment
  let product := state.toNat * (state ^^^ scramble).toNat
  (UInt64.ofNat product ^^^ UInt64.ofNat (product / WordWidth.full.words), ⟨state⟩)

/-- How often a draw that cannot be used is made again. -/
def patience : Nat := 0x4000000000000000

/-- Words are drawn until one need not be passed over. -/
def belowFrom (width : WordWidth) (bound : Nat) (positive : 0 < bound) :
    (tries : Nat) → Seed → Except Fault (Fin bound × Seed)
  | 0, _ => .error .undrawn
  | tries + 1, seed =>
    let (word, seed) := seed.next
    let product := word.toNat % width.words * bound
    if product % width.words < (width.words - bound) % bound then
      belowFrom width bound positive tries seed
    else
      have lt : product / width.words < bound := by
        have hword : word.toNat % width.words < width.words := Nat.mod_lt _ width.words_pos
        exact Nat.div_lt_of_lt_mul (Nat.mul_lt_mul_of_pos_right hword positive)
      .ok (⟨product / width.words, lt⟩, seed)

/-- The seeded source. A coin shows its side by whether the last of eight bits is clear. -/
def source : Source Seed where
  below width bound positive := fun seed => belowFrom width bound positive patience seed
  flip := fun seed =>
    let (word, seed) := seed.next
    .ok (word.toNat % 2 = 0, seed)
  patience := patience

end Seed

end SessionGraph
