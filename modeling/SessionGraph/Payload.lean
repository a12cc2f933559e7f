/-!
# Payloads

The base types that a message can carry. The naturals are included in the integers and there is no
other inclusion (`Payload.fits_iff`), so `Payload.fits` is reflexive (`Payload.fits_refl`),
transitive (`Payload.fits_trans`) and antisymmetric (`Payload.fits_antisymm`).
-/

namespace SessionGraph

/-- The base type of a message. -/
inductive Payload where
  | int
  | nat
  | bool
deriving DecidableEq, Repr

namespace Payload

/-- Every payload, in the order in which the random families number them. -/
def all : List Payload := [.int, .nat, .bool]

/-- `a.fits b` says that every value of `a` is a value of `b`. -/
def fits : Payload → Payload → Bool
  | .nat, .int => true
  | a, b => a == b

/-- The name a payload is printed by. -/
def name : Payload → String
  | .int => "Int"
  | .nat => "Nat"
  | .bool => "Bool"

/-- A payload fits itself, and a natural number is an integer. -/
theorem fits_iff {a b : Payload} : a.fits b = true ↔ a = b ∨ a = .nat ∧ b = .int := by
  cases a <;> cases b <;> simp [fits]

@[simp]
theorem fits_refl (a : Payload) : a.fits a = true := by
  cases a <;> rfl

theorem fits_trans {a b c : Payload} (hab : a.fits b = true) (hbc : b.fits c = true) :
    a.fits c = true := by
  cases a <;> cases b <;> cases c <;> simp_all [fits]

theorem fits_antisymm {a b : Payload} (hab : a.fits b = true) (hba : b.fits a = true) :
    a = b := by
  cases a <;> cases b <;> simp_all [fits]

end Payload

end SessionGraph
