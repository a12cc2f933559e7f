import Mathlib.Data.List.Forall2
import SessionGraph.Term

/-!
# Computations that may fail

A computation that may fail is read backwards from its result: a sequence that gives a result is
made of parts that give theirs (`bind_eq_ok_iff`), and so is one that visits a list
(`mapM_eq_ok_iff`). A sequence that fails does so in one of its parts (`bind_eq_error_iff`), and one
that visits a list does so at the first entry that fails (`mapM_eq_error_iff`).
-/

namespace SessionGraph

variable {ε α β : Type}

theorem bind_eq_ok_iff {x : Except ε α} {f : α → Except ε β} {b : β} :
    x >>= f = .ok b ↔ ∃ a, x = .ok a ∧ f a = .ok b := by
  cases x <;> simp [bind, Except.bind]

theorem bind_eq_error_iff {x : Except ε α} {f : α → Except ε β} {e : ε} :
    x >>= f = .error e ↔ x = .error e ∨ ∃ a, x = .ok a ∧ f a = .error e := by
  cases x <;> simp [bind, Except.bind]

theorem pure_eq_ok_iff {a b : α} : (pure a : Except ε α) = .ok b ↔ b = a := by
  simp [pure, Except.pure, eq_comm]

theorem mapM_eq_ok_iff {f : α → Except ε β} {as : List α} {bs : List β} :
    as.mapM f = .ok bs ↔ List.Forall₂ (fun a b => f a = .ok b) as bs := by
  induction as generalizing bs with
  | nil => rw [List.mapM_nil, pure_eq_ok_iff, List.forall₂_nil_left_iff]
  | cons a as ih =>
    simp only [List.mapM_cons, bind_eq_ok_iff, pure_eq_ok_iff, List.forall₂_cons_left_iff, ih]
    constructor
    · rintro ⟨b, hb, bs, hbs, rfl⟩
      exact ⟨b, bs, hb, hbs, rfl⟩
    · rintro ⟨b, bs, hb, hbs, rfl⟩
      exact ⟨b, hb, bs, hbs, rfl⟩

theorem option_mapM_eq_ok_iff {f : α → Except ε β} {x : Option α} {y : Option β} :
    x.mapM f = .ok y ↔ Option.Rel (fun a b => f a = .ok b) x y := by
  rcases x with _ | a
  · rcases y with _ | b <;> simp [pure, Except.pure]
  · rcases h : f a with e | b <;> rcases y with _ | b' <;> simp [h, Functor.map, Except.map]

theorem mapM_eq_error_iff {f : α → Except ε β} {fails : α → Bool} {as : List α} {e : ε}
    (hfails : ∀ a, fails a = true ↔ ∃ e, f a = .error e) :
    as.mapM f = .error e ↔ ∃ a, as.find? fails = some a ∧ f a = .error e := by
  induction as with
  | nil => simp [pure, Except.pure]
  | cons a as ih =>
    rw [List.mapM_cons, bind_eq_error_iff]
    rcases hfa : f a with e' | b
    · rw [List.find?_cons_of_pos ((hfails a).mpr ⟨e', hfa⟩)]
      simp [hfa]
    · have hpasses : ¬ fails a = true := by
        rw [hfails, hfa]
        simp
      rw [List.find?_cons_of_neg hpasses, ← ih]
      simp [bind_eq_error_iff, pure, Except.pure]

theorem eq_ok_of_toOption {x : Except ε α} {a : α} (h : x.toOption = some a) : x = .ok a := by
  cases x with
  | error e => cases h
  | ok b =>
    cases h
    rfl

theorem exists_of_mem_forall₂ {P : α → β → Prop} {as : List α} {bs : List β} {b : β}
    (h : List.Forall₂ P as bs) (hb : b ∈ bs) : ∃ a ∈ as, P a b := by
  induction h with
  | nil => cases hb
  | @cons a b' as bs hab _ ih =>
    rcases List.mem_cons.mp hb with rfl | hb
    · exact ⟨a, List.mem_cons_self, hab⟩
    · obtain ⟨a, ha, hab⟩ := ih hb
      exact ⟨a, List.mem_cons_of_mem _ ha, hab⟩

theorem exists_of_mem_mapM {f : α → Except ε β} {as : List α} {bs : List β} {b : β}
    (h : as.mapM f = .ok bs) (hb : b ∈ bs) : ∃ a ∈ as, f a = .ok b := by
  obtain ⟨a, ha, hab⟩ := exists_of_mem_forall₂ (mapM_eq_ok_iff.mp h) hb
  exact ⟨a, ha, hab⟩

theorem liftM_eq_ok_iff {x : Except Fault α} {a : α} :
    (liftM x : Except Error α) = .ok a ↔ x = .ok a := by
  cases x <;> simp [liftM, monadLift, MonadLift.monadLift]

theorem liftM_eq_error_iff {x : Except Fault α} {e : Error} :
    (liftM x : Except Error α) = .error e ↔ ∃ fault, x = .error fault ∧ e = .fault fault := by
  cases x <;> simp [liftM, monadLift, MonadLift.monadLift, eq_comm]

end SessionGraph
