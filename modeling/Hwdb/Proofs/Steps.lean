import Mathlib.Data.List.Forall2

/-!
# `Hwdb.Proofs.Steps`: steps that may fail

Steps in a row succeed if each of them does on what the ones before give. The lemmas take such
a row apart: by its results (`Except.bind_eq_ok_iff`, `Except.mapM_eq_ok_iff`), or only by
whether there is one (`Except.exists_bind_eq_ok_iff`, `Except.exists_mapM_eq_ok_iff`).
-/

set_option autoImplicit false

namespace Hwdb

namespace Except

variable {ε α β : Type}

/-- Two steps in a row succeed if the second one does on what the first one gives. What the
first one gave is bound by the existential, so that `rintro` takes a row of steps apart from
the front. -/
theorem bind_eq_ok_iff {x : Except ε α} {f : α → Except ε β} {b : β} :
    (x >>= f) = .ok b ↔ ∃ a, x = .ok a ∧ f a = .ok b := by
  cases x with
  | error e =>
      constructor
      · intro h
        cases h
      · rintro ⟨a, h, -⟩
        cases h
  | ok a =>
      constructor
      · intro h
        exact ⟨a, rfl, h⟩
      · rintro ⟨a', h, hb⟩
        cases h
        exact hb

/-- A step for each element of a list succeeds if all of them do, and then the results stand
in the order of the elements. -/
theorem mapM_eq_ok_iff {f : α → Except ε β} {as : List α} {bs : List β} :
    as.mapM f = .ok bs ↔ List.Forall₂ (fun a b => f a = .ok b) as bs := by
  induction as generalizing bs with
  | nil => cases bs <;> simp [pure, Except.pure]
  | cons a as ih =>
      simp only [List.mapM_cons, bind_eq_ok_iff, List.forall₂_cons_left_iff, ← ih]
      constructor
      · rintro ⟨b, hb, bs', hbs, h⟩
        cases h
        exact ⟨b, bs', hb, hbs, rfl⟩
      · rintro ⟨b, bs', hb, hbs, rfl⟩
        exact ⟨b, hb, bs', hbs, rfl⟩

/-- Where it does not matter to the second step what the first one gives, both have to
succeed. With this a row of steps can be checked for success without naming any result. -/
theorem exists_bind_eq_ok_iff {x : Except ε α} {f : α → Except ε β} {P : Prop}
    (hf : ∀ a, (∃ b, f a = .ok b) ↔ P) :
    (∃ b, (x >>= f) = .ok b) ↔ (∃ a, x = .ok a) ∧ P := by
  simp only [bind_eq_ok_iff]
  constructor
  · rintro ⟨b, a, ha, hb⟩
    exact ⟨⟨a, ha⟩, (hf a).1 ⟨b, hb⟩⟩
  · rintro ⟨⟨a, ha⟩, hP⟩
    obtain ⟨b, hb⟩ := (hf a).2 hP
    exact ⟨b, a, ha, hb⟩

/-- The last step of a row, which only gives back a value, always succeeds. It closes a
chain of `exists_bind_eq_ok_iff`. -/
theorem exists_pure_eq_ok (a : α) : (∃ b, (pure a : Except ε α) = .ok b) ↔ True :=
  iff_true_intro ⟨a, rfl⟩

/-- A step for each element has results for a list if it has one for each element. The
results themselves are left open, as `exists_bind_eq_ok_iff` leaves them. -/
theorem exists_mapM_eq_ok_iff {f : α → Except ε β} {as : List α} :
    (∃ bs, as.mapM f = .ok bs) ↔ ∀ a ∈ as, ∃ b, f a = .ok b := by
  induction as with
  | nil => simp [pure, Except.pure]
  | cons a as ih =>
      rw [List.mapM_cons,
        exists_bind_eq_ok_iff fun b => exists_bind_eq_ok_iff fun bs => exists_pure_eq_ok _, ih]
      simp

end Except

end Hwdb
