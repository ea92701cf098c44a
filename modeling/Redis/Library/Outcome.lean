import Mathlib

/-! Rules for computations that may fail. A computation ensures `P` up to a set of errors:
whatever it returns satisfies `P`, and it fails with an error of that set only. -/

namespace Outcome

universe u

variable {ε : Type*} {α β : Type u}

inductive Ensures (allowed : ε → Prop) : Except ε α → (α → Prop) → Prop where
  | ok {a : α} {P : α → Prop} (h : P a) : Ensures allowed (.ok a) P
  | error {e : ε} {P : α → Prop} (h : allowed e) : Ensures allowed (.error e) P

variable {allowed : ε → Prop} {x : Except ε α} {P Q : α → Prop}

theorem Ensures.of_ok {a : α} (h : Ensures allowed (.ok a) P) : P a := by
  cases h with
  | ok h => exact h

theorem Ensures.of_error {e : ε} (h : Ensures allowed (.error e : Except ε α) P) : allowed e := by
  cases h with
  | error h => exact h

theorem Ensures.bind {f : α → Except ε β} {R : β → Prop} (hx : Ensures allowed x P)
    (hf : ∀ a, P a → Ensures allowed (f a) R) : Ensures allowed (x >>= f) R := by
  cases hx with
  | ok h => exact hf _ h
  | error h => exact .error h

theorem Ensures.map {R : β → Prop} (f : α → β) (hx : Ensures allowed x fun a => R (f a)) :
    Ensures allowed (x.map f) R := by
  cases hx with
  | ok h => exact .ok h
  | error h => exact .error h

/-- An invariant of the rounds of a loop holds behind the loop. -/
theorem Ensures.foldlM {γ : Type*} {f : α → γ → Except ε α}
    (hf : ∀ a c, P a → Ensures allowed (f a c) P) (l : List γ) {a : α} (ha : P a) :
    Ensures allowed (l.foldlM f a) P := by
  induction l generalizing a with
  | nil => exact .ok ha
  | cons c l ih => exact (hf a c ha).bind fun b hb => ih hb

/-- Two computations that both fail, or that return related results. -/
inductive Agree {γ : Type*} (R : α → γ → Prop) : Except ε α → Option γ → Prop where
  | ok {a : α} {c : γ} (h : R a c) : Agree R (.ok a) (some c)
  | error {e : ε} : Agree R (.error e) none

theorem Agree.bind {γ δ : Type u} {R : α → γ → Prop} {S : β → δ → Prop} {y : Option γ}
    {f : α → Except ε β} {g : γ → Option δ} (h : Agree R x y)
    (hfg : ∀ a c, R a c → Agree S (f a) (g c)) : Agree S (x >>= f) (y >>= g) := by
  cases h with
  | ok h => exact hfg _ _ h
  | error => exact .error

/-- Two loops agree if their rounds do. -/
theorem Agree.foldlM {γ : Type u} {ι : Type*} {R : α → γ → Prop} {f : α → ι → Except ε α}
    {g : γ → ι → Option γ} (hfg : ∀ a c i, R a c → Agree R (f a i) (g c i)) (l : List ι) {a : α}
    {c : γ} (h : R a c) : Agree R (l.foldlM f a) (l.foldlM g c) := by
  induction l generalizing a c with
  | nil => exact .ok h
  | cons i l ih => exact (hfg a c i h).bind fun _ _ h' => ih h'

/-- A sequence that succeeds succeeds in both parts. -/
theorem exists_of_bind_eq_ok {f : α → Except ε β} {b : β} (h : (x >>= f) = .ok b) :
    ∃ a, x = .ok a ∧ f a = .ok b := by
  cases x with
  | ok a => exact ⟨a, rfl, h⟩
  | error e => cases h

end Outcome
