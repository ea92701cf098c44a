import Mathlib

/-! Runs of a deterministic machine that answers every input, and the one
induction that lifts a simulation of single steps to whole runs. -/
namespace Simulation

variable {σ τ ι ρ ω : Type*}
variable {l : List ι} {s : σ} {step : σ → ι → σ × ρ}

/-- Feed a list of inputs to a machine, collecting its answers in order. -/
def run (step : σ → ι → σ × ρ) : σ → List ι → σ × List ρ
  | s, [] => (s, [])
  | s, i :: rest =>
    let next := step s i
    let later := run step next.1 rest
    (later.1, next.2 :: later.2)

/-- Every input of the run is given in a state that allows it. -/
def RunOk (step : σ → ι → σ × ρ) (ok : σ → ι → Prop) : σ → List ι → Prop
  | _, [] => True
  | s, i :: rest => ok s i ∧ RunOk step ok (step s i).1 rest

instance RunOk.decidable (step : σ → ι → σ × ρ) (ok : σ → ι → Prop)
    [∀ s i, Decidable (ok s i)] : ∀ s l, Decidable (RunOk step ok s l)
  | _, [] => inferInstanceAs (Decidable True)
  | s, i :: rest =>
    have := RunOk.decidable step ok (step s i).1 rest
    inferInstanceAs (Decidable (ok s i ∧ RunOk step ok (step s i).1 rest))

/-- A condition on the inputs alone. -/
theorem RunOk.of_forall {ok : ι → Prop} (h : ∀ i ∈ l, ok i)
    (s : σ) : RunOk step (fun _ i => ok i) s l := by
  induction l generalizing s with
  | nil => trivial
  | cons i rest ih =>
    exact ⟨h i (List.mem_cons_self ..), ih (fun j hj => h j (List.mem_cons_of_mem _ hj)) _⟩

@[simp] theorem run_nil (step : σ → ι → σ × ρ) (s : σ) : run step s [] = (s, []) := rfl

@[simp] theorem run_cons (step : σ → ι → σ × ρ) (s : σ) (i : ι) (rest : List ι) :
    run step s (i :: rest) =
      ((run step (step s i).1 rest).1, (step s i).2 :: (run step (step s i).1 rest).2) := rfl

/-- A relation kept by every allowed pair of steps, with answers that agree,
is kept by whole runs. -/
theorem run_simulates {spec : τ → ι → τ × ω} {ok : σ → ι → Prop}
    {rel : σ → τ → Prop} {agree : ρ → ω → Prop} (hStep : ∀ s t i, rel s t → ok s i →
      rel (step s i).1 (spec t i).1 ∧ agree (step s i).2 (spec t i).2)
    {t : τ} (hRel : rel s t) (hOk : RunOk step ok s l) :
    rel (run step s l).1 (run spec t l).1 ∧
      List.Forall₂ agree (run step s l).2 (run spec t l).2 := by
  induction l generalizing s t with
  | nil => exact ⟨hRel, List.Forall₂.nil⟩
  | cons i rest ih =>
    obtain ⟨hi, hrest⟩ := hOk
    obtain ⟨hNext, hAnswer⟩ := hStep s t i hRel hi
    obtain ⟨hLast, hAnswers⟩ := ih hNext hrest
    exact ⟨hLast, List.Forall₂.cons hAnswer hAnswers⟩

/-- The same rule for an invariant of one machine alone. -/
theorem run_invariant {inv : σ → Prop}
    (hStep : ∀ s i, inv s → inv (step s i).1) (hInv : inv s) (l : List ι) :
    inv (run step s l).1 := by
  induction l generalizing s with
  | nil => exact hInv
  | cons i rest ih => exact ih (hStep s i hInv)

end Simulation

namespace Function

/-! ### Tables of records in which a step writes one record -/

variable {α β γ : Type} [DecidableEq α] {g : α → β} {a : α} {b : β}

/-- A write that keeps a field of the record keeps it everywhere. -/
theorem update_proj (f : β → γ) (h : f b = f (g a)) (n : α) : f (update g a b n) = f (g n) := by
  rcases eq_or_ne n a with rfl | hn
  · rw [update_self, h]
  · rw [update_of_ne hn]

end Function
