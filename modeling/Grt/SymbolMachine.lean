import Mathlib.Data.List.Basic

/-! Machines that read one symbol at a time and may refuse it, and their runs. -/
namespace SymbolMachine

universe u

variable {σ β : Type u} {α ε : Type*}

def run (step : σ → α → Except ε σ) (s : σ) : List α → Except ε σ
  | [] => .ok s
  | x :: xs => step s x >>= fun s => run step s xs

variable {step : σ → α → Except ε σ} {s s' : σ} {xs ys : List α}

@[simp] theorem run_nil (s : σ) : run step s [] = .ok s := rfl

@[simp] theorem run_cons (s : σ) (x : α) (xs : List α) :
    run step s (x :: xs) = (step s x >>= fun s => run step s xs) := rfl

theorem run_append (s : σ) (xs ys : List α) :
    run step s (xs ++ ys) = (run step s xs >>= fun s => run step s ys) := by
  induction xs generalizing s with
  | nil => rfl
  | cons x xs ih =>
    rw [List.cons_append, run_cons, run_cons]
    cases step s x with
    | error e => rfl
    | ok s => exact ih s

theorem ok_bind (s : σ) (f : σ → Except ε β) : (Except.ok s >>= f) = f s := rfl

theorem bind_eq_ok {x : Except ε σ} {f : σ → Except ε β} {b : β} :
    (x >>= f) = .ok b ↔ ∃ s, x = .ok s ∧ f s = .ok b := by
  cases x with
  | error e => exact ⟨nofun, nofun⟩
  | ok s => exact ⟨fun h => ⟨s, rfl, h⟩, fun ⟨_, hs, h⟩ => by cases hs; exact h⟩

theorem run_cons_ok {x : α} : run step s (x :: xs) = .ok s' ↔
    ∃ t, step s x = .ok t ∧ run step t xs = .ok s' := bind_eq_ok

theorem run_append_ok : run step s (xs ++ ys) = .ok s' ↔
    ∃ t, run step s xs = .ok t ∧ run step t ys = .ok s' := by
  rw [run_append, bind_eq_ok]

/-- An accepted symbol in front of others. -/
theorem run_cons_of_ok {x : α} {t : σ} (h : step s x = .ok t) (xs : List α) :
    run step s (x :: xs) = run step t xs := by
  rw [run_cons, h]
  rfl

theorem run_append_of_ok {t : σ} (h : run step s xs = .ok t) (ys : List α) :
    run step s (xs ++ ys) = run step t ys := by
  rw [run_append, h]
  rfl

end SymbolMachine
