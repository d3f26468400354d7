import Mathlib.Data.Nat.Digits.Defs
import Mathlib.Data.List.Basic

/-! Numbers that are read digit by digit, the highest first, and refused once they pass a limit. -/
namespace DigitReader

variable {b limit v d : ℕ} {ds : List ℕ}

/-- The number after these digits, where `v` has been read. -/
def value (b v : ℕ) (ds : List ℕ) : ℕ := ds.foldl (fun v d => v * b + d) v

/-- A reader that looks at what it has before it takes another digit. -/
def read (b limit v : ℕ) : List ℕ → Option ℕ
  | [] => some v
  | d :: ds => if limit < v then none else read b limit (v * b + d) ds

def digits (b n : ℕ) : List ℕ := if n = 0 then [0] else (Nat.digits b n).reverse

@[simp] theorem value_nil (b v : ℕ) : value b v [] = v := rfl

@[simp] theorem value_cons (b v d : ℕ) (ds : List ℕ) :
    value b v (d :: ds) = value b (v * b + d) ds := rfl

theorem le_value (hb : 0 < b) (v : ℕ) (ds : List ℕ) : v ≤ value b v ds := by
  induction ds generalizing v with
  | nil => exact le_rfl
  | cons d ds ih =>
    calc v ≤ v * b := Nat.le_mul_of_pos_right v hb
      _ ≤ v * b + d := Nat.le_add_right _ _
      _ ≤ value b v (d :: ds) := ih (v * b + d)

theorem value_eq (b v : ℕ) (ds : List ℕ) :
    value b v ds = Nat.ofDigits b ds.reverse + b ^ ds.length * v := by
  induction ds generalizing v with
  | nil => simp
  | cons d ds ih =>
    rw [value_cons, ih, List.reverse_cons, Nat.ofDigits_append, Nat.ofDigits_singleton,
      List.length_reverse, List.length_cons, pow_succ]
    ring

/-- The limit on what has been read is one on the number that is read. -/
theorem read_eq (hb : 0 < b) (hds : ∀ d ∈ ds, d < b) (hv : v / b ≤ limit) :
    read b limit v ds =
      if value b v ds / b ≤ limit then some (value b v ds) else none := by
  induction ds generalizing v with
  | nil => exact (if_pos hv).symm
  | cons d ds ih =>
    rw [List.forall_mem_cons] at hds
    have hdiv : (v * b + d) / b = v := by
      rw [Nat.add_comm, Nat.add_mul_div_right _ _ hb, Nat.div_eq_of_lt hds.1, Nat.zero_add]
    rw [read, value_cons]
    by_cases hover : limit < v
    · have hle : v ≤ value b (v * b + d) ds / b :=
        calc v = (v * b + d) / b := hdiv.symm
          _ ≤ value b (v * b + d) ds / b := Nat.div_le_div_right (le_value hb _ _)
      rw [if_pos hover, if_neg (hover.trans_le hle).not_ge]
    · rw [if_neg hover]
      exact ih hds.2 (hdiv.le.trans (Nat.le_of_not_lt hover))

theorem read_append (b limit v : ℕ) (ds es : List ℕ) :
    read b limit v (ds ++ es) = read b limit v ds >>= fun v => read b limit v es := by
  induction ds generalizing v with
  | nil => rfl
  | cons d ds ih =>
    rw [List.cons_append, read, read]
    split
    · rfl
    · exact ih _

theorem digits_lt (hb : 1 < b) (n : ℕ) : ∀ d ∈ digits b n, d < b := by
  intro d hd
  unfold digits at hd
  split at hd
  · rw [List.mem_singleton] at hd
    omega
  · exact Nat.digits_lt_base hb (List.mem_reverse.mp hd)

theorem digits_ne_nil (b n : ℕ) : digits b n ≠ [] := by
  unfold digits
  split
  · exact List.cons_ne_nil _ _
  · rename_i hn
    exact fun h => Nat.digits_ne_nil_iff_ne_zero.mpr hn (List.reverse_eq_nil_iff.mp h)

theorem value_digits (b n : ℕ) : value b 0 (digits b n) = n := by
  rw [value_eq, Nat.mul_zero, Nat.add_zero]
  unfold digits
  split
  · rename_i hn
    rw [hn]
    exact Nat.ofDigits_singleton
  · rw [List.reverse_reverse, Nat.ofDigits_digits]

end DigitReader
