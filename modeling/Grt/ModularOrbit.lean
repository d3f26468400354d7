import Mathlib.Data.Int.GCD
import Mathlib.Data.Nat.ModEq

/-! Steps of a fixed size on the numbers modulo `n`. They reach exactly what is the start modulo
the common divisor of the step and `n`, so the largest of these bounds the orbit and is on it. -/
namespace ModularOrbit

variable {n : ℕ}

/-- The largest number below `n` that is `w` modulo the common divisor of `p` and `n`. -/
def top (n w p : ℕ) : ℕ := n - p.gcd n + w % p.gcd n

theorem exists_mul_modEq_gcd (hn : 0 < n) (p : ℕ) : ∃ m, p * m ≡ p.gcd n [MOD n] := by
  rcases (Nat.gcd_le_right p hn).lt_or_eq with hlt | heq
  · obtain ⟨m, -, hm⟩ := Nat.exists_mul_mod_eq_gcd hlt
    exact ⟨m, by rw [Nat.ModEq, hm, Nat.mod_eq_of_lt hlt]⟩
  · refine ⟨0, ?_⟩
    rw [heq, Nat.mul_zero]
    exact (Nat.modEq_zero_iff_dvd.mpr dvd_rfl).symm

/-- Every step keeps the remainder modulo the common divisor. -/
theorem orbit_mod_gcd (w p k : ℕ) : (w + k * p) % n % p.gcd n = w % p.gcd n := by
  rw [Nat.mod_mod_of_dvd _ (Nat.gcd_dvd_right p n)]
  obtain ⟨c, hc⟩ := (Nat.gcd_dvd_left p n).mul_left k
  rw [hc, Nat.add_mul_mod_self_left]

/-- A multiple of `g` and a remainder below `n` leave room for another `g`. -/
theorem le_of_mod {g x : ℕ} (hdvd : g ∣ n) (hx : x < n) : x ≤ n - g + x % g := by
  obtain ⟨q, rfl⟩ := hdvd
  have hdiv : x / g + 1 ≤ q := Nat.div_lt_of_lt_mul hx
  have hmul := Nat.mul_le_mul_left g hdiv
  have hsplit := Nat.div_add_mod x g
  rw [Nat.mul_add, Nat.mul_one] at hmul
  omega

theorem le_top (hn : 0 < n) (w p k : ℕ) : (w + k * p) % n ≤ top n w p := by
  have hle := le_of_mod (Nat.gcd_dvd_right p n) (Nat.mod_lt (w + k * p) hn)
  rwa [orbit_mod_gcd] at hle

/-- The missing multiples of the common divisor are made of steps. -/
theorem exists_eq_top (hn : 0 < n) (w p : ℕ) : ∃ k, (w + k * p) % n = top n w p := by
  have hg := Nat.gcd_pos_of_pos_right p hn
  have hgn := Nat.gcd_le_right p hn
  obtain ⟨m, hm⟩ := exists_mul_modEq_gcd hn p
  have hle := le_top hn w p 0
  rw [Nat.zero_mul, Nat.add_zero] at hle
  have hmod : w % n % p.gcd n = w % p.gcd n := Nat.mod_mod_of_dvd w (Nat.gcd_dvd_right p n)
  have htop : top n w p % p.gcd n = w % p.gcd n := by
    obtain ⟨c, hc⟩ := Nat.dvd_sub (Nat.gcd_dvd_right p n) (dvd_refl (p.gcd n))
    rw [top, hc, Nat.mul_add_mod, Nat.mod_mod]
  obtain ⟨j, hj⟩ := (Nat.modEq_iff_dvd' hle).mp (hmod.trans htop.symm)
  have hlt : top n w p < n := by
    have := Nat.mod_lt w hg
    rw [top]
    omega
  refine ⟨j * m, ?_⟩
  have hsteps : w + j * m * p ≡ w % n + p.gcd n * j [MOD n] := by
    have hmul := hm.mul_left j
    rw [Nat.mul_comm (p.gcd n) j, Nat.mul_assoc, Nat.mul_comm m p]
    exact (Nat.mod_modEq w n).symm.add hmul
  rw [hsteps, ← hj, Nat.add_sub_cancel' hle, Nat.mod_eq_of_lt hlt]

/-- An orbit gets above `m` exactly if its largest number is above `m`. -/
theorem exists_lt_iff (hn : 0 < n) {w p m : ℕ} :
    (∃ k, m < (w + k * p) % n) ↔ m < top n w p := by
  constructor
  · rintro ⟨k, hk⟩
    exact hk.trans_le (le_top hn w p k)
  · intro hlt
    obtain ⟨k, hk⟩ := exists_eq_top hn w p
    exact ⟨k, hk ▸ hlt⟩

end ModularOrbit
