import Mathlib.Order.Lattice
import Mathlib.Logic.Function.Basic
import Mathlib.Tactic.Common

/-! The order of an implicit binary heap, as a fact about the key at each position.
A position whose key was just replaced is a hole: `OrderedOff` says nothing about the
pairs that touch it, `OrderedUp` leaves only its parent to repair and `OrderedDown`
only its children. One exchange moves the hole; the sifts stop when nothing is left. -/
namespace BinaryHeapOrder

variable {κ : Type*} {f : ℕ → κ} {n hole : ℕ}

def exchange (f : ℕ → κ) (i j : ℕ) : ℕ → κ :=
  Function.update (Function.update f i (f j)) j (f i)

theorem exchange_left {i j : ℕ} (h : i ≠ j) : exchange f i j i = f j := by
  simp [exchange, h]

@[simp] theorem exchange_right (i j : ℕ) : exchange f i j j = f i := by
  simp [exchange]

theorem exchange_other {i j k : ℕ} (hi : k ≠ i) (hj : k ≠ j) : exchange f i j k = f k := by
  simp [exchange, hi, hj]

def parent (k : ℕ) : ℕ := (k - 1) / 2

theorem parent_lt {k : ℕ} (h : 0 < k) : parent k < k := by
  unfold parent; omega

theorem parent_eq_iff {k p : ℕ} (h : 0 < k) : parent k = p ↔ k = 2 * p + 1 ∨ k = 2 * (p + 1) := by
  unfold parent; omega

variable [LinearOrder κ]

def Ordered (f : ℕ → κ) (n : ℕ) : Prop := ∀ k, 0 < k → k < n → f (parent k) ≤ f k

/-- Every pair off the hole is in order, and so are the hole's parent and children. -/
structure OrderedOff (f : ℕ → κ) (n hole : ℕ) : Prop where
  off : ∀ k, 0 < k → k < n → k ≠ hole → parent k ≠ hole → f (parent k) ≤ f k
  across : 0 < hole → ∀ k, 0 < k → k < n → parent k = hole → f (parent hole) ≤ f k

def OrderedUp (f : ℕ → κ) (n hole : ℕ) : Prop :=
  OrderedOff f n hole ∧ ∀ k, 0 < k → k < n → parent k = hole → f hole ≤ f k

def OrderedDown (f : ℕ → κ) (n hole : ℕ) : Prop :=
  OrderedOff f n hole ∧ (0 < hole → f (parent hole) ≤ f hole)

theorem Ordered.root_least (h : Ordered f n) {k : ℕ} (hk : k < n) : f 0 ≤ f k := by
  induction k using Nat.strong_induction_on with
  | h k ih =>
    rcases Nat.eq_zero_or_pos k with rfl | hpos
    · exact le_rfl
    · have hp := parent_lt hpos
      exact (ih _ hp (by omega)).trans (h k hpos hk)

theorem OrderedOff.congr {g : ℕ → κ} (h : OrderedOff f n hole) (he : ∀ k, k < n → g k = f k) :
    OrderedOff g n hole := by
  constructor
  · intro k hpos hk hn hp
    rw [he k hk, he _ ((parent_lt hpos).trans hk)]
    exact h.off k hpos hk hn hp
  · intro hpos k hk hkn hp
    have h1 := parent_lt hpos
    have h2 := parent_lt hk
    rw [he k hkn, he _ (by omega)]
    exact h.across hpos k hk hkn hp

theorem Ordered.congr {g : ℕ → κ} (h : Ordered f n) (he : ∀ k, k < n → g k = f k) :
    Ordered g n := by
  intro k hpos hk
  rw [he k hk, he _ ((parent_lt hpos).trans hk)]
  exact h k hpos hk

/-- Appending a key leaves only the pair of the new position and its parent open. -/
theorem Ordered.append (h : Ordered f n) : OrderedUp f (n + 1) n := by
  refine ⟨⟨fun k hpos hk hn _ => h k hpos (by omega), ?_⟩, ?_⟩
  · intro _ k hpos hk hp
    have := parent_lt hpos
    omega
  · intro k hpos hk hp
    have := parent_lt hpos
    omega

/-- Dropping the last position and overwriting another one leaves a hole there. -/
theorem Ordered.overwrite (h : Ordered f (n + 1)) (x : κ) :
    OrderedOff (Function.update f hole x) n hole := by
  constructor
  · intro k hpos hk hn hp
    simpa [hn, hp] using h k hpos (by omega)
  · intro hpos k hk hkn hp
    have hne : parent hole ≠ hole := (parent_lt hpos).ne
    have hkh : k ≠ hole := by have := parent_lt hk; omega
    have hholen : hole < n := by have := parent_lt hk; omega
    have h1 := h hole hpos (by omega)
    have h2 := h k hk (by omega)
    rw [hp] at h2
    simpa [hne, hkh] using h1.trans h2

/-- A smaller root keeps its hole at the top. -/
theorem Ordered.overwrite_root (h : Ordered f n) (x : κ) :
    OrderedDown (Function.update f 0 x) n 0 := by
  refine ⟨⟨?_, fun h0 => absurd h0 (lt_irrefl 0)⟩, fun h0 => absurd h0 (lt_irrefl 0)⟩
  intro k hpos hk hn hp
  simpa [hn, hp] using h k hpos hk

theorem Ordered.down (h : Ordered f n) (hole : ℕ) (hn : hole < n) : OrderedDown f n hole := by
  refine ⟨⟨fun k hpos hk _ _ => h k hpos hk, ?_⟩, fun hpos => h hole hpos hn⟩
  intro hpos k hk hkn hp
  have h2 := h k hk hkn
  rw [hp] at h2
  exact (h hole hpos hn).trans h2

theorem OrderedOff.up (h : OrderedOff f n hole) (hpos : 0 < hole)
    (hlt : f hole < f (parent hole)) : OrderedUp f n hole :=
  ⟨h, fun k hk hkn hp => hlt.le.trans (h.across hpos k hk hkn hp)⟩

theorem OrderedUp.finish (h : OrderedUp f n hole) (stop : 0 < hole → f (parent hole) ≤ f hole) :
    Ordered f n := by
  intro k hpos hk
  by_cases hh : k = hole
  · subst hh; exact stop hpos
  · by_cases hp : parent k = hole
    · rw [hp]; exact h.2 k hpos hk hp
    · exact h.1.off k hpos hk hh hp

theorem OrderedDown.finish (h : OrderedDown f n hole)
    (stop : ∀ k, 0 < k → k < n → parent k = hole → f hole ≤ f k) : Ordered f n :=
  OrderedUp.finish ⟨h.1, stop⟩ h.2

/-- The key at the hole is below its parent: the two change places. -/
theorem OrderedUp.rise (h : OrderedUp f n hole) (hpos : 0 < hole) (hn : hole < n)
    (hlt : f hole < f (parent hole)) :
    OrderedUp (exchange f hole (parent hole)) n (parent hole) := by
  have hp := parent_lt hpos
  have hne : hole ≠ parent hole := hp.ne'
  refine ⟨⟨?_, ?_⟩, ?_⟩
  · intro k hk hkn hkp hkpp
    by_cases hkh : k = hole
    · exact absurd (congrArg parent hkh) hkpp
    · rw [exchange_other hkh hkp]
      by_cases hph : parent k = hole
      · rw [hph, exchange_left hne]; exact h.1.across hpos k hk hkn hph
      · rw [exchange_other hph hkpp]; exact h.1.off k hk hkn hkh hph
  · intro hpp k hk hkn hkp
    have hq := parent_lt hpp
    have hup := h.1.off (parent hole) hpp (by omega) hne.symm (by omega)
    rw [exchange_other (by omega) hq.ne]
    by_cases hkh : k = hole
    · subst hkh; rw [exchange_left hne]; exact hup
    · have hkpar : k ≠ parent hole := by have := parent_lt hk; omega
      have hd := h.1.off k hk hkn hkh (by omega)
      rw [exchange_other hkh hkpar]
      rw [hkp] at hd
      exact hup.trans hd
  · intro k hk hkn hkp
    rw [exchange_right]
    by_cases hkh : k = hole
    · subst hkh; rw [exchange_left hne]; exact hlt.le
    · have hkpar : k ≠ parent hole := by have := parent_lt hk; omega
      have hd := h.1.off k hk hkn hkh (by omega)
      rw [exchange_other hkh hkpar]
      rw [hkp] at hd
      exact hlt.le.trans hd

/-- The smallest child of the hole is not above its key: the two change places. -/
theorem OrderedDown.sink (h : OrderedDown f n hole) {c : ℕ} (hc : 0 < c) (hcn : c < n)
    (hpc : parent c = hole) (least : ∀ k, 0 < k → k < n → parent k = hole → f c ≤ f k)
    (hle : f c ≤ f hole) : OrderedDown (exchange f hole c) n c := by
  have hlt : hole < c := hpc ▸ parent_lt hc
  have hne : hole ≠ c := hlt.ne
  refine ⟨⟨?_, ?_⟩, ?_⟩
  · intro k hk hkn hkc hpk
    by_cases hkh : k = hole
    · subst hkh
      have hp := parent_lt hk
      rw [exchange_left hne, exchange_other hp.ne (by omega)]
      exact h.1.across hk c hc hcn hpc
    · rw [exchange_other hkh hkc]
      by_cases hph : parent k = hole
      · rw [hph, exchange_left hne]; exact least k hk hkn hph
      · rw [exchange_other hph hpk]; exact h.1.off k hk hkn hkh hph
  · intro _ k hk hkn hpk
    have hkc := parent_lt hk
    have hd := h.1.off k hk hkn (by omega) (by omega)
    rw [hpc, exchange_left hne, exchange_other (by omega) (by omega)]
    rwa [hpk] at hd
  · intro _
    rw [hpc, exchange_left hne, exchange_right]
    exact hle

end BinaryHeapOrder
