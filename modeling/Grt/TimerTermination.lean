import Mathlib.Algebra.Order.BigOperators.Group.Finset
import Grt.ModularOrbit
import Grt.TimerUpdate

/-! Whether the loop of `timer_update` ends. The sum of `when` and `period` is on `unsigned int`,
so a ticker's times are an orbit modulo `2 ^ 32`. The loop ends once each ticker that is due has
a time after `now`, and never ends if the orbit of one of them has none. -/
namespace TimerTermination

open TimerHeap TimerInvariant TimerUpdate ModularOrbit

variable {t u : Timer} {P : Finset EventPtr} {now : ℕ} {e : EventPtr} {f : EventPtr → ℕ}

/-- The loop of `timer_update(now)` is left. -/
def Returns (t : Timer) (now : ℕ) : Prop := ∃ fuel r, timerUpdate fuel t now = some r

/-- The time that `e` has after `k` firings is after `now`. -/
def PassesIn (t : Timer) (now : ℕ) (e : EventPtr) (k : ℕ) : Prop :=
  now < (t.whenOf e + k * (t.event e).period) % 2 ^ 32

/-- Every ticker that is due has a time after `now` before its times repeat. -/
def TickersPass (t : Timer) (P : Finset EventPtr) (now : ℕ) : Prop :=
  ∀ e ∈ P, t.whenOf e ≤ now → 0 < (t.event e).period →
    now < top (2 ^ 32) (t.whenOf e) (t.event e).period

theorem exists_passesIn_iff :
    (∃ k, PassesIn t now e k) ↔ now < top (2 ^ 32) (t.whenOf e) (t.event e).period :=
  exists_lt_iff (Nat.two_pow_pos 32)

theorem rootWhen_lt (hp : 0 < (t.event (t.heap 0)).period) : rootWhen t < 2 ^ 32 := by
  rw [rootWhen, if_pos hp]
  exact Nat.mod_lt _ (Nat.two_pow_pos 32)

theorem passesIn_root (h : FiresRoot t u P) (hp : 0 < (t.event (t.heap 0)).period) (k : ℕ) :
    PassesIn u now (t.heap 0) k ↔ PassesIn t now (t.heap 0) (k + 1) := by
  rw [PassesIn, PassesIn, h.times, if_pos rfl, h.periods, rootWhen, if_pos hp, Nat.mod_add_mod,
    Nat.succ_mul, Nat.add_assoc, Nat.add_comm (k * _)]

theorem passesIn_other (h : FiresRoot t u P) (hne : e ≠ t.heap 0) (k : ℕ) :
    PassesIn u now e k ↔ PassesIn t now e k := by
  rw [PassesIn, PassesIn, h.times, if_neg hne, h.periods]

/-- `f` is a number of firings for each event that is due, after which a ticker is not. -/
structure Budget (t : Timer) (P : Finset EventPtr) (now : ℕ) (f : EventPtr → ℕ) : Prop where
  positive : ∀ e ∈ P, t.whenOf e ≤ now → 0 < f e
  passes : ∀ e ∈ P, t.whenOf e ≤ now → 0 < (t.event e).period → PassesIn t now e (f e)

/-- The budget when the root has fired. -/
def spend (t : Timer) (f : EventPtr → ℕ) : EventPtr → ℕ :=
  Function.update f (t.heap 0) (f (t.heap 0) - 1)

theorem Budget.next (hb : Budget t P now f) (h : FiresRoot t u P) (hmem : t.heap 0 ∈ P)
    (hdue : t.whenOf (t.heap 0) ≤ now) : Budget u (afterFiring t P) now (spend t f) := by
  have hpasses : ∀ e ∈ afterFiring t P, u.whenOf e ≤ now → 0 < (u.event e).period →
      PassesIn u now e (spend t f e) := by
    intro e he hle hp
    rw [h.periods] at hp
    by_cases hroot : e = t.heap 0
    · subst hroot
      have hpos := hb.positive _ hmem hdue
      rw [spend, Function.update_self, passesIn_root h hp, Nat.sub_add_cancel hpos]
      exact hb.passes _ hmem hdue hp
    · rw [h.times, if_neg hroot] at hle
      rw [spend, Function.update_of_ne hroot, passesIn_other h hroot]
      exact hb.passes e ((mem_afterFiring t P e).mp he).1 hle hp
  refine ⟨fun e he hle => ?_, hpasses⟩
  obtain ⟨heP, hticker⟩ := (mem_afterFiring t P e).mp he
  by_cases hroot : e = t.heap 0
  · have hp := hticker hroot
    have hpass := hpasses e he hle (by rwa [h.periods])
    rw [h.times, if_pos hroot] at hle
    -- with nothing left the new time itself would be after `now`
    refine Nat.pos_of_ne_zero fun hzero => ?_
    rw [PassesIn, hzero, Nat.zero_mul, Nat.add_zero, h.times, if_pos hroot,
      Nat.mod_eq_of_lt (rootWhen_lt (hroot ▸ hp))] at hpass
    omega
  · rw [h.times, if_neg hroot] at hle
    rw [spend, Function.update_of_ne hroot]
    exact hb.positive e heP hle

theorem sum_spend_lt (hmem : t.heap 0 ∈ P) (hpos : 0 < f (t.heap 0)) :
    ∑ e ∈ afterFiring t P, spend t f e < ∑ e ∈ P, f e := by
  have hsub : afterFiring t P ⊆ P := fun e he => ((mem_afterFiring t P e).mp he).1
  have hle : ∀ e ∈ P, spend t f e ≤ f e := by
    intro e _
    by_cases hroot : e = t.heap 0
    · subst hroot
      rw [spend, Function.update_self]
      omega
    · rw [spend, Function.update_of_ne hroot]
  have hlt : spend t f (t.heap 0) < f (t.heap 0) := by
    rw [spend, Function.update_self]
    omega
  calc ∑ e ∈ afterFiring t P, spend t f e ≤ ∑ e ∈ P, spend t f e :=
        Finset.sum_le_sum_of_subset hsub
    _ < ∑ e ∈ P, f e := Finset.sum_lt_sum hle ⟨_, hmem, hlt⟩

/-- Each turn of the loop takes one firing off the budget. -/
theorem Budget.returns (fuel : ℕ) (h : HeapInvariant t P) (hb : Budget t P now f)
    (hfuel : ∑ e ∈ P, f e < fuel) : ∃ r, timerUpdate fuel t now = some r := by
  induction fuel generalizing t P f with
  | zero => exact absurd hfuel (Nat.not_lt_zero _)
  | succ fuel ih =>
    cases hstep : timerUpdateStep t now with
    | none => exact ⟨(t, []), by rw [timerUpdate, hstep]⟩
    | some r =>
      obtain ⟨hs, hdue, -, hu⟩ := timerUpdateStep_some (f := r.1) (u := r.2) hstep
      have hmem := h.holds.mem 0 hs
      have hfires := fireRoot_spec h hs
      have hless := sum_spend_lt hmem (hb.positive _ hmem hdue)
      obtain ⟨v, hrun⟩ := ih hfires.invariant (hb.next hfires hmem hdue) (by omega)
      refine ⟨(v.1, r.1 :: v.2), ?_⟩
      rw [timerUpdate, hstep]
      simp only [hu, hrun, Option.map_some]

theorem exists_budget (hnow : now < 2 ^ 32) (h : TickersPass t P now) :
    ∃ f, Budget t P now f := by
  have hone : ∀ e, ∃ k, e ∈ P → t.whenOf e ≤ now →
      0 < k ∧ (0 < (t.event e).period → PassesIn t now e k) := by
    intro e
    by_cases hticker : e ∈ P ∧ t.whenOf e ≤ now ∧ 0 < (t.event e).period
    · obtain ⟨he, hle, hp⟩ := hticker
      obtain ⟨k, hk⟩ := exists_passesIn_iff.mpr (h e he hle hp)
      refine ⟨k, fun _ _ => ⟨Nat.pos_of_ne_zero fun hzero => ?_, fun _ => hk⟩⟩
      rw [PassesIn, hzero, Nat.zero_mul, Nat.add_zero, Nat.mod_eq_of_lt (by omega)] at hk
      omega
    · exact ⟨1, fun he hle => ⟨Nat.one_pos, fun hp => absurd ⟨he, hle, hp⟩ hticker⟩⟩
  choose f hf using hone
  exact ⟨f, fun e he hle => (hf e he hle).1, fun e he hle => (hf e he hle).2⟩

/-- A ticker that is due now and after each of its firings. -/
structure Stuck (t : Timer) (P : Finset EventPtr) (now : ℕ) (e : EventPtr) : Prop where
  mem : e ∈ P
  due : t.whenOf e ≤ now
  ticker : 0 < (t.event e).period
  never : ∀ k, ¬ PassesIn t now e k

theorem Stuck.next (hstuck : Stuck t P now e) (h : FiresRoot t u P) :
    Stuck u (afterFiring t P) now e := by
  have hmem := (mem_afterFiring t P e).mpr ⟨hstuck.mem, fun _ => hstuck.ticker⟩
  have hperiod : 0 < (u.event e).period := by
    rw [h.periods]
    exact hstuck.ticker
  by_cases hroot : e = t.heap 0
  · subst hroot
    have hnever : ∀ k, ¬ PassesIn u now (t.heap 0) k := fun k =>
      (passesIn_root h hstuck.ticker k).not.mpr (hstuck.never (k + 1))
    refine ⟨hmem, not_lt.mp fun hlt => hnever 0 ?_, hperiod, hnever⟩
    rw [h.times, if_pos rfl] at hlt
    rw [PassesIn, Nat.zero_mul, Nat.add_zero, h.times, if_pos rfl,
      Nat.mod_eq_of_lt (rootWhen_lt hstuck.ticker)]
    exact hlt
  · refine ⟨hmem, ?_, hperiod, fun k => (passesIn_other h hroot k).not.mpr (hstuck.never k)⟩
    rw [h.times, if_neg hroot]
    exact hstuck.due

theorem Stuck.turns (hstuck : Stuck t P now e) (h : HeapInvariant t P) :
    0 < t.size ∧ timerUpdateStep t now = some (⟨t.heap 0, t.whenOf (t.heap 0)⟩, fireRoot t) := by
  obtain ⟨k, hk, -⟩ := h.holds.cover e hstuck.mem
  have hroot := (root_least_when h hstuck.mem).trans hstuck.due
  refine ⟨by omega, ?_⟩
  rw [timerUpdateStep, if_neg (by omega), if_neg (by omega)]

theorem Stuck.never_returns (fuel : ℕ) (hstuck : Stuck t P now e) (h : HeapInvariant t P) :
    timerUpdate fuel t now = none := by
  induction fuel generalizing t P with
  | zero => rfl
  | succ fuel ih =>
    obtain ⟨hs, hstep⟩ := hstuck.turns h
    have hfires := fireRoot_spec h hs
    rw [timerUpdate, hstep]
    simp only [ih (hstuck.next hfires) hfires.invariant, Option.map_none]

/-- `timer_update` returns exactly if every due ticker has a time after `now` that it gets to by
adding its period, wrapping at `2 ^ 32`. -/
theorem timer_update_returns_iff (h : HeapInvariant t P) (hnow : now < 2 ^ 32) :
    Returns t now ↔ TickersPass t P now := by
  constructor
  · rintro ⟨fuel, r, hrun⟩ e he hdue hp
    by_contra hlt
    have hnever : ∀ k, ¬ PassesIn t now e k := fun k hk =>
      hlt (exists_passesIn_iff.mp ⟨k, hk⟩)
    rw [Stuck.never_returns fuel ⟨he, hdue, hp, hnever⟩ h] at hrun
    cases hrun
  · intro hpass
    obtain ⟨f, hb⟩ := exists_budget hnow hpass
    obtain ⟨r, hrun⟩ := hb.returns _ h (Nat.lt_succ_self _)
    exact ⟨_, r, hrun⟩

/-- One ticker, alone in the heap. -/
def tickerTimer (when period : ℕ) : Timer where
  heap _ := 1
  size := 1
  cap := 32
  bytes := 256
  event _ := ⟨when, period, 0⟩

theorem tickerTimer_invariant (when period : ℕ) : HeapInvariant (tickerTimer when period) {1} := by
  have hzero : ∀ k, k < (tickerTimer when period).size → k = 0 := fun k hk => Nat.lt_one_iff.mp hk
  refine ⟨⟨fun k hk => ?_, fun k _ => Finset.mem_singleton_self 1, fun e he => ?_⟩, ?_⟩
  · rw [hzero k hk]
    rfl
  · exact ⟨0, Nat.one_pos, (Finset.mem_singleton.mp he).symm⟩
  · intro k hpos hk
    have := hzero k hk
    omega

/-- A ticker that wraps on its way. -/
theorem timer_update_returns_iff_wrapping : Returns (tickerTimer 4294967290 7) 4294967294 :=
  (timer_update_returns_iff (tickerTimer_invariant _ _) (by decide)).mpr
    fun _ _ _ _ => (by decide : 4294967294 < top (2 ^ 32) 4294967290 7)

/-- At the top of `unsigned int` every ticker is due for good. -/
theorem timer_update_at_top : HeapInvariant (tickerTimer 0 1) {1} ∧
    ¬ Returns (tickerTimer 0 1) (2 ^ 32 - 1) := by
  refine ⟨tickerTimer_invariant 0 1, ?_⟩
  rintro ⟨fuel, r, hrun⟩
  have hstuck : Stuck (tickerTimer 0 1) {1} (2 ^ 32 - 1) 1 := by
    refine ⟨Finset.mem_singleton_self 1, Nat.zero_le _, Nat.one_pos, fun k hk => ?_⟩
    have hlt := Nat.mod_lt ((tickerTimer 0 1).whenOf 1 + k * 1) (Nat.two_pow_pos 32)
    rw [PassesIn] at hk
    change 2 ^ 32 - 1 < ((tickerTimer 0 1).whenOf 1 + k * 1) % 2 ^ 32 at hk
    omega
  rw [hstuck.never_returns fuel (tickerTimer_invariant 0 1)] at hrun
  cases hrun

end TimerTermination
