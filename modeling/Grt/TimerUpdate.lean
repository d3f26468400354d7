import Mathlib.Algebra.BigOperators.Group.Finset.Piecewise
import Mathlib.Data.List.Count
import Grt.TimerInvariant

/-! What one call of `timer_update` fires when its callbacks leave the timer alone. The loop
has no bound of its own; the number of firings still due is the measure it descends on. -/
namespace TimerUpdate

open TimerHeap TimerInvariant

variable {t u : Timer} {P : Finset EventPtr} {now : ℕ}

/-- `timer_update(now)`: the final timer and the callbacks made, or `none` out of fuel. -/
def timerUpdate : ℕ → Timer → ℕ → Option (Timer × List Firing)
  | 0, _, _ => none
  | fuel + 1, t, now =>
    match timerUpdateStep t now with
    | none => some (t, [])
    | some (f, u) => (timerUpdate fuel u now).map fun r => (r.1, f :: r.2)

/-- How often an event due at `w` with period `p` fires up to `now`. -/
def firings (w p now : ℕ) : ℕ :=
  if now < w then 0 else if p = 0 then 1 else (now - w) / p + 1

theorem firings_later {w p now : ℕ} (h : now < w) : firings w p now = 0 := if_pos h

theorem firings_oneshot {w now : ℕ} (h : w ≤ now) : firings w 0 now = 1 := by
  simp [firings, not_lt.mpr h]

theorem firings_ticker {w p now : ℕ} (h : w ≤ now) (hp : 0 < p) :
    firings w p now = (now - w) / p + 1 := by
  simp [firings, not_lt.mpr h, hp.ne']

/-- Moving a due ticker one period on takes exactly one of its firings away. -/
theorem firings_reschedule {w p now : ℕ} (h : w ≤ now) (hp : 0 < p) :
    firings w p now = firings (w + p) p now + 1 := by
  rw [firings_ticker h hp]
  by_cases hl : now < w + p
  · rw [firings_later hl, Nat.div_eq_of_lt (by omega)]
  · rw [firings_ticker (by omega) hp, Nat.div_eq_sub_div hp (by omega)]
    congr 3
    omega

def firingsOf (t : Timer) (now : ℕ) (e : EventPtr) : ℕ :=
  firings (t.whenOf e) (t.event e).period now

/-- The firings still due. -/
def dueCount (t : Timer) (P : Finset EventPtr) (now : ℕ) : ℕ := ∑ e ∈ P, firingsOf t now e

/-- No pending ticker's next time wraps during the call. -/
def NoWrap (t : Timer) (P : Finset EventPtr) (now : ℕ) : Prop :=
  ∀ e ∈ P, 0 < (t.event e).period → now + (t.event e).period < 2 ^ 32

/-- The pending events that are left when the call returns. -/
def survivors (t : Timer) (P : Finset EventPtr) (now : ℕ) : Finset EventPtr :=
  P.filter fun e => now < t.whenOf e ∨ 0 < (t.event e).period

theorem mem_afterFiring (t : Timer) (P : Finset EventPtr) (e : EventPtr) :
    e ∈ afterFiring t P ↔ e ∈ P ∧ (e = t.heap 0 → 0 < (t.event e).period) := by
  unfold afterFiring
  split
  · rename_i hp
    exact ⟨fun h => ⟨h, fun he => he ▸ hp⟩, fun h => h.1⟩
  · rename_i hp
    rw [Finset.mem_erase]
    refine ⟨fun h => ⟨h.2, fun he => absurd he h.1⟩, fun h => ⟨fun he => hp ?_, h.1⟩⟩
    rw [← he]
    exact h.2 he

theorem rootWhen_ticker (hw : NoWrap t P now) (hmem : t.heap 0 ∈ P)
    (hdue : t.whenOf (t.heap 0) ≤ now) (hp : 0 < (t.event (t.heap 0)).period) :
    rootWhen t = t.whenOf (t.heap 0) + (t.event (t.heap 0)).period := by
  have := hw _ hmem hp
  rw [rootWhen, if_pos hp, Nat.mod_eq_of_lt (by omega)]

theorem noWrap_next (h : FiresRoot t u P) (hw : NoWrap t P now) :
    NoWrap u (afterFiring t P) now := by
  intro e he
  rw [h.periods e]
  exact hw e ((mem_afterFiring t P e).mp he).1

/-- The fired event owes one firing less, or is gone; the others owe what they did. -/
theorem firingsOf_next (h : FiresRoot t u P) (hw : NoWrap t P now) (hmem : t.heap 0 ∈ P)
    (hdue : t.whenOf (t.heap 0) ≤ now) (e : EventPtr) (he : e ∈ P) :
    firingsOf t now e =
      (if e ∈ afterFiring t P then firingsOf u now e else 0) + if e = t.heap 0 then 1 else 0 := by
  unfold firingsOf
  rw [h.periods e, h.times e]
  by_cases hroot : e = t.heap 0
  · subst hroot
    rw [if_pos rfl, if_pos rfl]
    rcases Nat.eq_zero_or_pos (t.event (t.heap 0)).period with hp | hp
    · have hout : t.heap 0 ∉ afterFiring t P := fun hm =>
        (((mem_afterFiring t P _).mp hm).2 rfl).ne' hp
      rw [if_neg hout, hp, firings_oneshot hdue]
    · rw [if_pos ((mem_afterFiring t P _).mpr ⟨hmem, fun _ => hp⟩),
        rootWhen_ticker hw hmem hdue hp, firings_reschedule hdue hp]
  · rw [if_neg hroot, if_neg hroot,
      if_pos ((mem_afterFiring t P e).mpr ⟨he, fun hr => absurd hr hroot⟩), Nat.add_zero]

theorem dueCount_next (h : FiresRoot t u P) (hw : NoWrap t P now) (hmem : t.heap 0 ∈ P)
    (hdue : t.whenOf (t.heap 0) ≤ now) :
    dueCount t P now = dueCount u (afterFiring t P) now + 1 := by
  have hsub : afterFiring t P ⊆ P := fun e he => ((mem_afterFiring t P e).mp he).1
  unfold dueCount
  rw [Finset.sum_congr rfl (firingsOf_next h hw hmem hdue), Finset.sum_add_distrib,
    Finset.sum_ite_mem, Finset.inter_eq_right.mpr hsub, Finset.sum_ite_eq' P (t.heap 0),
    if_pos hmem]

/-- The whole effect of a call that started in `t` with `P` pending. -/
structure Outcome (t : Timer) (P : Finset EventPtr) (now : ℕ) (u : Timer)
    (fs : List Firing) : Prop where
  invariant : HeapInvariant u (survivors t P now)
  counts : ∀ e, (fs.map Firing.ev).count e = if e ∈ P then firingsOf t now e else 0
  times : ∀ e ∈ P, u.whenOf e = t.whenOf e + firingsOf t now e * (t.event e).period
  periods : ∀ e, (u.event e).period = (t.event e).period
  removed : ∀ e ∈ P, (t.event e).period = 0 → t.whenOf e ≤ now → (u.event e).i = -1
  others : ∀ e, e ∉ P → u.event e = t.event e
  later : ∀ e ∈ survivors t P now, now < u.whenOf e
  sorted : (fs.map Firing.due).Pairwise (· ≤ ·)
  bounded : ∀ b, (∀ e ∈ P, b ≤ t.whenOf e) → ∀ f ∈ fs, b ≤ f.due

theorem root_least_when (h : HeapInvariant t P) {e : EventPtr} (he : e ∈ P) :
    t.whenOf (t.heap 0) ≤ t.whenOf e := by
  obtain ⟨k, hk, rfl⟩ := h.holds.cover e he
  exact h.ordered.root_least hk

theorem outcome_stop (h : HeapInvariant t P) (hstep : timerUpdateStep t now = none) :
    Outcome t P now t [] := by
  have hlater : ∀ e ∈ P, now < t.whenOf e := by
    intro e he
    have hroot := root_least_when h he
    obtain ⟨k, hk, -⟩ := h.holds.cover e he
    unfold timerUpdateStep at hstep
    split at hstep
    · omega
    · split at hstep
      · omega
      · cases hstep
  have hall : survivors t P now = P :=
    Finset.filter_true_of_mem fun e he => Or.inl (hlater e he)
  have hzero : ∀ e ∈ P, firingsOf t now e = 0 := fun e he => firings_later (hlater e he)
  refine ⟨hall.symm ▸ h, ?_, ?_, fun _ => rfl, ?_, fun _ _ => rfl, ?_, .nil, ?_⟩
  · intro e
    by_cases he : e ∈ P
    · simp [he, hzero e he]
    · simp [he]
  · intro e he
    simp [hzero e he]
  · intro e he _ hle
    have := hlater e he
    omega
  · rw [hall]; exact hlater
  · intro _ _ f hf
    cases hf

theorem survivors_next (h : FiresRoot t u P) (hdue : t.whenOf (t.heap 0) ≤ now) :
    survivors u (afterFiring t P) now = survivors t P now := by
  ext e
  simp only [survivors, Finset.mem_filter, mem_afterFiring, h.periods e, h.times e]
  by_cases hroot : e = t.heap 0
  · subst hroot
    simp only [true_imp_iff, ↓reduceIte, not_lt.mpr hdue, false_or]
    constructor
    · rintro ⟨⟨hm, hp⟩, -⟩; exact ⟨hm, hp⟩
    · rintro ⟨hm, hp⟩; exact ⟨⟨hm, hp⟩, Or.inr hp⟩
  · simp [hroot]

theorem outcome_fire (h : HeapInvariant t P) (hs : 0 < t.size) (hw : NoWrap t P now)
    (hdue : t.whenOf (t.heap 0) ≤ now) {v : Timer} {fs : List Firing}
    (ih : Outcome (fireRoot t) (afterFiring t P) now v fs) :
    Outcome t P now v (⟨t.heap 0, t.whenOf (t.heap 0)⟩ :: fs) := by
  have hmem := h.holds.mem 0 hs
  have hf := fireRoot_spec h hs
  have hcount := firingsOf_next hf hw hmem hdue
  have hsurv := survivors_next hf hdue
  have hstay : ∀ e ∈ P, e ≠ t.heap 0 → e ∈ afterFiring t P := fun e he hne =>
    (mem_afterFiring t P e).mpr ⟨he, fun hr => absurd hr hne⟩
  have hbound : ∀ e ∈ afterFiring t P, t.whenOf (t.heap 0) ≤ (fireRoot t).whenOf e := by
    intro e he
    obtain ⟨heP, hp⟩ := (mem_afterFiring t P e).mp he
    rw [hf.times e]
    split
    · rename_i hroot
      rw [rootWhen_ticker hw hmem hdue (hroot ▸ hp hroot)]
      omega
    · exact root_least_when h heP
  constructor
  · rw [← hsurv]; exact ih.invariant
  · intro e
    rw [List.map_cons, List.count_cons, ih.counts e]
    by_cases he : e ∈ P
    · rw [if_pos he, hcount e he]
      by_cases hroot : e = t.heap 0
      · simp [hroot]
      · simp [hroot, Ne.symm hroot]
    · have hne : e ≠ t.heap 0 := fun hr => he (hr ▸ hmem)
      have hout : e ∉ afterFiring t P := fun hm => he ((mem_afterFiring t P e).mp hm).1
      simp [he, hout, hne.symm]
  · intro e he
    by_cases hroot : e = t.heap 0
    · subst hroot
      rcases Nat.eq_zero_or_pos (t.event (t.heap 0)).period with hp | hp
      · have hout : t.heap 0 ∉ afterFiring t P := fun hm =>
          (((mem_afterFiring t P _).mp hm).2 rfl).ne' hp
        have hsame : v.whenOf (t.heap 0) = (fireRoot t).whenOf (t.heap 0) :=
          congrArg TimerEvent.when (ih.others _ hout)
        rw [hsame, hf.times, if_pos rfl, rootWhen, if_neg hp.not_gt, hp, Nat.mul_zero,
          Nat.add_zero]
      · have hin := (mem_afterFiring t P _).mpr ⟨hmem, fun _ => hp⟩
        rw [ih.times _ hin, hf.periods, hf.times, if_pos rfl,
          rootWhen_ticker hw hmem hdue hp, hcount _ hmem, if_pos hin, if_pos rfl, Nat.add_mul]
        omega
    · have hin := hstay e he hroot
      rw [ih.times e hin, hf.periods, hf.times, if_neg hroot, hcount e he, if_pos hin,
        if_neg hroot, Nat.add_zero]
  · intro e
    rw [ih.periods, hf.periods]
  · intro e he hp hle
    by_cases hroot : e = t.heap 0
    · subst hroot
      have hout : t.heap 0 ∉ afterFiring t P := fun hm =>
        (((mem_afterFiring t P _).mp hm).2 rfl).ne' hp
      rw [ih.others _ hout]
      exact hf.removed hp
    · refine ih.removed e (hstay e he hroot) ((hf.periods e).trans hp) ?_
      rw [hf.times, if_neg hroot]
      exact hle
  · intro e he
    have hout : e ∉ afterFiring t P := fun hm => he ((mem_afterFiring t P e).mp hm).1
    rw [ih.others e hout, hf.others e he]
  · rw [← hsurv]; exact ih.later
  · rw [List.map_cons, List.pairwise_cons]
    refine ⟨fun d hd => ?_, ih.sorted⟩
    obtain ⟨f, hf, rfl⟩ := List.mem_map.mp hd
    exact ih.bounded _ hbound f hf
  · intro b hb f hfm
    rcases List.mem_cons.mp hfm with rfl | hfm
    · exact hb _ hmem
    · exact ih.bounded b (fun e he => (hb _ hmem).trans (hbound e he)) f hfm

/-- With fuel for every firing due the loop returns, and its outcome is the expected one. -/
theorem timerUpdate_outcome (m : ℕ) (h : HeapInvariant t P) (hw : NoWrap t P now)
    (hm : dueCount t P now = m) :
    ∃ u fs, timerUpdate (m + 1) t now = some (u, fs) ∧ Outcome t P now u fs := by
  induction m generalizing t P with
  | zero =>
    cases hstep : timerUpdateStep t now with
    | none => exact ⟨t, [], by simp [timerUpdate, hstep], outcome_stop h hstep⟩
    | some r =>
      obtain ⟨hs, hdue, -⟩ := timerUpdateStep_some (f := r.1) (u := r.2) hstep
      have := dueCount_next (fireRoot_spec h hs) hw (h.holds.mem 0 hs) hdue
      omega
  | succ m ih =>
    cases hstep : timerUpdateStep t now with
    | none => exact ⟨t, [], by simp [timerUpdate, hstep], outcome_stop h hstep⟩
    | some r =>
      obtain ⟨hs, hdue, hfi, hu⟩ := timerUpdateStep_some (f := r.1) (u := r.2) hstep
      have hf := fireRoot_spec h hs
      have hcount := dueCount_next hf hw (h.holds.mem 0 hs) hdue
      obtain ⟨v, fs, hrun, ho⟩ := ih hf.invariant (noWrap_next hf hw) (by omega)
      refine ⟨v, r.1 :: fs, ?_, ?_⟩
      · rw [timerUpdate, hstep]
        simp only
        rw [hu, hrun]
        rfl
      · rw [hfi]
        exact outcome_fire h hs hw hdue ho

/-- A turn of the loop does not depend on `now` beyond being due. -/
theorem timerUpdateStep_later {n₁ n₂ : ℕ} (hn : n₁ ≤ n₂) {r : Firing × Timer}
    (h : timerUpdateStep t n₁ = some r) : timerUpdateStep t n₂ = some r := by
  obtain ⟨hs, hdue, hf, hu⟩ := timerUpdateStep_some (f := r.1) (u := r.2) h
  rw [timerUpdateStep, if_neg hs.ne', if_neg (by omega), ← hf, ← hu]

theorem timerUpdate_fuel (a k : ℕ) {r : Timer × List Firing}
    (h : timerUpdate a t now = some r) : timerUpdate (a + k) t now = some r := by
  induction a generalizing t r with
  | zero => cases h
  | succ a ih =>
    rw [Nat.succ_add]
    rw [timerUpdate] at h ⊢
    cases hstep : timerUpdateStep t now with
    | none => rwa [hstep] at h
    | some f =>
      rw [hstep] at h
      simp only [Option.map_eq_some_iff] at h ⊢
      obtain ⟨r', hrun, heq⟩ := h
      exact ⟨r', ih hrun, heq⟩

/-- What the first call leaves undone the second takes up where the loop stood. -/
theorem timerUpdate_split {n₁ n₂ : ℕ} (hn : n₁ ≤ n₂) (a b : ℕ) {u v : Timer}
    {fs gs : List Firing} (h₁ : timerUpdate a t n₁ = some (u, fs))
    (h₂ : timerUpdate b u n₂ = some (v, gs)) :
    timerUpdate (a + b) t n₂ = some (v, fs ++ gs) := by
  induction a generalizing t fs with
  | zero => cases h₁
  | succ a ih =>
    rw [timerUpdate] at h₁
    cases hstep : timerUpdateStep t n₁ with
    | none =>
      rw [hstep] at h₁
      obtain ⟨rfl, rfl⟩ := Prod.mk.inj (Option.some.inj h₁)
      rw [Nat.add_comm]
      exact timerUpdate_fuel b _ h₂
    | some r =>
      rw [hstep] at h₁
      simp only [Option.map_eq_some_iff] at h₁
      obtain ⟨⟨u', fs'⟩, hrun, heq⟩ := h₁
      obtain ⟨rfl, rfl⟩ := Prod.mk.inj heq
      rw [Nat.succ_add, timerUpdate, timerUpdateStep_later hn hstep]
      simp only
      rw [ih hrun]
      rfl

theorem timerUpdate_unique {a b : ℕ} {r s : Timer × List Firing}
    (h₁ : timerUpdate a t now = some r) (h₂ : timerUpdate b t now = some s) : r = s := by
  have h := timerUpdate_fuel a b h₁
  rw [Nat.add_comm, timerUpdate_fuel b a h₂] at h
  exact (Option.some.inj h).symm

/-- For a timer in heap order whose tickers do not wrap, `timer_update(n₂)` returns; every due
one-shot fires once and leaves with `i = -1`, every due ticker fires once per period elapsed
and ends at its first time after `n₂`, later events are untouched, due times never decrease,
and stopping first at an earlier `n₁` changes neither the firings nor the final timer. -/
theorem timer_update_fires_due {t : Timer} {P : Finset EventPtr} {n₁ n₂ : ℕ}
    (h : HeapInvariant t P) (hn : n₁ ≤ n₂)
    (hw : ∀ e ∈ P, 0 < (t.event e).period → n₂ + (t.event e).period < 2 ^ 32) :
    ∃ fuel u fs, timerUpdate fuel t n₂ = some (u, fs) ∧
      (∀ e ∈ P, (t.event e).period = 0 → (t.event e).when ≤ n₂ →
        (fs.map Firing.ev).count e = 1 ∧ (u.event e).i = -1 ∧
          ∀ k, k < u.size → u.heap k ≠ e) ∧
      (∀ e ∈ P, 0 < (t.event e).period → (t.event e).when ≤ n₂ →
        (fs.map Firing.ev).count e = (n₂ - (t.event e).when) / (t.event e).period + 1 ∧
          (u.event e).when = (t.event e).when +
            ((n₂ - (t.event e).when) / (t.event e).period + 1) * (t.event e).period ∧
          n₂ < (u.event e).when ∧ (u.event e).when - (t.event e).period ≤ n₂ ∧
          ∃ k, k < u.size ∧ u.heap k = e) ∧
      (∀ e ∈ P, n₂ < (t.event e).when →
        (fs.map Firing.ev).count e = 0 ∧ (u.event e).when = (t.event e).when ∧
          ∃ k, k < u.size ∧ u.heap k = e) ∧
      (∀ f ∈ fs, f.ev ∈ P) ∧
      (fs.map Firing.due).Pairwise (· ≤ ·) ∧
      (∀ k, k < u.size → n₂ < (u.event (u.heap k)).when) ∧
      ∃ fuel₁ u₁ fs₁ fuel₂ fs₂, timerUpdate fuel₁ t n₁ = some (u₁, fs₁) ∧
        timerUpdate fuel₂ u₁ n₂ = some (u, fs₂) ∧ fs = fs₁ ++ fs₂ := by
  have hw₁ : NoWrap t P n₁ := fun e he hp => by have := hw e he hp; omega
  obtain ⟨u₁, fs₁, hrun₁, ho₁⟩ := timerUpdate_outcome _ h hw₁ rfl
  have hw₂ : NoWrap u₁ (survivors t P n₁) n₂ := by
    intro e he
    rw [ho₁.periods]
    exact hw e (Finset.mem_of_mem_filter e he)
  obtain ⟨u, fs₂, hrun₂, -⟩ := timerUpdate_outcome _ ho₁.invariant hw₂ rfl
  obtain ⟨u', fs, hrun, ho⟩ := timerUpdate_outcome _ h hw rfl
  have hsplit := timerUpdate_split hn _ _ hrun₁ hrun₂
  have heq := timerUpdate_unique hrun hsplit
  obtain ⟨rfl, rfl⟩ := Prod.mk.inj heq
  have hin : ∀ e ∈ survivors t P n₂, ∃ k, k < u'.size ∧ u'.heap k = e := ho.invariant.holds.cover
  refine ⟨_, u', _, hrun, ?_, ?_, ?_, ?_, ho.sorted, ?_, _, u₁, fs₁, _, fs₂, hrun₁, hrun₂, rfl⟩
  · intro e he hp (hle : t.whenOf e ≤ n₂)
    have hc := ho.counts e
    rw [if_pos he, firingsOf, hp, firings_oneshot hle] at hc
    refine ⟨hc, ho.removed e he hp hle, fun k hk hke => ?_⟩
    have hm := ho.invariant.holds.mem k hk
    rw [hke, survivors, Finset.mem_filter, hp] at hm
    omega
  · intro e he hp (hle : t.whenOf e ≤ n₂)
    have hc := ho.counts e
    have ht := ho.times e he
    have hs : e ∈ survivors t P n₂ := Finset.mem_filter.mpr ⟨he, Or.inr hp⟩
    have hlate := ho.later e hs
    rw [firingsOf, firings_ticker hle hp] at hc ht
    rw [if_pos he] at hc
    refine ⟨hc, ht, hlate, ?_, hin e hs⟩
    have hdiv := Nat.div_mul_le_self (n₂ - t.whenOf e) (t.event e).period
    rw [Nat.add_mul, Nat.one_mul] at ht
    change u'.whenOf e - (t.event e).period ≤ n₂
    omega
  · intro e he (hlt : n₂ < t.whenOf e)
    have hc := ho.counts e
    have ht := ho.times e he
    rw [firingsOf, firings_later hlt] at hc ht
    rw [if_pos he] at hc
    rw [Nat.zero_mul, Nat.add_zero] at ht
    exact ⟨hc, ht, hin e (Finset.mem_filter.mpr ⟨he, Or.inl hlt⟩)⟩
  · intro f hf
    by_contra hout
    have hc := ho.counts f.ev
    rw [if_neg hout] at hc
    exact List.count_eq_zero.mp hc (List.mem_map_of_mem hf)
  · intro k hk
    exact ho.later _ (ho.invariant.holds.mem k hk)

/-- A due one-shot, a due ticker and a later one-shot in heap order. -/
def sampleTimer : Timer where
  heap k := if k = 0 then 3 else if k = 1 then 1 else 2
  size := 3
  cap := 32
  bytes := 256
  event e := if e = 1 then ⟨56, 0, 1⟩ else if e = 2 then ⟨37, 5, 2⟩ else ⟨31, 0, 0⟩

theorem sampleTimer_invariant : HeapInvariant sampleTimer {1, 2, 3} :=
  ⟨⟨by decide, by decide, by decide⟩, fun k hpos (hk : k < 3) => by
    obtain rfl | rfl : k = 1 ∨ k = 2 := by omega
    all_goals decide⟩

theorem timer_update_fires_due_sampleTimer :
    ∃ fuel u fs, timerUpdate fuel sampleTimer 47 = some (u, fs) ∧
      (fs.map Firing.ev).count 2 = 3 ∧ (fs.map Firing.ev).count 3 = 1 ∧
      (fs.map Firing.ev).count 1 = 0 := by
  obtain ⟨fuel, u, fs, hrun, hone, htick, hlate, -⟩ :=
    @timer_update_fires_due _ _ 40 47 sampleTimer_invariant (by decide) (by decide)
  exact ⟨fuel, u, fs, hrun, (htick 2 (by decide) (by decide) (by decide)).1,
    (hone 3 (by decide) (by decide) (by decide)).1, (hlate 1 (by decide) (by decide)).1⟩

end TimerUpdate
