import Grt.TimerHeap

/-! Every operation of the timer keeps the heap, and so does every run, with callbacks that
add and delete events while `timer_update` is in its loop. -/
namespace TimerInvariant

open BinaryHeapOrder TransitionSystem TimerHeap

variable {t : Timer} {P : Finset EventPtr} {e : EventPtr}

structure HeapInvariant (t : Timer) (P : Finset EventPtr) : Prop where
  holds : Holds t P
  ordered : Ordered t.key t.size

theorem keyAt_self (t : Timer) (i : ℕ) : t.keyAt i (t.heap i) = t.key :=
  Function.update_eq_self i t.key

theorem siftup_invariant {i : ℕ} (h : Holds t P) (ho : OrderedUp t.key t.size i)
    (hi : i < t.size) : HeapInvariant (timerSiftup t i) P ∧ Rearranged P t (timerSiftup t i) := by
  obtain ⟨hh, hr⟩ := siftup_holds t _ i h hi rfl
  refine ⟨⟨hh, ?_⟩, hr⟩
  have hsize : (timerSiftup t i).size = t.size := hr.size
  rw [hsize]
  exact siftup_ordered t _ i ho hi rfl

theorem siftdown_invariant {i : ℕ} (h : Holds t P) (ho : OrderedDown t.key t.size i)
    (hi : i < t.size) :
    HeapInvariant (timerSiftdown t i) P ∧ Rearranged P t (timerSiftdown t i) := by
  obtain ⟨hh, hr⟩ := siftdown_holds t _ i (h.off hi)
  refine ⟨⟨hh, ?_⟩, hr⟩
  have hsize : (timerSiftdown t i).size = t.size := hr.size
  rw [hsize]
  exact siftdown_ordered t _ i (by rwa [keyAt_self])

@[simp] theorem timerGrow_heap (t : Timer) : (timerGrow t).heap = t.heap := by
  unfold timerGrow; split <;> rfl

@[simp] theorem timerGrow_size (t : Timer) : (timerGrow t).size = t.size := by
  unfold timerGrow; split <;> rfl

@[simp] theorem timerGrow_event (t : Timer) : (timerGrow t).event = t.event := by
  unfold timerGrow; split <;> rfl

/-- The timer with `e` appended, before `timer_siftup`. -/
def appended (t : Timer) (e : EventPtr) : Timer :=
  let g := timerGrow { t with event := Function.update t.event e { t.event e with i := t.size } }
  { g with heap := Function.update t.heap t.size e, size := t.size + 1 }

theorem timerAdd_eq (t : Timer) (e : EventPtr) :
    timerAdd t e = timerSiftup (appended t e) t.size := by
  simp [timerAdd, appended]

theorem appended_whenOf (t : Timer) (e d : EventPtr) :
    (appended t e).whenOf d = t.whenOf d := by
  by_cases h : d = e
  · subst h; simp [appended, Timer.whenOf]
  · simp [appended, Timer.whenOf, h]

theorem appended_period (t : Timer) (e d : EventPtr) :
    ((appended t e).event d).period = (t.event d).period := by
  by_cases h : d = e
  · subst h; simp [appended]
  · simp [appended, h]

theorem appended_holds (h : Holds t P) (he : e ∉ P) : Holds (appended t e) (insert e P) where
  index k hk := by
    simp only [appended] at hk
    by_cases hh : k = t.size
    · subst hh; simp [appended]
    · have hk' : k < t.size := by omega
      have hne : t.heap k ≠ e := fun hd => he (hd ▸ h.mem k hk')
      simpa [appended, hh, hne] using h.index k hk'
  mem k hk := by
    simp only [appended] at hk
    by_cases hh : k = t.size
    · subst hh; simp [appended]
    · simpa [appended, hh] using Or.inr (h.mem k (by omega))
  cover d hd := by
    rcases Finset.mem_insert.mp hd with rfl | hd
    · exact ⟨t.size, by simp [appended], by simp [appended]⟩
    · obtain ⟨k, hk, rfl⟩ := h.cover d hd
      exact ⟨k, by simp only [appended]; omega, by simp [appended, hk.ne]⟩

theorem timerAdd_invariant (h : HeapInvariant t P) (he : e ∉ P) :
    HeapInvariant (timerAdd t e) (insert e P) ∧
      (∀ d, (timerAdd t e).whenOf d = t.whenOf d) ∧
      ∀ d, ((timerAdd t e).event d).period = (t.event d).period := by
  have hkey : ∀ k, k < t.size → (appended t e).key k = t.key k := by
    intro k hk
    rw [Timer.key, appended_whenOf, Timer.key]
    simp [appended, hk.ne]
  have hup : OrderedUp (appended t e).key (t.size + 1) t.size :=
    (h.ordered.congr hkey).append
  obtain ⟨hi, hr⟩ := siftup_invariant (appended_holds h.holds he) hup (Nat.lt_succ_self _)
  rw [timerAdd_eq]
  exact ⟨hi, fun d => (hr.times d).trans (appended_whenOf t e d),
    fun d => (hr.periods d).trans (appended_period t e d)⟩

/-- The last position is given up. -/
def dropLast (t : Timer) (last : ℕ) : Timer :=
  { t with heap := Function.update t.heap last NULL, size := last }

theorem dropLast_holds {last : ℕ} (h : Holds t P) (hs : t.size = last + 1) :
    Holds (dropLast t last) (P.erase (t.heap last)) where
  index k hk := by
    have hk : k < last := hk
    simpa [dropLast, hk.ne] using h.index k (by omega)
  mem k hk := by
    have hk : k < last := hk
    have hne : t.heap k ≠ t.heap last := fun hd =>
      hk.ne (h.injective (by omega) (by omega) hd)
    simpa [dropLast, hk.ne, hne] using h.mem k (by omega)
  cover d hd := by
    obtain ⟨hne, hd⟩ := Finset.mem_erase.mp hd
    obtain ⟨k, hk, rfl⟩ := h.cover d hd
    have hkl : k ≠ last := fun hh => hne (by rw [hh])
    exact ⟨k, by simp only [dropLast]; omega, by simp [dropLast, hkl]⟩

/-- The last event moves to position `i`, whose event leaves. -/
def refilled (t : Timer) (i last : ℕ) : Timer := dropLast (t.put i (t.heap last)) last

theorem refilled_holds {i last : ℕ} (h : Holds t P) (hs : t.size = last + 1) (hi : i < last) :
    Holds (refilled t i last) (P.erase (t.heap i)) := by
  have hmove := (h.off (show i < t.size by omega)).move (show last < t.size by omega)
    (show last ≠ i by omega)
  constructor
  · intro k hk
    have hk : k < last := hk
    simpa [refilled, dropLast, hk.ne] using hmove.index k (by simp; omega) hk.ne
  · intro k hk
    have hk : k < last := hk
    have hm := hmove.mem k (by simp; omega) hk.ne
    have hn := hmove.ne k (by simp; omega) hk.ne
    refine Finset.mem_erase.mpr ⟨?_, ?_⟩
    · simpa [refilled, dropLast, hk.ne] using hn
    · simpa [refilled, dropLast, hk.ne] using hm
  · intro d hd
    obtain ⟨hne, hd⟩ := Finset.mem_erase.mp hd
    obtain ⟨k, hk, hkl, hkd⟩ := hmove.cover d hd hne
    have hk : k < t.size := hk
    exact ⟨k, by simp only [refilled, dropLast]; omega, by
      simpa [refilled, dropLast, hkl] using hkd⟩

theorem refilled_rearranged {i last : ℕ} (h : Holds t P) (hs : t.size = last + 1) :
    (∀ d, (refilled t i last).whenOf d = t.whenOf d) ∧
      (∀ d, ((refilled t i last).event d).period = (t.event d).period) ∧
      ∀ d, d ∉ P → (refilled t i last).event d = t.event d := by
  have hr := Rearranged.put t i (h.mem last (by omega))
  exact ⟨hr.times, hr.periods, hr.others⟩

theorem refilled_off {i last : ℕ} (h : Ordered t.key t.size) (hs : t.size = last + 1) :
    OrderedOff (refilled t i last).key last i := by
  rw [hs] at h
  refine (h.overwrite (t.key last)).congr fun k hk => ?_
  have hput := congrFun (put_key t i (t.heap last)) k
  rw [← Timer.key] at hput
  rw [← hput]
  simp [refilled, dropLast, Timer.key, Timer.whenOf, hk.ne]

/-- `timer_siftup` then `timer_siftdown` repair a refilled position in either direction. -/
theorem repair_invariant {i : ℕ} (h : Holds t P) (ho : OrderedOff t.key t.size i)
    (hi : i < t.size) :
    HeapInvariant (timerSiftdown (timerSiftup t i) i) P ∧
      Rearranged P t (timerSiftdown (timerSiftup t i) i) := by
  by_cases hup : 0 < i ∧ t.key i < t.key (parent i)
  · obtain ⟨h1, hr1⟩ := siftup_invariant h (ho.up hup.1 hup.2) hi
    have hi1 : i < (timerSiftup t i).size := by rw [hr1.size]; exact hi
    obtain ⟨h2, hr2⟩ := siftdown_invariant h1.holds (h1.ordered.down i hi1) hi1
    exact ⟨h2, hr1.trans hr2⟩
  · have hstop : 0 < i → t.key (parent i) ≤ t.key i :=
      fun hpos => not_lt.mp fun hlt => hup ⟨hpos, hlt⟩
    have heq : timerSiftup t i = t := siftup_stop t _ i rfl hstop
    rw [heq]
    exact siftdown_invariant h ⟨ho, hstop⟩ hi

theorem timerDel_invariant (h : HeapInvariant t P) (he : e ∈ P) :
    ∃ u, timerDel t e = some u ∧ HeapInvariant u (P.erase e) ∧
      (∀ d, u.whenOf d = t.whenOf d) ∧ ∀ d, (u.event d).period = (t.event d).period := by
  obtain ⟨i, hi, rfl⟩ := h.holds.cover e he
  obtain ⟨last, hs⟩ : ∃ last, t.size = last + 1 := ⟨t.size - 1, by omega⟩
  have hidx : (t.event (t.heap i)).i = Int.ofNat i := h.holds.index i hi
  unfold timerDel
  simp only [hs, hidx]
  by_cases hil : i = last
  · subst hil
    refine ⟨_, if_neg (by simp), ⟨dropLast_holds h.holds hs, ?_⟩, fun _ => rfl, fun _ => rfl⟩
    refine Ordered.congr (f := t.key) (fun k hpos hk => h.ordered k hpos ?_) fun k hk => ?_
    · have hk : k < i := hk
      omega
    · have hk : k < i := hk
      simp [Timer.key, Timer.whenOf, hk.ne]
  · have hlt : i < last := by omega
    obtain ⟨ht, hp, -⟩ := refilled_rearranged (i := i) h.holds hs
    obtain ⟨hinv, hr⟩ := repair_invariant (refilled_holds h.holds hs hlt)
      (refilled_off h.ordered hs) (show i < (refilled t i last).size from hlt)
    exact ⟨_, if_pos hil, hinv, fun d => (hr.times d).trans (ht d),
      fun d => (hr.periods d).trans (hp d)⟩

/-- When `timer_del` returns, the last event has moved to the position that was given up, or was
the one to leave. -/
theorem timerDel_cases (h : timerDel t e = some u) :
    ∃ last, t.size = last + 1 ∧
      ((∃ i, u = timerSiftdown (timerSiftup (refilled t i last) i) i) ∨ u = dropLast t last) := by
  unfold timerDel at h
  split at h
  · cases h
  · cases h
  · rename_i last i hs hi
    refine ⟨last, hs, ?_⟩
    split at h
    · exact Or.inl ⟨i, (Option.some.inj h).symm⟩
    · exact Or.inr (Option.some.inj h).symm

/-- What is still pending after the root fired. -/
def afterFiring (t : Timer) (P : Finset EventPtr) : Finset EventPtr :=
  if 0 < (t.event (t.heap 0)).period then P else P.erase (t.heap 0)

/-- `when` of the root after it fired; the addition is on `unsigned int`. -/
def rootWhen (t : Timer) : ℕ :=
  if 0 < (t.event (t.heap 0)).period then
    (t.whenOf (t.heap 0) + (t.event (t.heap 0)).period) % 2 ^ 32
  else t.whenOf (t.heap 0)

/-- The ticker at the root with its next time, before `timer_siftdown`. -/
def rescheduled (t : Timer) : Timer :=
  { t with
    event := Function.update t.event (t.heap 0)
      { t.event (t.heap 0) with
        when := ((t.event (t.heap 0)).when + (t.event (t.heap 0)).period) % 2 ^ 32 } }

theorem rescheduled_whenOf (t : Timer) (d : EventPtr) (hp : 0 < (t.event (t.heap 0)).period) :
    (rescheduled t).whenOf d = if d = t.heap 0 then rootWhen t else t.whenOf d := by
  by_cases hd : d = t.heap 0
  · subst hd; simp [rescheduled, rootWhen, Timer.whenOf, hp]
  · simp [rescheduled, Timer.whenOf, hd]

theorem rescheduled_period (t : Timer) (d : EventPtr) :
    ((rescheduled t).event d).period = (t.event d).period := by
  by_cases hd : d = t.heap 0
  · subst hd; simp [rescheduled]
  · simp [rescheduled, hd]

theorem rescheduled_holds (h : Holds t P) : Holds (rescheduled t) P where
  index k hk := by
    have := h.index k hk
    by_cases hd : t.heap k = t.heap 0
    · simpa [rescheduled, hd] using this
    · simpa [rescheduled, hd] using this
  mem := h.mem
  cover := h.cover

theorem rescheduled_down (h : HeapInvariant t P) (hp : 0 < (t.event (t.heap 0)).period) :
    OrderedDown (rescheduled t).key t.size 0 := by
  have hbase := h.ordered.overwrite_root (rootWhen t)
  refine ⟨hbase.1.congr fun k hk => ?_, fun h0 => absurd h0 (lt_irrefl 0)⟩
  rw [Timer.key, rescheduled_whenOf t _ hp]
  by_cases hk0 : k = 0
  · subst hk0; simp [rescheduled]
  · have hne : t.heap k ≠ t.heap 0 := fun hd => hk0 (h.holds.injective hk (by omega) hd)
    have hne' : (rescheduled t).heap k ≠ t.heap 0 := hne
    rw [if_neg hne', Function.update_of_ne hk0]
    rfl

/-- One firing: who stays pending, whose time moves and what the fired event carries. -/
structure FiresRoot (t u : Timer) (P : Finset EventPtr) : Prop where
  invariant : HeapInvariant u (afterFiring t P)
  times : ∀ d, u.whenOf d = if d = t.heap 0 then rootWhen t else t.whenOf d
  periods : ∀ d, (u.event d).period = (t.event d).period
  others : ∀ d, d ∉ P → u.event d = t.event d
  removed : (t.event (t.heap 0)).period = 0 → (u.event (t.heap 0)).i = -1

theorem fireRoot_ticker (h : HeapInvariant t P) (hs : 0 < t.size)
    (hp : 0 < (t.event (t.heap 0)).period) : FiresRoot t (fireRoot t) P := by
  obtain ⟨hinv, hr⟩ := siftdown_invariant (rescheduled_holds h.holds)
    (rescheduled_down h hp) (show 0 < (rescheduled t).size from hs)
  have heq : fireRoot t = timerSiftdown (rescheduled t) 0 := if_pos hp
  rw [heq]
  refine ⟨by rwa [afterFiring, if_pos hp], ?_, ?_, ?_, fun h0 => absurd h0 hp.ne'⟩
  · exact fun d => (hr.times d).trans (rescheduled_whenOf t d hp)
  · exact fun d => (hr.periods d).trans (rescheduled_period t d)
  · intro d hd
    have hne : d ≠ t.heap 0 := fun hh => hd (hh ▸ h.holds.mem 0 hs)
    rw [hr.others d hd]
    simp [rescheduled, hne]

/-- The heap once the one-shot at the root is taken out, before `ev->i = -1`. -/
def rootRemoved (t : Timer) (last : ℕ) : Timer :=
  if 0 < last then timerSiftdown (refilled t 0 last) 0 else dropLast t last

theorem fireRoot_oneshot_eq {last : ℕ} (hs : t.size = last + 1)
    (hp : ¬ 0 < (t.event (t.heap 0)).period) :
    fireRoot t = { rootRemoved t last with
      event := Function.update (rootRemoved t last).event (t.heap 0)
        { (rootRemoved t last).event (t.heap 0) with i := -1 } } := by
  rw [fireRoot, if_neg hp]
  by_cases hl : 0 < last
  · simp [hs, hl, rootRemoved, refilled, dropLast]
  · simp [hs, hl, rootRemoved, dropLast]

theorem rootRemoved_invariant {last : ℕ} (h : HeapInvariant t P) (hs : t.size = last + 1) :
    HeapInvariant (rootRemoved t last) (P.erase (t.heap 0)) ∧
      (∀ d, (rootRemoved t last).whenOf d = t.whenOf d) ∧
      (∀ d, ((rootRemoved t last).event d).period = (t.event d).period) ∧
      ∀ d, d ∉ P → (rootRemoved t last).event d = t.event d := by
  unfold rootRemoved
  split
  · rename_i hl
    obtain ⟨ht, hp, ho⟩ := refilled_rearranged (i := 0) h.holds hs
    have hdown : OrderedDown (refilled t 0 last).key last 0 :=
      ⟨refilled_off h.ordered hs, fun h0 => absurd h0 (lt_irrefl 0)⟩
    obtain ⟨hinv, hr⟩ := siftdown_invariant (refilled_holds h.holds hs hl) hdown
      (show 0 < (refilled t 0 last).size from hl)
    refine ⟨hinv, fun d => (hr.times d).trans (ht d), fun d => (hr.periods d).trans (hp d), ?_⟩
    intro d hd
    rw [hr.others d (fun hm => hd (Finset.mem_of_mem_erase hm)), ho d hd]
  · rename_i hl
    obtain rfl : last = 0 := by omega
    refine ⟨⟨dropLast_holds h.holds hs, ?_⟩, fun _ => rfl, fun _ => rfl, fun _ _ => rfl⟩
    intro k _ hk
    exact absurd hk (Nat.not_lt_zero k)

theorem fireRoot_oneshot (h : HeapInvariant t P) (hs : 0 < t.size)
    (hp : (t.event (t.heap 0)).period = 0) : FiresRoot t (fireRoot t) P := by
  obtain ⟨last, hl⟩ : ∃ last, t.size = last + 1 := ⟨t.size - 1, by omega⟩
  have hnp : ¬ 0 < (t.event (t.heap 0)).period := by omega
  obtain ⟨hinv, ht, hpd, ho⟩ := rootRemoved_invariant h hl
  have hgone : ∀ k, k < (rootRemoved t last).size → (rootRemoved t last).heap k ≠ t.heap 0 :=
    fun k hk => (Finset.mem_erase.mp (hinv.holds.mem k hk)).1
  have htimes : ∀ d, (fireRoot t).whenOf d = t.whenOf d := by
    intro d
    rw [fireRoot_oneshot_eq hl hnp, ← ht d]
    by_cases hd : d = t.heap 0
    · subst hd; simp [Timer.whenOf]
    · simp [Timer.whenOf, hd]
  constructor
  · rw [afterFiring, if_neg hnp, fireRoot_oneshot_eq hl hnp]
    refine ⟨⟨fun k hk => ?_, hinv.holds.mem, hinv.holds.cover⟩, fun k hpos hk => ?_⟩
    · simpa [hgone k hk] using hinv.holds.index k hk
    · have := hinv.ordered k hpos hk
      have hpk := (parent_lt hpos).trans hk
      simpa [Timer.key, Timer.whenOf, hgone k hk, hgone _ hpk] using this
  · intro d
    rw [htimes d, rootWhen, if_neg hnp]
    split
    · rename_i hd; rw [hd]
    · rfl
  · intro d
    rw [fireRoot_oneshot_eq hl hnp, ← hpd d]
    by_cases hd : d = t.heap 0
    · subst hd; simp
    · simp [hd]
  · intro d hd
    have hne : d ≠ t.heap 0 := fun hh => hd (hh ▸ h.holds.mem 0 hs)
    rw [fireRoot_oneshot_eq hl hnp, ← ho d hd]
    simp [hne]
  · intro _
    rw [fireRoot_oneshot_eq hl hnp]
    simp

theorem fireRoot_spec (h : HeapInvariant t P) (hs : 0 < t.size) :
    FiresRoot t (fireRoot t) P := by
  rcases Nat.eq_zero_or_pos (t.event (t.heap 0)).period with hp | hp
  · exact fireRoot_oneshot h hs hp
  · exact fireRoot_ticker h hs hp

/-- `callback now` is a state inside `timer_update(now)` whose last callback is running. -/
inductive Mode where
  | idle
  | callback (now : ℕ)
  deriving DecidableEq, Repr

/-- `pending` is the history's own account of which events are in the timer. -/
structure State where
  timer : Timer
  pending : Finset EventPtr
  mode : Mode

inductive Call where
  | add (ev : EventPtr) (when period : ℕ)
  | del (ev : EventPtr)
  | update (now : ℕ)
  | resume
  deriving DecidableEq, Repr

/-- The head of the loop of `timer_update`, on entry and after each callback. -/
def loopHead (s : State) (now : ℕ) : State :=
  match timerUpdateStep s.timer now with
  | none => { s with mode := .idle }
  | some (_, t) => ⟨t, afterFiring s.timer s.pending, .callback now⟩

/-- A callback may add and delete; only `timer_update` itself is not entered again. -/
def Enabled (s : State) : Call → Prop
  | .add ev _ _ => ev ∉ s.pending
  | .del ev => ev ∈ s.pending
  | .update _ => s.mode = .idle
  | .resume => s.mode ≠ .idle

instance (s : State) (c : Call) : Decidable (Enabled s c) := by
  cases c <;> simp only [Enabled] <;> infer_instance

def next (s : State) : Call → State
  | .add ev when period =>
    let t := { s.timer with
      event := Function.update s.timer.event ev ⟨when, period, (s.timer.event ev).i⟩ }
    { s with timer := timerAdd t ev, pending := insert ev s.pending }
  | .del ev =>
    { s with timer := (timerDel s.timer ev).getD s.timer, pending := s.pending.erase ev }
  | .update now => loopHead s now
  | .resume =>
    match s.mode with
    | .idle => s
    | .callback now => loopHead s now

def timerSystem : System State Call where
  start s := ∃ event, s = ⟨timerInit event, ∅, .idle⟩
  enabled := Enabled
  next := next

instance (s : State) (c : Call) : Decidable (timerSystem.enabled s c) :=
  inferInstanceAs (Decidable (Enabled s c))

theorem initial_invariant (event : EventPtr → TimerEvent) : HeapInvariant (timerInit event) ∅ :=
  ⟨⟨fun _ hk => absurd hk (Nat.not_lt_zero _), fun _ hk => absurd hk (Nat.not_lt_zero _),
    fun _ he => absurd he (Finset.notMem_empty _)⟩, fun _ _ hk => absurd hk (Nat.not_lt_zero _)⟩

theorem timerUpdateStep_some {now : ℕ} {f : Firing} {u : Timer}
    (h : timerUpdateStep t now = some (f, u)) :
    0 < t.size ∧ t.whenOf (t.heap 0) ≤ now ∧ f = ⟨t.heap 0, t.whenOf (t.heap 0)⟩ ∧
      u = fireRoot t := by
  unfold timerUpdateStep at h
  split at h
  · cases h
  · split at h
    · cases h
    · cases h
      exact ⟨by omega, by omega, rfl, rfl⟩

theorem loopHead_invariant {s : State} (h : HeapInvariant s.timer s.pending) (now : ℕ) :
    HeapInvariant (loopHead s now).timer (loopHead s now).pending := by
  unfold loopHead
  split
  · exact h
  · rename_i hstep
    obtain ⟨hs, -, -, rfl⟩ := timerUpdateStep_some hstep
    exact (fireRoot_spec h hs).invariant

/-- Setting the fields of an event that is not pending leaves the heap alone. -/
theorem HeapInvariant.setFields (h : HeapInvariant t P) (he : e ∉ P) (v : TimerEvent) :
    HeapInvariant { t with event := Function.update t.event e v } P := by
  have hne : ∀ k, k < t.size → t.heap k ≠ e := fun k hk hd => he (hd ▸ h.holds.mem k hk)
  refine ⟨⟨fun k hk => ?_, h.holds.mem, h.holds.cover⟩, fun k hpos hk => ?_⟩
  · simpa [hne k hk] using h.holds.index k hk
  · have hpk := (parent_lt hpos).trans hk
    simpa [Timer.key, Timer.whenOf, hne k hk, hne _ hpk] using h.ordered k hpos hk

theorem step_preserves_invariant {s : State} (h : HeapInvariant s.timer s.pending) (c : Call)
    (hc : Enabled s c) : HeapInvariant (next s c).timer (next s c).pending := by
  cases c with
  | add ev when period => exact (timerAdd_invariant (h.setFields hc _) hc).1
  | del ev =>
    obtain ⟨u, hu, hinv, -⟩ := timerDel_invariant h hc
    simpa [next, hu] using hinv
  | update now => exact loopHead_invariant h now
  | resume =>
    simp only [next]
    split
    · exact h
    · exact loopHead_invariant h _

theorem reachable_invariant {s : State} (h : Reachable timerSystem s) :
    HeapInvariant s.timer s.pending := by
  refine h.invariant (I := fun s => HeapInvariant s.timer s.pending) ?_ ?_
  · rintro s ⟨event, rfl⟩
    exact initial_invariant event
  · intro s c _ ih hc
    exact step_preserves_invariant ih c hc

theorem latest_least (h : HeapInvariant t P) :
    (timerLatest t = none ↔ P = ∅) ∧
      ∀ e, timerLatest t = some e → e ∈ P ∧ ∀ d ∈ P, t.whenOf e ≤ t.whenOf d := by
  unfold timerLatest
  rcases Nat.eq_zero_or_pos t.size with hs | hs
  · have hempty : P = ∅ := by
      refine Finset.eq_empty_of_forall_notMem fun e he => ?_
      obtain ⟨k, hk, -⟩ := h.holds.cover e he
      omega
    simp [hs, hempty]
  · have hmem := h.holds.mem 0 hs
    simp only [hs.ne', ↓reduceIte, reduceCtorEq, false_iff, Option.some.injEq]
    refine ⟨Finset.ne_empty_of_mem hmem, ?_⟩
    rintro e rfl
    refine ⟨hmem, fun d hd => ?_⟩
    obtain ⟨k, hk, rfl⟩ := h.holds.cover d hd
    exact h.ordered.root_least hk

/-- In every state of every run, callbacks included, the array holds each pending event once
and no other, the index fields are right, times grow from parent to child, and `timer_latest`
answers a pending event with the smallest time or none when there is none. -/
theorem timer_heap_invariant {s : State} (h : Reachable timerSystem s) :
    (∀ e ∈ s.pending, ∃! k, k < s.timer.size ∧ s.timer.heap k = e) ∧
      (∀ k, k < s.timer.size → s.timer.heap k ∈ s.pending) ∧
      (∀ k, k < s.timer.size → (s.timer.event (s.timer.heap k)).i = k) ∧
      (∀ k, 0 < k → k < s.timer.size →
        (s.timer.event (s.timer.heap ((k - 1) / 2))).when ≤
          (s.timer.event (s.timer.heap k)).when) ∧
      (timerLatest s.timer = none ↔ s.pending = ∅) ∧
      ∀ e, timerLatest s.timer = some e → e ∈ s.pending ∧
        ∀ d ∈ s.pending, (s.timer.event e).when ≤ (s.timer.event d).when := by
  have hi := reachable_invariant h
  refine ⟨fun e he => ?_, hi.holds.mem, hi.holds.index, hi.ordered, latest_least hi⟩
  obtain ⟨k, hk, rfl⟩ := hi.holds.cover e he
  exact ⟨k, ⟨hk, rfl⟩, fun j hj => hi.holds.injective hj.1 hk hj.2⟩

/-- Two one-shots and a ticker are added, one is deleted and an update begins. -/
def sampleRun : State :=
  runTrace timerSystem ⟨timerInit fun _ => ⟨0, 0, 0⟩, ∅, .idle⟩
    [.add 1 56 0, .add 2 37 5, .add 3 31 0, .del 1, .update 40]

theorem timer_heap_invariant_sampleRun :
    2 ∈ sampleRun.pending ∧ ∃! k, k < sampleRun.timer.size ∧ sampleRun.timer.heap k = 2 := by
  have hpending : 2 ∈ sampleRun.pending := by decide +kernel
  have hinvariant := timer_heap_invariant (s := sampleRun) (.run (.start ⟨_, rfl⟩) (by decide))
  exact ⟨hpending, hinvariant.1 2 hpending⟩

end TimerInvariant
