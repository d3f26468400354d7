import Mathlib.Algebra.Order.Ring.Nat
import Mathlib.Data.Finset.Card
import Grt.BinaryHeapOrder
import Grt.TransitionSystem

/-! The timer of `timer.c`: an array of event pointers kept as a binary heap on `when`,
each pending event carrying its own position in `i`. Pointers are numbers and the array
is a function of the position. `when` and `period` are `unsigned int`. -/
namespace TimerHeap

open BinaryHeapOrder TransitionSystem

abbrev EventPtr := ℕ

def NULL : EventPtr := 0

/-- The fields of `struct timer_event` the heap reads; a firing names its event. -/
structure TimerEvent where
  when : ℕ
  period : ℕ
  i : ℤ
  deriving DecidableEq, Repr

/-- `bytes` is the size of the block `heap` points to. -/
structure Timer where
  heap : ℕ → EventPtr
  size : ℕ
  cap : ℕ
  bytes : ℕ
  event : EventPtr → TimerEvent

def sizeofPtr : ℕ := 8

def timerInit (event : EventPtr → TimerEvent) : Timer :=
  ⟨fun _ => NULL, 0, 32, 32 * sizeofPtr, event⟩

def Timer.whenOf (t : Timer) (e : EventPtr) : ℕ := (t.event e).when

/-- `heap[k] = e; heap[k]->i = k`. -/
def Timer.put (t : Timer) (k : ℕ) (e : EventPtr) : Timer :=
  { t with
    heap := Function.update t.heap k e
    event := Function.update t.event e { t.event e with i := k } }

def timerSiftupLoop (t : Timer) (tmp : EventPtr) (i : ℕ) : Timer :=
  if _h : 0 < i then
    let p := (i - 1) / 2
    if t.whenOf (t.heap p) ≤ t.whenOf tmp then t
    else timerSiftupLoop ((t.put i (t.heap p)).put p tmp) tmp p
  else t
termination_by i

def timerSiftup (t : Timer) (i : ℕ) : Timer := timerSiftupLoop t (t.heap i) i

def timerSiftdownLoop (t : Timer) (tmp : EventPtr) (idx : ℕ) : Timer :=
  let left := 2 * idx + 1
  let right := 2 * (idx + 1)
  if _h : right < t.size then
    let smaller := if t.whenOf (t.heap left) < t.whenOf (t.heap right) then left else right
    if t.whenOf tmp < t.whenOf (t.heap smaller) then t.put idx tmp
    else timerSiftdownLoop (t.put idx (t.heap smaller)) tmp smaller
  else if left < t.size ∧ t.whenOf (t.heap left) < t.whenOf tmp then
    (t.put idx (t.heap left)).put left tmp
  else t.put idx tmp
termination_by t.size - idx
decreasing_by
  simp only [Timer.put]
  split <;> omega

def timerSiftdown (t : Timer) (idx : ℕ) : Timer := timerSiftdownLoop t (t.heap idx) idx

/-- `realloc` is given the number of slots where it expects bytes. -/
def timerGrow (t : Timer) : Timer :=
  if t.cap ≤ t.size then { t with cap := t.cap * 2, bytes := t.cap * 2 } else t

def timerAdd (t : Timer) (ev : EventPtr) : Timer :=
  let t := { t with event := Function.update t.event ev { t.event ev with i := t.size } }
  let t := timerGrow t
  timerSiftup { t with heap := Function.update t.heap t.size ev, size := t.size + 1 } t.size

/-- `none` when the code would index the array below its start. -/
def timerDel (t : Timer) (ev : EventPtr) : Option Timer :=
  match t.size, (t.event ev).i with
  | 0, _ => none
  | _, .negSucc _ => none
  | last + 1, .ofNat i =>
    if i ≠ last then
      let t := t.put i (t.heap last)
      let t := { t with heap := Function.update t.heap last NULL, size := last }
      some (timerSiftdown (timerSiftup t i) i)
    else
      some { t with heap := Function.update t.heap last NULL, size := last }

def timerLatest (t : Timer) : Option EventPtr :=
  if t.size = 0 then none else some (t.heap 0)

/-- One turn of the loop of `timer_update` on a due root, up to the callback. -/
def fireRoot (t : Timer) : Timer :=
  let ev := t.heap 0
  if 0 < (t.event ev).period then
    let when := ((t.event ev).when + (t.event ev).period) % 2 ^ 32
    timerSiftdown
      { t with event := Function.update t.event ev { t.event ev with when := when } } 0
  else
    let last := t.size - 1
    let t := if 0 < last then t.put 0 (t.heap last) else t
    let t := { t with heap := Function.update t.heap last NULL, size := last }
    let t := if 0 < last then timerSiftdown t 0 else t
    { t with event := Function.update t.event ev { t.event ev with i := -1 } }

/-- A call of `ev->callback`, with the time the event was due. -/
structure Firing where
  ev : EventPtr
  due : ℕ
  deriving DecidableEq, Repr

/-- The head of the loop: `none` when `timer_update` returns. -/
def timerUpdateStep (t : Timer) (now : ℕ) : Option (Firing × Timer) :=
  if t.size = 0 then none
  else if now < t.whenOf (t.heap 0) then none
  else some (⟨t.heap 0, t.whenOf (t.heap 0)⟩, fireRoot t)

def Timer.key (t : Timer) (k : ℕ) : ℕ := t.whenOf (t.heap k)

@[simp] theorem put_heap (t : Timer) (k : ℕ) (e : EventPtr) :
    (t.put k e).heap = Function.update t.heap k e := rfl

@[simp] theorem put_size (t : Timer) (k : ℕ) (e : EventPtr) : (t.put k e).size = t.size := rfl

@[simp] theorem put_index (t : Timer) (k : ℕ) (e : EventPtr) : ((t.put k e).event e).i = k := by
  simp [Timer.put]

theorem put_event_other (t : Timer) (k : ℕ) {e d : EventPtr} (h : d ≠ e) :
    (t.put k e).event d = t.event d := by
  simp [Timer.put, h]

@[simp] theorem put_whenOf (t : Timer) (k : ℕ) (e d : EventPtr) :
    (t.put k e).whenOf d = t.whenOf d := by
  by_cases h : d = e
  · subst h; simp [Timer.put, Timer.whenOf]
  · simp [Timer.whenOf, put_event_other t k h]

theorem put_period (t : Timer) (k : ℕ) (e d : EventPtr) :
    ((t.put k e).event d).period = (t.event d).period := by
  by_cases h : d = e
  · subst h; simp [Timer.put]
  · rw [put_event_other t k h]

theorem put_key (t : Timer) (k : ℕ) (e : EventPtr) :
    (t.put k e).key = Function.update t.key k (t.whenOf e) := by
  funext j
  by_cases h : j = k
  · subst h; simp [Timer.key]
  · simp [Timer.key, h]

/-- `heap[0..size)` holds each event of `P` once, at the position its `i` names. -/
structure Holds (t : Timer) (P : Finset EventPtr) : Prop where
  index : ∀ k, k < t.size → (t.event (t.heap k)).i = k
  mem : ∀ k, k < t.size → t.heap k ∈ P
  cover : ∀ e ∈ P, ∃ k, k < t.size ∧ t.heap k = e

/-- The same off position `hole`, with `tmp` still to be stored. -/
structure HoldsOff (t : Timer) (P : Finset EventPtr) (hole : ℕ) (tmp : EventPtr) : Prop where
  lt : hole < t.size
  saved : tmp ∈ P
  index : ∀ k, k < t.size → k ≠ hole → (t.event (t.heap k)).i = k
  mem : ∀ k, k < t.size → k ≠ hole → t.heap k ∈ P
  ne : ∀ k, k < t.size → k ≠ hole → t.heap k ≠ tmp
  cover : ∀ e ∈ P, e ≠ tmp → ∃ k, k < t.size ∧ k ≠ hole ∧ t.heap k = e

/-- `u` is `t` with the pending events `P` moved about: no time, period or other event differs. -/
structure Rearranged (P : Finset EventPtr) (t u : Timer) : Prop where
  size : u.size = t.size
  times : ∀ e, u.whenOf e = t.whenOf e
  periods : ∀ e, (u.event e).period = (t.event e).period
  others : ∀ e, e ∉ P → u.event e = t.event e

theorem Rearranged.refl (P : Finset EventPtr) (t : Timer) : Rearranged P t t :=
  ⟨rfl, fun _ => rfl, fun _ => rfl, fun _ _ => rfl⟩

theorem Rearranged.trans {P : Finset EventPtr} {t u v : Timer} (h : Rearranged P t u)
    (k : Rearranged P u v) : Rearranged P t v :=
  ⟨k.size.trans h.size, fun e => (k.times e).trans (h.times e),
    fun e => (k.periods e).trans (h.periods e),
    fun e he => (k.others e he).trans (h.others e he)⟩

theorem Rearranged.put {P : Finset EventPtr} (t : Timer) (k : ℕ) {e : EventPtr} (he : e ∈ P) :
    Rearranged P t (t.put k e) :=
  ⟨rfl, put_whenOf t k e, put_period t k e,
    fun _ hd => put_event_other t k (fun h => hd (h ▸ he))⟩

theorem Holds.injective {t : Timer} {P : Finset EventPtr} (h : Holds t P) {j k : ℕ}
    (hj : j < t.size) (hk : k < t.size) (he : t.heap j = t.heap k) : j = k := by
  have h1 := h.index j hj
  rw [he, h.index k hk] at h1
  exact_mod_cast h1.symm

theorem Holds.off {t : Timer} {P : Finset EventPtr} (h : Holds t P) {hole : ℕ}
    (hlt : hole < t.size) : HoldsOff t P hole (t.heap hole) where
  lt := hlt
  saved := h.mem hole hlt
  index k hk _ := h.index k hk
  mem k hk _ := h.mem k hk
  ne k hk hne he := hne (h.injective hk hlt he)
  cover e he hne := by
    obtain ⟨k, hk, rfl⟩ := h.cover e he
    exact ⟨k, hk, fun hh => hne (by rw [hh]), rfl⟩

theorem HoldsOff.store {t : Timer} {P : Finset EventPtr} {hole : ℕ} {tmp : EventPtr}
    (h : HoldsOff t P hole tmp) : Holds (t.put hole tmp) P where
  index k hk := by
    by_cases hh : k = hole
    · subst hh; simp
    · simpa [hh, put_event_other t hole (h.ne k hk hh)] using h.index k hk hh
  mem k hk := by
    by_cases hh : k = hole
    · subst hh; simpa using h.saved
    · simpa [hh] using h.mem k hk hh
  cover e he := by
    by_cases hh : e = tmp
    · exact ⟨hole, h.lt, by simp [hh]⟩
    · obtain ⟨k, hk, hne, hke⟩ := h.cover e he hh
      exact ⟨k, hk, by simpa [hne] using hke⟩

theorem HoldsOff.move {t : Timer} {P : Finset EventPtr} {hole : ℕ} {tmp : EventPtr}
    (h : HoldsOff t P hole tmp) {c : ℕ} (hc : c < t.size) (hne : c ≠ hole) :
    HoldsOff (t.put hole (t.heap c)) P c tmp where
  lt := hc
  saved := h.saved
  index k hk hkc := by
    by_cases hh : k = hole
    · subst hh; simp
    · have hd : t.heap k ≠ t.heap c := by
        intro he
        have h1 := h.index k hk hh
        rw [he, h.index c hc hne] at h1
        exact hkc (by exact_mod_cast h1.symm)
      simpa [hh, put_event_other t hole hd] using h.index k hk hh
  mem k hk _ := by
    by_cases hh : k = hole
    · subst hh; simpa using h.mem c hc hne
    · simpa [hh] using h.mem k hk hh
  ne k hk _ := by
    by_cases hh : k = hole
    · subst hh; simpa using h.ne c hc hne
    · simpa [hh] using h.ne k hk hh
  cover e he hd := by
    obtain ⟨k, hk, hkh, hke⟩ := h.cover e he hd
    by_cases hkc : k = c
    · subst hkc; exact ⟨hole, h.lt, hne.symm, by simpa using hke⟩
    · exact ⟨k, hk, hkc, by simpa [hkh] using hke⟩

/-- Storing the parent at the hole and `tmp` at the parent exchanges the two keys. -/
theorem put_put_key (t : Timer) {i p : ℕ} {tmp : EventPtr} (htmp : t.heap i = tmp) :
    ((t.put i (t.heap p)).put p tmp).key = exchange t.key i p := by
  rw [put_key, put_key, put_whenOf, exchange]
  simp [Timer.key, htmp]

theorem siftup_holds (t : Timer) (tmp : EventPtr) (i : ℕ) {P : Finset EventPtr}
    (h : Holds t P) (hi : i < t.size) (htmp : t.heap i = tmp) :
    Holds (timerSiftupLoop t tmp i) P ∧ Rearranged P t (timerSiftupLoop t tmp i) := by
  fun_induction timerSiftupLoop t tmp i with
  | case1 t i hpos p hle => exact ⟨h, .refl P t⟩
  | case2 t i hpos p hlt ih =>
    have hp : p < i := parent_lt hpos
    have hmove := (htmp ▸ h.off hi).move (by omega) hp.ne
    have hput := Rearranged.put t i (h.mem p (by omega))
    obtain ⟨h1, h2⟩ := ih hmove.store (by simp; omega) (by simp)
    exact ⟨h1, (hput.trans (.put _ p hmove.saved)).trans h2⟩
  | case3 t i hnot => exact ⟨h, .refl P t⟩

theorem siftup_ordered (t : Timer) (tmp : EventPtr) (i : ℕ) (h : OrderedUp t.key t.size i)
    (hi : i < t.size) (htmp : t.heap i = tmp) :
    Ordered (timerSiftupLoop t tmp i).key t.size := by
  fun_induction timerSiftupLoop t tmp i with
  | case1 t i hpos p hle =>
    refine h.finish fun _ => ?_
    have hp : parent i = p := rfl
    simpa [Timer.key, htmp, hp] using hle
  | case2 t i hpos p hlt ih =>
    have hp : p < i := parent_lt hpos
    have hkey : t.key i < t.key (parent i) := by
      simpa [Timer.key, htmp, parent] using hlt
    refine ih ?_ (by simp; omega) (by simp)
    rw [put_put_key t htmp]
    exact h.rise hpos hi hkey
  | case3 t i hnot => exact h.finish fun hpos => absurd hpos hnot

/-- Nothing happens when the parent is not above. -/
theorem siftup_stop (t : Timer) (tmp : EventPtr) (i : ℕ) (htmp : t.heap i = tmp)
    (h : 0 < i → t.key (parent i) ≤ t.key i) : timerSiftupLoop t tmp i = t := by
  rw [timerSiftupLoop]
  by_cases hpos : 0 < i
  · have := h hpos
    simp only [Timer.key, htmp] at this
    simp only [hpos, ↓reduceDIte]
    exact if_pos this
  · simp [hpos]

theorem siftdown_holds (t : Timer) (tmp : EventPtr) (idx : ℕ) {P : Finset EventPtr}
    (h : HoldsOff t P idx tmp) :
    Holds (timerSiftdownLoop t tmp idx) P ∧ Rearranged P t (timerSiftdownLoop t tmp idx) := by
  fun_induction timerSiftdownLoop t tmp idx with
  | case1 t idx left right hr smaller hlt => exact ⟨h.store, .put t idx h.saved⟩
  | case2 t idx left right hr smaller hle ih =>
    have hs : smaller < t.size ∧ smaller ≠ idx := by
      simp only [smaller]
      split <;> omega
    obtain ⟨h1, h2⟩ := ih (h.move hs.1 hs.2)
    exact ⟨h1, (Rearranged.put t idx (h.mem _ hs.1 hs.2)).trans h2⟩
  | case3 t idx left right hr hleft =>
    have hne : left ≠ idx := by omega
    exact ⟨(h.move hleft.1 hne).store,
      (Rearranged.put t idx (h.mem _ hleft.1 hne)).trans (.put _ left h.saved)⟩
  | case4 t idx left right hr hleft => exact ⟨h.store, .put t idx h.saved⟩

/-- The keys once `tmp` is stored at the hole. -/
def Timer.keyAt (t : Timer) (idx : ℕ) (tmp : EventPtr) : ℕ → ℕ :=
  Function.update t.key idx (t.whenOf tmp)

theorem put_keyAt (t : Timer) {idx c : ℕ} {tmp : EventPtr} (h : c ≠ idx) :
    (t.put idx (t.heap c)).keyAt c tmp = exchange (t.keyAt idx tmp) idx c := by
  funext k
  by_cases hc : k = c
  · subst hc; simp [Timer.keyAt, exchange]
  · by_cases hi : k = idx
    · subst hi; simp [Timer.keyAt, exchange, put_key, hc, h, Timer.key]
    · simp [Timer.keyAt, exchange, put_key, hc, hi]

theorem siftdown_ordered (t : Timer) (tmp : EventPtr) (idx : ℕ)
    (h : OrderedDown (t.keyAt idx tmp) t.size idx) :
    Ordered (timerSiftdownLoop t tmp idx).key t.size := by
  fun_induction timerSiftdownLoop t tmp idx with
  | case1 t idx left right hr smaller hlt =>
    rw [put_key]
    refine h.finish fun k hpos hk hp => ?_
    have hkc := (parent_eq_iff hpos).mp hp
    have hki : k ≠ idx := by omega
    simp only [smaller, left, right] at hlt
    simp only [Timer.keyAt, Function.update_self, Function.update_of_ne hki, Timer.key]
    rcases hkc with rfl | rfl <;> split at hlt <;> omega
  | case2 t idx left right hr smaller hle ih =>
    have hs : smaller = left ∨ smaller = right := by
      simp only [smaller]
      split <;> simp
    have hpar : parent smaller = idx := by
      rw [parent_eq_iff (by omega)]
      exact hs
    have hne : smaller ≠ idx := by omega
    refine ih ?_
    rw [put_keyAt t hne]
    refine h.sink (by omega) (show smaller < t.size by omega) hpar ?_ ?_
    · intro k hpos hk hp
      have hkc := (parent_eq_iff hpos).mp hp
      have hki : k ≠ idx := by omega
      simp only [Timer.keyAt, Function.update_of_ne hki, Function.update_of_ne hne, Timer.key]
      simp only [smaller, left, right]
      rcases hkc with rfl | rfl <;> split <;> omega
    · simp only [Timer.keyAt, Function.update_self, Function.update_of_ne hne, Timer.key]
      omega
  | case3 t idx left right hr hleft =>
    have hne : left ≠ idx := by omega
    have hpar : parent left = idx := (parent_eq_iff (by omega)).mpr (Or.inl rfl)
    have hlast : ∀ k, 0 < k → k < t.size → parent k = idx → k = left := by
      intro k hpos hk hp
      rcases (parent_eq_iff hpos).mp hp with rfl | rfl <;> omega
    have hkey : t.keyAt idx tmp left ≤ t.keyAt idx tmp idx := by
      simp only [Timer.keyAt, Function.update_self, Function.update_of_ne hne, Timer.key]
      omega
    rw [put_key, put_whenOf]
    have hd := h.sink (by omega) hleft.1 hpar
      (fun k hpos hk hp => by rw [hlast k hpos hk hp]) hkey
    rw [← put_keyAt t hne] at hd
    have hput : OrderedDown
        (Function.update (t.put idx (t.heap left)).key left (t.whenOf tmp)) t.size left := by
      simpa [Timer.keyAt] using hd
    refine hput.finish fun k hpos hk hp => ?_
    rcases (parent_eq_iff hpos).mp hp with rfl | rfl <;> omega
  | case4 t idx left right hr hleft =>
    rw [put_key]
    refine h.finish fun k hpos hk hp => ?_
    have hki : k ≠ idx := by rcases (parent_eq_iff hpos).mp hp with rfl | rfl <;> omega
    simp only [Timer.keyAt, Function.update_self, Function.update_of_ne hki, Timer.key]
    rcases (parent_eq_iff hpos).mp hp with rfl | rfl
    · by_contra hlt
      exact hleft ⟨hk, lt_of_not_ge hlt⟩
    · omega

end TimerHeap
