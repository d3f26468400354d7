import Grt.TimerUpdate

/-! The block that `heap` points to, over calls of `timer_add` and `timer_del` and turns of the
loop of `timer_update` in any order. It fits the heap until `timer_add` grows it: `realloc` is
given a number of slots where it takes a number of bytes. -/
namespace TimerAllocation

open TransitionSystem TimerHeap TimerInvariant TimerUpdate

variable {t u : Timer}

/-- Slot `k` is inside the block. -/
def InBlock (t : Timer) (k : ℕ) : Prop := (k + 1) * sizeofPtr ≤ t.bytes

/-- The block has room for `cap` pointers, and every slot in use is inside it. -/
structure Fits (t : Timer) : Prop where
  room : t.cap * sizeofPtr ≤ t.bytes
  size : t.size ≤ t.cap
  slots : ∀ k < t.size, InBlock t k

theorem fits_iff : Fits t ↔ t.cap * sizeofPtr ≤ t.bytes ∧ t.size ≤ t.cap := by
  refine ⟨fun h => ⟨h.room, h.size⟩, fun h => ⟨h.1, h.2, fun k hk => ?_⟩⟩
  have hle : (k + 1) * sizeofPtr ≤ t.cap * sizeofPtr := Nat.mul_le_mul_right _ (by omega)
  exact hle.trans h.1

/-- A `turn` is one turn of the loop of `timer_update(now)`, up to its callback, which may call
whatever it likes. -/
inductive Action where
  | add (ev : EventPtr) (when period : ℕ)
  | del (ev : EventPtr)
  | turn (now : ℕ)
  deriving DecidableEq, Repr

/-- The timer before `ev` is appended. -/
def withEvent (t : Timer) (ev : EventPtr) (when period : ℕ) : Timer :=
  { t with event := Function.update t.event ev ⟨when, period, (t.event ev).i⟩ }

def act (t : Timer) : Action → Timer
  | .add ev when period => timerAdd (withEvent t ev when period) ev
  | .del ev => (timerDel t ev).getD t
  | .turn now =>
    match timerUpdateStep t now with
    | none => t
    | some (_, u) => u

/-- `timer_del` may be given any event whose position is not below the array. -/
def Permitted (t : Timer) : Action → Prop
  | .del ev => (timerDel t ev).isSome
  | _ => True

instance (t : Timer) (a : Action) : Decidable (Permitted t a) := by
  cases a <;> simp only [Permitted] <;> infer_instance

def timerCalls : System Timer Action where
  start t := ∃ event, t = timerInit event
  enabled := Permitted
  next := act

instance (t : Timer) (a : Action) : Decidable (timerCalls.enabled t a) :=
  inferInstanceAs (Decidable (Permitted t a))

/-- A call of `timer_update` is so many turns. -/
theorem timerUpdate_turns {fuel now : ℕ} {fs : List Firing}
    (h : timerUpdate fuel t now = some (u, fs)) :
    runTrace timerCalls t (List.replicate fs.length (.turn now)) = u := by
  induction fuel generalizing t fs with
  | zero => cases h
  | succ fuel ih =>
    rw [timerUpdate] at h
    cases hstep : timerUpdateStep t now with
    | none =>
      rw [hstep] at h
      obtain ⟨rfl, rfl⟩ := Prod.mk.inj (Option.some.inj h)
      rfl
    | some r =>
      rw [hstep] at h
      obtain ⟨⟨v, gs⟩, hrun, heq⟩ := Option.map_eq_some_iff.mp h
      obtain ⟨rfl, rfl⟩ := Prod.mk.inj heq
      have hact : act t (.turn now) = r.2 := by simp only [act, hstep]
      rw [List.length_cons, List.replicate_succ, runTrace]
      change runTrace timerCalls (act t (.turn now)) _ = v
      rw [hact]
      exact ih hrun

/-- The same block, with no more slots in use. -/
structure Within (t u : Timer) : Prop where
  size : u.size ≤ t.size
  cap : u.cap = t.cap
  bytes : u.bytes = t.bytes

theorem Within.trans {v : Timer} (h : Within t u) (k : Within u v) : Within t v :=
  ⟨k.size.trans h.size, k.cap.trans h.cap, k.bytes.trans h.bytes⟩

theorem Within.fits (h : Within t u) (hf : Fits t) : Fits u := by
  rw [fits_iff, h.cap, h.bytes]
  exact ⟨hf.room, h.size.trans hf.size⟩

/-- The sifts move entries between the slots in use. -/
structure SameSlots (t u : Timer) : Prop where
  size : u.size = t.size
  cap : u.cap = t.cap
  bytes : u.bytes = t.bytes

theorem SameSlots.within (h : SameSlots t u) : Within t u := ⟨h.size.le, h.cap, h.bytes⟩

theorem siftup_slots (t : Timer) (tmp : EventPtr) (i : ℕ) :
    SameSlots t (timerSiftupLoop t tmp i) := by
  fun_induction timerSiftupLoop t tmp i with
  | case1 t i hpos p hle => exact ⟨rfl, rfl, rfl⟩
  | case2 t i hpos p hlt ih => exact ⟨ih.size, ih.cap, ih.bytes⟩
  | case3 t i hnot => exact ⟨rfl, rfl, rfl⟩

theorem siftdown_slots (t : Timer) (tmp : EventPtr) (idx : ℕ) :
    SameSlots t (timerSiftdownLoop t tmp idx) := by
  fun_induction timerSiftdownLoop t tmp idx with
  | case1 t idx left right hr smaller hlt => exact ⟨rfl, rfl, rfl⟩
  | case2 t idx left right hr smaller hle ih => exact ⟨ih.size, ih.cap, ih.bytes⟩
  | case3 t idx left right hr hleft => exact ⟨rfl, rfl, rfl⟩
  | case4 t idx left right hr hleft => exact ⟨rfl, rfl, rfl⟩

theorem timerSiftup_slots (t : Timer) (i : ℕ) : SameSlots t (timerSiftup t i) :=
  siftup_slots t _ i

theorem timerSiftdown_slots (t : Timer) (i : ℕ) : SameSlots t (timerSiftdown t i) :=
  siftdown_slots t _ i

theorem dropLast_within {last : ℕ} (h : last ≤ t.size) : Within t (dropLast t last) :=
  ⟨h, rfl, rfl⟩

theorem refilled_within {last : ℕ} (i : ℕ) (h : last ≤ t.size) : Within t (refilled t i last) :=
  ⟨h, rfl, rfl⟩

theorem timerDel_within {ev : EventPtr} (h : timerDel t ev = some u) : Within t u := by
  obtain ⟨last, hs, ⟨i, rfl⟩ | rfl⟩ := timerDel_cases h
  · have hup := (refilled_within i (show last ≤ t.size by omega)).trans
      (timerSiftup_slots _ i).within
    exact hup.trans (timerSiftdown_slots _ i).within
  · exact dropLast_within (by omega)

theorem fireRoot_within (hs : 0 < t.size) : Within t (fireRoot t) := by
  obtain ⟨last, hlast⟩ : ∃ last, t.size = last + 1 := ⟨t.size - 1, by omega⟩
  have hless : last ≤ t.size := by omega
  by_cases hp : 0 < (t.event (t.heap 0)).period
  · have heq : fireRoot t = timerSiftdown (rescheduled t) 0 := if_pos hp
    have hsift := timerSiftdown_slots (rescheduled t) 0
    rw [heq]
    exact ⟨hsift.size.le, hsift.cap, hsift.bytes⟩
  · have hremoved : Within t (rootRemoved t last) := by
      unfold rootRemoved
      split
      · exact (refilled_within 0 hless).trans (timerSiftdown_slots _ 0).within
      · exact dropLast_within hless
    rw [fireRoot_oneshot_eq hlast hp]
    exact ⟨hremoved.size, hremoved.cap, hremoved.bytes⟩

theorem turn_within (t : Timer) (now : ℕ) : Within t (act t (.turn now)) := by
  cases hstep : timerUpdateStep t now with
  | none =>
    simp only [act, hstep]
    exact ⟨le_rfl, rfl, rfl⟩
  | some r =>
    obtain ⟨hs, -, -, hu⟩ := timerUpdateStep_some (f := r.1) (u := r.2) hstep
    simp only [act, hstep, hu]
    exact fireRoot_within hs

theorem timerAdd_slots (t : Timer) (ev : EventPtr) :
    (timerAdd t ev).size = t.size + 1 ∧ (timerAdd t ev).cap = (timerGrow t).cap ∧
      (timerAdd t ev).bytes = (timerGrow t).bytes := by
  have hsift := timerSiftup_slots (appended t ev) t.size
  rw [timerAdd_eq]
  refine ⟨hsift.size, hsift.cap.trans ?_, hsift.bytes.trans ?_⟩
  · unfold appended timerGrow
    split <;> rfl
  · unfold appended timerGrow
    split <;> rfl

/-- The stored entries are where they were, inside the block. -/
def GrowKeeps (t : Timer) : Prop :=
  ∀ k < t.size, (timerGrow t).heap k = t.heap k ∧ InBlock (timerGrow t) k

/-- `timer_add` keeps a block that fits exactly if it does not grow it. -/
theorem add_fits_iff (h : Fits t) (ev : EventPtr) :
    GrowKeeps t ∧ Fits (timerAdd t ev) ↔ t.size < t.cap := by
  obtain ⟨hsize, hcap, hbytes⟩ := timerAdd_slots t ev
  have hfit := h.size
  have hroom := h.room
  constructor
  · rintro ⟨-, hfits⟩
    by_contra hfull
    have hgrown : timerGrow t = { t with cap := t.cap * 2, bytes := t.cap * 2 } :=
      if_pos (not_lt.mp hfull)
    have hroom' := hfits.room
    have hsize' := hfits.size
    rw [hcap, hbytes, hgrown] at hroom'
    rw [hcap, hsize, hgrown] at hsize'
    dsimp only [sizeofPtr] at hroom' hsize'
    omega
  · intro hlt
    have hgrown : timerGrow t = t := if_neg (not_le.mpr hlt)
    rw [GrowKeeps, fits_iff, hcap, hbytes, hsize, hgrown]
    exact ⟨fun k hk => ⟨rfl, h.slots k hk⟩, hroom, hlt⟩

/-- What a call keeps of the entries. -/
def Keeps (t : Timer) : Action → Prop
  | .add ev when period => GrowKeeps (withEvent t ev when period)
  | _ => True

/-- `timer_add` is given a timer with a slot to spare. -/
def SlotToSpare (t : Timer) : Action → Prop
  | .add _ _ _ => t.size < t.cap
  | _ => True

instance (t : Timer) (a : Action) : Decidable (SlotToSpare t a) := by
  cases a <;> simp only [SlotToSpare] <;> infer_instance

instance (t : Timer) (a : Action) : Decidable ((timerCalls.when SlotToSpare).enabled t a) :=
  inferInstanceAs (Decidable (Permitted t a ∧ SlotToSpare t a))

theorem act_fits_iff (t : Timer) (a : Action) (h : Fits t) (ha : Permitted t a) :
    Keeps t a ∧ Fits (act t a) ↔ SlotToSpare t a := by
  cases a with
  | add ev when period =>
    have hevent : Fits (withEvent t ev when period) := ⟨h.room, h.size, h.slots⟩
    exact add_fits_iff hevent ev
  | del ev =>
    obtain ⟨u, hu⟩ := Option.isSome_iff_exists.mp ha
    refine iff_of_true ⟨trivial, ?_⟩ trivial
    rw [act, hu]
    exact (timerDel_within hu).fits h
  | turn now => exact iff_of_true ⟨trivial, (turn_within t now).fits h⟩ trivial

theorem timerInit_fits (event : EventPtr → TimerEvent) : Fits (timerInit event) :=
  fits_iff.mpr ⟨le_rfl, Nat.zero_le 32⟩

/-- From `timer_init` on the block fits the heap in every state, and keeps the entries in every
growth, exactly if no `timer_add` is called with all `cap` slots in use. -/
theorem timer_fits_iff (event : EventPtr → TimerEvent) (calls : List Action)
    (hvalid : ValidTrace timerCalls (timerInit event) calls) :
    Throughout timerCalls Fits Keeps (timerInit event) calls ↔
      ValidTrace (timerCalls.when SlotToSpare) (timerInit event) calls :=
  throughout_iff act_fits_iff (timerInit_fits event) hvalid

/-- Three timers, of which one is deleted and one fires. -/
def sampleCalls : List Action :=
  [.add 1 56 0, .add 2 37 5, .add 3 31 0, .del 1, .turn 40, .turn 40, .add 4 50 0]

theorem timer_fits_iff_sampleCalls :
    Throughout timerCalls Fits Keeps (timerInit fun _ => ⟨0, 0, 0⟩) sampleCalls :=
  (timer_fits_iff (fun _ => ⟨0, 0, 0⟩) sampleCalls (by decide +kernel)).mpr (by decide +kernel)

/-- One timer more than `timer_init` makes room for. -/
def manyCalls : List Action := (List.range' 1 33).map fun ev => .add ev ev 0

def overfullTimer : Timer := runTrace timerCalls (timerInit fun _ => ⟨0, 0, 0⟩) manyCalls

/-- The block of 32 pointers has shrunk to 64 bytes. -/
theorem thirty_third_timer : ValidTrace timerCalls (timerInit fun _ => ⟨0, 0, 0⟩) manyCalls ∧
    overfullTimer.size = 33 ∧ overfullTimer.cap = 64 ∧ overfullTimer.bytes = 64 ∧
    ¬ Fits overfullTimer := by
  have hroom : ¬ overfullTimer.cap * sizeofPtr ≤ overfullTimer.bytes := by decide +kernel
  exact ⟨by decide +kernel, by decide +kernel, by decide +kernel, by decide +kernel,
    fun h => hroom h.room⟩

end TimerAllocation
