import Mathlib.Algebra.BigOperators.Ring.Finset
import Mathlib.Data.Fintype.Basic
import Grt.TransitionSystem

/-! The read/write lock of `simplelock.h`. Each access to `write` or `read` is one step of a
thread, and the threads take their steps in any order. -/
namespace SimpleLock

open TransitionSystem

/-- Where a thread is. In `rwlock_rlock` it waits for `write` to be 0, increments `read`, looks
at `write` again and takes the increment back if it is set; in `rwlock_wlock` it sets `write`
and then waits for `read` to be 0. -/
inductive Pc where
  | idle
  | rwait
  | rinc
  | rcheck
  | rretract
  | reading
  | wspin
  | wdrain
  | writing
  deriving DecidableEq

structure State (ι : Type*) where
  write : ℤ
  read : ℤ
  pc : ι → Pc

variable {ι : Type*}

def rwlockInit : State ι := ⟨0, 0, fun _ => .idle⟩

variable [DecidableEq ι]

def State.goto (s : State ι) (i : ι) (pc : Pc) : State ι :=
  { s with pc := Function.update s.pc i pc }

/-- The next access of a thread; in a section it is that of `rwlock_runlock` or
`rwlock_wunlock`. -/
def threadStep (s : State ι) (i : ι) : State ι :=
  match s.pc i with
  | .idle => s
  | .rwait => if s.write ≠ 0 then s else s.goto i .rinc
  | .rinc => { s.goto i .rcheck with read := s.read + 1 }
  | .rcheck => if s.write ≠ 0 then s.goto i .rretract else s.goto i .reading
  | .rretract => { s.goto i .rwait with read := s.read - 1 }
  | .reading => { s.goto i .idle with read := s.read - 1 }
  | .wspin => if s.write ≠ 0 then { s with write := 1 } else { s.goto i .wdrain with write := 1 }
  | .wdrain => if s.read ≠ 0 then s else s.goto i .writing
  | .writing => { s.goto i .idle with write := 0 }

inductive Event (ι : Type*) where
  | rlock (i : ι)
  | wlock (i : ι)
  | step (i : ι)

def next (s : State ι) : Event ι → State ι
  | .rlock i => s.goto i .rwait
  | .wlock i => s.goto i .wspin
  | .step i => threadStep s i

def Enabled (s : State ι) : Event ι → Prop
  | .rlock i | .wlock i => s.pc i = .idle
  | .step i => s.pc i ≠ .idle

def lockSystem : System (State ι) (Event ι) where
  start s := s = rwlockInit
  enabled := Enabled
  next := next

/-- A reader that has incremented `read` and has neither entered nor taken the increment back. -/
def Pc.undecided : Pc → Bool
  | .rcheck | .rretract => true
  | _ => false

def Pc.inside : Pc → Bool
  | .reading => true
  | _ => false

/-- A writer that has set `write`. -/
def Pc.holds : Pc → Bool
  | .wdrain | .writing => true
  | _ => false

/-- A reader that `read` counts. -/
def Pc.counted (pc : Pc) : Bool := pc.inside || pc.undecided

section Count

variable [Fintype ι] {f : Pc → Bool} {pc : ι → Pc} {i j : ι}

/-- The number of threads at the places that `f` holds of. -/
def count (f : Pc → Bool) (pc : ι → Pc) : ℤ := (Finset.univ.filter fun i => f (pc i)).card

def weight (f : Pc → Bool) (p : Pc) : ℤ := if f p then 1 else 0

omit [DecidableEq ι] in
theorem count_eq_sum (f : Pc → Bool) (pc : ι → Pc) : count f pc = ∑ i, weight f (pc i) :=
  Finset.natCast_card_filter ..

/-- When one thread moves, its weight is taken at the new place instead of the old one. -/
theorem count_update (f : Pc → Bool) (pc : ι → Pc) (i : ι) (p : Pc) :
    count f (Function.update pc i p) + weight f (pc i) = count f pc + weight f p := by
  have hrest : ∑ j ∈ Finset.univ.erase i, weight f (Function.update pc i p j) =
      ∑ j ∈ Finset.univ.erase i, weight f (pc j) := by
    refine Finset.sum_congr rfl fun j hj => ?_
    rw [Function.update_of_ne (Finset.ne_of_mem_erase hj)]
  rw [count_eq_sum, count_eq_sum, ← Finset.add_sum_erase _ _ (Finset.mem_univ i), hrest,
    ← Finset.add_sum_erase _ (fun j => weight f (pc j)) (Finset.mem_univ i),
    Function.update_self]
  omega

omit [DecidableEq ι] in
theorem count_pos (h : f (pc i) = true) : 0 < count f pc :=
  Int.natCast_pos.mpr (Finset.card_pos.mpr ⟨i, Finset.mem_filter.mpr ⟨Finset.mem_univ i, h⟩⟩)

omit [DecidableEq ι] in
theorem eq_of_count_le_one (h : count f pc ≤ 1) (hi : f (pc i) = true) (hj : f (pc j) = true) :
    i = j := by
  have hcard : (Finset.univ.filter fun i => f (pc i)).card ≤ 1 := Int.ofNat_le.mp h
  exact Finset.card_le_one.mp hcard i (Finset.mem_filter.mpr ⟨Finset.mem_univ i, hi⟩) j
    (Finset.mem_filter.mpr ⟨Finset.mem_univ j, hj⟩)

end Count

variable [Fintype ι] {s : State ι} {i : ι}

/-- `write` counts the writers that hold it, one at most, and `read` the readers that have
incremented it; no reader is inside together with a writer. -/
structure Inv (s : State ι) : Prop where
  write : s.write = count Pc.holds s.pc
  one : s.write ≤ 1
  read : s.read = count Pc.counted s.pc
  apart : ∀ i j, s.pc i = .writing → s.pc j ≠ .reading

omit [DecidableEq ι] in
theorem rwlockInit_inv : Inv (rwlockInit : State ι) where
  write := by simp [rwlockInit, count, Pc.holds]
  one := by simp [rwlockInit]
  read := by simp [rwlockInit, count, Pc.counted, Pc.inside, Pc.undecided]
  apart i j h := by cases h

/-- A thread moves from `p` to `q`: the counters change by what the places weigh, and it enters
a section only where nobody is in its way. -/
theorem Inv.move (h : Inv s) {p q : Pc} {w r : ℤ} (hpc : s.pc i = p)
    (hw : w + weight Pc.holds p = s.write + weight Pc.holds q) (hone : w ≤ 1)
    (hr : r + weight Pc.counted p = s.read + weight Pc.counted q)
    (hwriting : q = .writing → ∀ j, s.pc j ≠ .reading)
    (hreading : q = .reading → ∀ j, s.pc j ≠ .writing) :
    Inv ⟨w, r, Function.update s.pc i q⟩ where
  write := by
    have hcount := count_update Pc.holds s.pc i q
    have hold := h.write
    change w = count Pc.holds (Function.update s.pc i q)
    rw [hpc] at hcount
    omega
  one := hone
  read := by
    have hcount := count_update Pc.counted s.pc i q
    have hold := h.read
    change r = count Pc.counted (Function.update s.pc i q)
    rw [hpc] at hcount
    omega
  apart j k hj hk := by
    change Function.update s.pc i q j = .writing at hj
    change Function.update s.pc i q k = .reading at hk
    rw [Function.update_apply] at hj hk
    split at hj
    · split at hk
      · cases hj.symm.trans hk
      · exact hwriting hj k hk
    · split at hk
      · exact hreading hk j hj
      · exact h.apart j k hj hk

/-- A move that changes neither counter and enters no section. -/
theorem Inv.goto (h : Inv s) {p q : Pc} (hpc : s.pc i = p) (hholds : q.holds = p.holds)
    (hcounted : q.counted = p.counted) (hq : q ≠ .writing ∧ q ≠ .reading) :
    Inv (s.goto i q) := by
  apply h.move hpc
  · rw [weight, weight, hholds]
  · exact h.one
  · rw [weight, weight, hcounted]
  · exact fun hw => absurd hw hq.1
  · exact fun hr => absurd hr hq.2

omit [DecidableEq ι] in
theorem Inv.no_writer (h : Inv s) (hfree : s.write = 0) (j : ι) : s.pc j ≠ .writing := by
  intro hj
  have hpos : 0 < count Pc.holds s.pc := count_pos (i := j) (by rw [hj]; rfl)
  have hwrite := h.write
  omega

omit [DecidableEq ι] in
theorem Inv.no_reader (h : Inv s) (hfree : s.read = 0) (j : ι) : s.pc j ≠ .reading := by
  intro hj
  have hpos : 0 < count Pc.counted s.pc := count_pos (i := j) (by rw [hj]; rfl)
  have hread := h.read
  omega

omit [DecidableEq ι] in
/-- `write` is 1 while it is set. -/
theorem Inv.write_set (h : Inv s) (hset : s.write ≠ 0) : s.write = 1 := by
  have hcount : 0 ≤ count Pc.holds s.pc := Int.natCast_nonneg _
  have hwrite := h.write
  have hone := h.one
  omega

theorem threadStep_inv (h : Inv s) (i : ι) : Inv (threadStep s i) := by
  cases hpc : s.pc i with
  | idle =>
    simp only [threadStep, hpc]
    exact h
  | rwait =>
    simp only [threadStep, hpc]
    split
    · exact h
    · exact h.goto hpc rfl rfl (by decide)
  | rinc =>
    simp only [threadStep, hpc]
    exact h.move hpc rfl h.one (Int.add_zero _) Pc.noConfusion Pc.noConfusion
  | rcheck =>
    simp only [threadStep, hpc]
    split
    · exact h.goto hpc rfl rfl (by decide)
    · rename_i hfree
      exact h.move hpc rfl h.one rfl Pc.noConfusion fun _ => h.no_writer (not_not.mp hfree)
  | rretract | reading =>
    simp only [threadStep, hpc]
    have hread : s.read - 1 + 1 = s.read + 0 := by omega
    exact h.move hpc rfl h.one hread Pc.noConfusion Pc.noConfusion
  | wspin =>
    simp only [threadStep, hpc]
    split
    · rename_i hset
      rw [← h.write_set hset]
      exact h
    · rename_i hfree
      have hwrite : (1 : ℤ) + 0 = s.write + 1 := by rw [not_not.mp hfree]; rfl
      exact h.move hpc hwrite le_rfl rfl Pc.noConfusion Pc.noConfusion
  | wdrain =>
    simp only [threadStep, hpc]
    split
    · exact h
    · rename_i hdrained
      exact h.move hpc rfl h.one rfl (fun _ => h.no_reader (not_not.mp hdrained)) Pc.noConfusion
  | writing =>
    simp only [threadStep, hpc]
    have hset : s.write = 1 := h.write_set fun hfree => h.no_writer hfree i hpc
    have hwrite : (0 : ℤ) + 1 = s.write + 0 := by rw [hset]; rfl
    exact h.move hpc hwrite (Int.zero_le_ofNat 1) rfl Pc.noConfusion Pc.noConfusion

theorem next_inv (h : Inv s) {e : Event ι} (he : Enabled s e) : Inv (next s e) := by
  cases e with
  | rlock i | wlock i => exact h.goto (p := .idle) he rfl rfl (by decide)
  | step i => exact threadStep_inv h i

theorem reachable_inv (h : Reachable lockSystem s) : Inv s := by
  apply h.invariant (I := Inv)
  · rintro t rfl
    exact rwlockInit_inv
  · intro t e _ ht he
    exact next_inv ht he

omit [DecidableEq ι] in
/-- Every reader that `read` counts is inside or undecided. -/
theorem count_counted (pc : ι → Pc) :
    count Pc.counted pc = count Pc.inside pc + count Pc.undecided pc := by
  rw [count_eq_sum, count_eq_sum, count_eq_sum, ← Finset.sum_add_distrib]
  refine Finset.sum_congr rfl fun i _ => ?_
  cases pc i <;> rfl

/-- A writer inside is alone, and `read` is the number of readers inside and undecided. -/
theorem rwlock_excludes (h : Reachable lockSystem s) :
    (∀ i j, i ≠ j → s.pc i = .writing → s.pc j ≠ .reading ∧ s.pc j ≠ .writing) ∧
    s.read = count Pc.inside s.pc + count Pc.undecided s.pc := by
  have hinv := reachable_inv h
  constructor
  · intro i j hne hi
    refine ⟨hinv.apart i j hi, fun hj => hne ?_⟩
    have hone : count Pc.holds s.pc ≤ 1 := hinv.write ▸ hinv.one
    exact eq_of_count_le_one hone (by rw [hi]; rfl) (by rw [hj]; rfl)
  · rw [hinv.read, count_counted]

instance (s : State ι) (e : Event ι) : Decidable (lockSystem.enabled s e) :=
  match e with
  | .rlock i | .wlock i => inferInstanceAs (Decidable (s.pc i = .idle))
  | .step i => inferInstanceAs (Decidable (s.pc i ≠ .idle))

/-- Thread 0 reads, thread 1 waits for it with `write` set, and thread 2 has seen that. -/
def sampleRun : State (Fin 3) :=
  runTrace lockSystem rwlockInit [.rlock 0, .step 0, .step 0, .step 0, .rlock 2, .step 2, .wlock 1,
    .step 1, .step 2, .step 2, .step 1]

theorem rwlock_excludes_sampleRun : sampleRun.pc 1 = .wdrain ∧ sampleRun.pc 2 = .rretract ∧
    sampleRun.read = 2 :=
  have h := rwlock_excludes (s := sampleRun) (.run (.start rfl) (by decide))
  ⟨by decide, by decide, h.2.trans (by decide)⟩

end SimpleLock
