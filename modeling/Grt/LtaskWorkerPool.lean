import Mathlib.Logic.Function.Basic
import Mathlib.Tactic.Common
import Grt.LtaskQueue
import Grt.TransitionSystem

/-! The worker pool of `worker_func`: every worker scans the ready queues, runs a slice, looks
at the other workers' `suspend` flags, and goes to wait when a scan found nothing. Flags are
read and set without a lock, so wake-ups get lost; a worker that pushes scans again later. -/
namespace LtaskWorkerPool

open LtaskQueue TransitionSystem

/-- Where a worker is in `worker_func`, `run_slice` and `schedule_grabtask`. In `scan i` its
next `queue_pop` is on the queue `i` places after its own. -/
inductive Pc where
  | clearing
  | scan (i : ℕ)
  | found (id : ℕ)
  | slice
  | check (i : ℕ)
  | trigger (i : ℕ)
  | suspending
  | waiting
  deriving DecidableEq

structure State where
  q : ℕ → Queue ℕ
  pc : ℕ → Pc
  suspend : ℕ → Bool
  flag : ℕ → Bool

inductive Event where
  | clear (w : ℕ)
  | pop (w i : ℕ)
  | gone (w id : ℕ)
  | run (w id : ℕ)
  | push (w t id : ℕ)
  | ret (w : ℕ)
  | check (w i : ℕ)
  | trigger (w i : ℕ)
  | suspend (w : ℕ)
  | wake (w : ℕ)
  deriving DecidableEq

def Enabled (threads : ℕ) (s : State) : Event → Prop
  | .clear w => w < threads ∧ s.pc w = .clearing
  | .pop w i => w < threads ∧ s.pc w = .scan i
  | .gone w id => w < threads ∧ s.pc w = .found id
  | .run w id => w < threads ∧ s.pc w = .found id
  | .push w t id => w < threads ∧ s.pc w = .slice ∧ t < threads ∧ id ≠ 0
  | .ret w => w < threads ∧ s.pc w = .slice
  | .check w i => w < threads ∧ s.pc w = .check i
  | .trigger w i => w < threads ∧ s.pc w = .trigger i
  | .suspend w => w < threads ∧ s.pc w = .suspending
  | .wake w => w < threads ∧ s.pc w = .waiting ∧ s.flag w = true

instance (threads : ℕ) (s : State) (e : Event) : Decidable (Enabled threads s e) := by
  cases e <;> simp only [Enabled] <;> infer_instance

def State.goto (s : State) (w : ℕ) (pc : Pc) : State :=
  { s with pc := Function.update s.pc w pc }

/-- The queue the `i`-th `queue_pop` of a scan by worker `w` is on. -/
def scanned (threads w i : ℕ) : ℕ := (w + i) % threads

/-- A popped id whose task is gone starts the scan again (`gone`), otherwise the slice runs.
`run_slice` returns 0 after the last empty queue and 1 after a slice. -/
def next (threads : ℕ) (s : State) : Event → State
  | .clear w => { s.goto w (.scan 0) with suspend := Function.update s.suspend w false }
  | .pop w i =>
    match (s.q (scanned threads w i)).pop with
    | some (id, q) =>
      { s.goto w (.found id) with q := Function.update s.q (scanned threads w i) q }
    | none => s.goto w (if i + 1 < threads then .scan (i + 1) else .suspending)
  | .gone w _ => s.goto w (.scan 0)
  | .run w _ => s.goto w .slice
  | .push _ t id => { s with q := Function.update s.q t ((s.q t).push id) }
  | .ret w => s.goto w (.check 0)
  | .check w i =>
    s.goto w (if i < threads then if s.suspend i then .trigger i else .check (i + 1) else .scan 0)
  | .trigger w i => { s.goto w (.check (i + 1)) with flag := Function.update s.flag i true }
  | .suspend w => { s.goto w .waiting with suspend := Function.update s.suspend w true }
  | .wake w => { s.goto w .clearing with flag := Function.update s.flag w false }

/-- Tasks may have been made ready before the workers start. -/
def poolSystem (threads : ℕ) : System State Event where
  start s := (∀ w, s.pc w = .clearing) ∧ (∀ w, s.suspend w = false) ∧ ∀ w, s.flag w = false
  enabled := Enabled threads
  next := next threads

instance (threads : ℕ) (s : State) (e : Event) : Decidable ((poolSystem threads).enabled s e) :=
  inferInstanceAs (Decidable (Enabled threads s e))

/-- All workers wait and none has been triggered. -/
def Asleep (threads : ℕ) (s : State) : Prop :=
  ∀ w < threads, s.pc w = .waiting ∧ s.flag w = false

/-- A worker at `pc` looks at queue `t` before it may wait without having been triggered. -/
def Covers (threads w t : ℕ) (flag : Bool) : Pc → Prop
  | .scan i => ∃ j, i ≤ j ∧ j < threads ∧ scanned threads w j = t
  | .suspending => False
  | .waiting => flag = true
  | _ => True

def Invariant (threads : ℕ) (s : State) : Prop :=
  ∀ t < threads, (s.q t).contents ≠ [] → ∃ w < threads, Covers threads w t (s.flag w) (s.pc w)

variable {threads : ℕ} {s : State} {w t : ℕ}

/-- A scan from its start passes every queue. -/
theorem scan_covers (hw : w < threads) (ht : t < threads) (b : Bool) :
    Covers threads w t b (.scan 0) := by
  by_cases h : w ≤ t
  · refine ⟨t - w, Nat.zero_le _, by omega, ?_⟩
    rw [scanned, Nat.add_sub_cancel' h, Nat.mod_eq_of_lt ht]
  · refine ⟨t + threads - w, Nat.zero_le _, by omega, ?_⟩
    have hsum : w + (t + threads - w) = t + threads := by omega
    rw [scanned, hsum, Nat.add_mod_right, Nat.mod_eq_of_lt ht]

/-- An empty queue that the scan passes was no reason to go on. -/
theorem scan_next_covers {i : ℕ} {b : Bool} (h : Covers threads w t b (.scan i))
    (hne : scanned threads w i ≠ t) :
    Covers threads w t b (if i + 1 < threads then .scan (i + 1) else .suspending) := by
  obtain ⟨j, hij, hj, hjt⟩ := h
  have hlt : i < j := lt_of_le_of_ne hij fun he => hne (he ▸ hjt)
  rw [if_pos (by omega)]
  exact ⟨j, hlt, hj, hjt⟩

/-- A worker that moves does not change what another one will still look at. -/
theorem goto_covers {pc : Pc}
    (hstep : Covers threads w t (s.flag w) (s.pc w) → Covers threads w t (s.flag w) pc)
    (h : ∃ v < threads, Covers threads v t (s.flag v) (s.pc v)) :
    ∃ v < threads, Covers threads v t (s.flag v) ((s.goto w pc).pc v) := by
  obtain ⟨v, hv, hcov⟩ := h
  refine ⟨v, hv, ?_⟩
  by_cases hvw : v = w
  · subst hvw
    simpa [State.goto] using hstep hcov
  · simpa [State.goto, hvw] using hcov

theorem step_preserves_invariant (h : Invariant threads s) {e : Event}
    (he : Enabled threads s e) : Invariant threads (next threads s e) := by
  intro t ht hne
  cases e with
  | clear w =>
    refine ⟨w, he.1, ?_⟩
    simpa [next, State.goto] using scan_covers he.1 ht (s.flag w)
  | pop w i =>
    rcases pop_cases (s.q (scanned threads w i)) with ⟨hpop, hempty⟩ | ⟨id, q, hpop, -⟩
    · simp only [next, hpop] at hne ⊢
      have hother : scanned threads w i ≠ t := fun heq => hne (heq ▸ hempty)
      refine goto_covers (fun hcov => ?_) (h t ht hne)
      rw [he.2] at hcov
      exact scan_next_covers hcov hother
    · refine ⟨w, he.1, ?_⟩
      simp [next, hpop, State.goto, Covers]
  | gone w id =>
    refine ⟨w, he.1, ?_⟩
    simpa [next, State.goto] using scan_covers he.1 ht (s.flag w)
  | run w id => exact ⟨w, he.1, by simp [next, State.goto, Covers]⟩
  | push w u id => exact ⟨w, he.1, by simp [next, he.2.1, Covers]⟩
  | ret w => exact ⟨w, he.1, by simp [next, State.goto, Covers]⟩
  | check w i =>
    refine ⟨w, he.1, ?_⟩
    simp only [next, State.goto, Function.update_self]
    split
    · split <;> trivial
    · exact scan_covers he.1 ht (s.flag w)
  | trigger w i => exact ⟨w, he.1, by simp [next, State.goto, Covers]⟩
  | suspend w =>
    refine goto_covers (fun hcov => ?_) (h t ht hne)
    rw [he.2] at hcov
    exact hcov.elim
  | wake w => exact ⟨w, he.1, by simp [next, State.goto, Covers]⟩

theorem reachable_invariant (h : Reachable (poolSystem threads) s) : Invariant threads s := by
  apply h.invariant
  · intro u hu t ht _
    exact ⟨t, ht, by rw [hu.1]; trivial⟩
  · intro u e _ hi he
    exact step_preserves_invariant hi he

/-- The pool never goes to sleep on work: with all workers waiting and no event set, no ready
queue holds a task. -/
theorem worker_pool_awake (h : Reachable (poolSystem threads) s) :
    ¬ (Asleep threads s ∧ ∃ t < threads, (s.q t).contents ≠ []) := by
  rintro ⟨hall, t, ht, hne⟩
  obtain ⟨w, hw, hcov⟩ := reachable_invariant h t ht hne
  obtain ⟨hpc, hflag⟩ := hall w hw
  rw [hpc, hflag] at hcov
  cases hcov

/-- Two workers: the first runs a task and pushes one, the second waits meanwhile. -/
def sampleRun : State :=
  runTrace (poolSystem 2)
    ⟨fun _ => Queue.create.push 7, fun _ => .clearing, fun _ => false, fun _ => false⟩
    [.clear 0, .pop 0 0, .clear 1, .run 0 7, .pop 1 0, .gone 1 7, .pop 1 0, .pop 1 1,
      .suspend 1, .push 0 1 8]

theorem worker_pool_awake_sampleRun :
    ¬ (Asleep 2 sampleRun ∧ ∃ t < 2, (sampleRun.q t).contents ≠ []) :=
  worker_pool_awake (.run (.start ⟨fun _ => rfl, fun _ => rfl, fun _ => rfl⟩) (by decide))

end LtaskWorkerPool
