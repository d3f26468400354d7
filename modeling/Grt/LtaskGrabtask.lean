import Mathlib.Data.Nat.ModEq
import Grt.LtaskReferences

/-! `schedule_grabtask` as work stealing: the queues are looked at in turn from the worker's
own, ids of tasks that are gone are dropped, and the first live task is taken. -/
namespace LtaskGrabtask

open LtaskQueue RefCountedMap LtaskSchedule LtaskReferences TransitionSystem

variable {s s' : Schedule} {t id : TaskId} {ud : Ptr} {thread j k : ℕ}

/-- The queue that the worker looks at in place `k`. -/
def turn (s : Schedule) (thread k : ℕ) : ℕ := (thread + k) % s.threads

theorem turn_inj (hj : j < s.threads) (hk : k < s.threads)
    (h : turn s thread j = turn s thread k) : j = k := by
  have hmod : j ≡ k [MOD s.threads] := Nat.ModEq.add_left_cancel' thread h
  rwa [Nat.ModEq, Nat.mod_eq_of_lt hj, Nat.mod_eq_of_lt hk] at hmod

/-- Every queue has its turn. -/
theorem turn_surj (hth : thread < s.threads) {i : ℕ} (hi : i < s.threads) :
    ∃ k < s.threads, turn s thread k = i := by
  by_cases h : thread ≤ i
  · refine ⟨i - thread, by omega, ?_⟩
    rw [turn, Nat.add_sub_cancel' h, Nat.mod_eq_of_lt hi]
  · refine ⟨i + s.threads - thread, by omega, ?_⟩
    rw [turn, show thread + (i + s.threads - thread) = i + s.threads by omega,
      Nat.add_mod_right, Nat.mod_eq_of_lt hi]

/-- The scan passes empty queues and pops the first that is not. -/
theorem popReady_scan (hk : k ≤ s.threads) :
    (popReady s thread k = none ∧
      ∀ j, s.threads - k ≤ j → j < s.threads → (s.q (turn s thread j)).contents = []) ∨
    ∃ id j q, s.threads - k ≤ j ∧ j < s.threads ∧
      popReady s thread k = some (id, { s with q := Function.update s.q (turn s thread j) q }) ∧
      (s.q (turn s thread j)).contents = id :: q.contents ∧
      ∀ i, s.threads - k ≤ i → i < j → (s.q (turn s thread i)).contents = [] := by
  induction k with
  | zero => exact Or.inl ⟨rfl, fun j h₁ h₂ => by omega⟩
  | succ k ih =>
    have hturn : (thread + (s.threads - (k + 1))) % s.threads =
      turn s thread (s.threads - (k + 1)) := rfl
    simp only [popReady, hturn]
    rcases pop_cases (s.q (turn s thread (s.threads - (k + 1)))) with
      ⟨hpop, hempty⟩ | ⟨id, q, hpop, hcons⟩
    · rw [hpop]
      have hfirst : ∀ i, s.threads - (k + 1) ≤ i →
          i = s.threads - (k + 1) ∨ s.threads - k ≤ i := by omega
      rcases ih (by omega) with ⟨hnone, hrest⟩ | ⟨id, j, q, hj, hjlt, hsome, hcons, hrest⟩
      · refine Or.inl ⟨hnone, fun i hi hlt => ?_⟩
        rcases hfirst i hi with rfl | hi
        · exact hempty
        · exact hrest i hi hlt
      · refine Or.inr ⟨id, j, q, by omega, hjlt, hsome, hcons, fun i hi hlt => ?_⟩
        rcases hfirst i hi with rfl | hi
        · exact hempty
        · exact hrest i hi hlt
    · rw [hpop]
      exact Or.inr ⟨id, _, q, le_rfl, by omega, rfl, hcons, fun i h₁ h₂ => by omega⟩

/-- A task was taken in place `k`: the queues before held ids of tasks that are gone and are
empty now, as are those in front of it in its own queue, and the queues after are as before. -/
structure Steals (s : Schedule) (thread : ℕ) (id : TaskId) (ud : Ptr) (s' : Schedule) (k : ℕ) :
    Prop where
  lt : k < s.threads
  passed : ∀ j < k, (∀ x ∈ (s.q (turn s thread j)).contents, s.task x = none) ∧
    (s'.q (turn s thread j)).contents = []
  taken : ∃ gone, (∀ x ∈ gone, s.task x = none) ∧
    (s.q (turn s thread k)).contents = gone ++ id :: (s'.q (turn s thread k)).contents
  ahead : ∀ j, k < j → j < s.threads → s'.q (turn s thread j) = s.q (turn s thread j)
  live : ∃ r, s.task.find id = some r ∧ r.ud = ud
  record : s'.task = s.task.modify id fun t => { t with status := .running, thread := thread }
  channel : s'.channel = s.channel
  threads : s'.threads = s.threads
  current : s'.current = s.current

/-- No task was found: the queues held ids of tasks that are gone. -/
structure Idle (s s' : Schedule) : Prop where
  gone : ∀ i < s.threads, ∀ x ∈ (s.q i).contents, s.task x = none
  empty : ∀ i < s.threads, (s'.q i).contents = []
  task : s'.task = s.task
  channel : s'.channel = s.channel
  threads : s'.threads = s.threads
  current : s'.current = s.current

section Pop

-- the first queue that is not empty, in place `j`, loses its first id `x` and is then `q`
variable {q : Queue TaskId} {x : TaskId}

theorem popped_other (thread : ℕ) (hj : j < s.threads) (hk : k < s.threads) (hne : k ≠ j) :
    Function.update s.q (turn s thread j) q (turn s thread k) = s.q (turn s thread k) :=
  Function.update_of_ne (fun h => hne (turn_inj hk hj h)) ..

/-- A task that is gone is dropped and the scan starts again. -/
theorem Steals.drop (hj : j < s.threads)
    (hcons : (s.q (turn s thread j)).contents = x :: q.contents)
    (hbefore : ∀ i < j, (s.q (turn s thread i)).contents = []) (hx : s.task x = none)
    (h : Steals { s with q := Function.update s.q (turn s thread j) q } thread id ud s' k) :
    Steals s thread id ud s' k := by
  have hself : Function.update s.q (turn s thread j) q (turn s thread j) = q :=
    Function.update_self ..
  have hkj : j ≤ k := by
    by_contra hlt
    obtain ⟨gone, -, htaken⟩ := h.taken
    have hsame := popped_other (q := q) thread hj h.lt (show k ≠ j by omega)
    have hnil := hbefore k (by omega)
    rw [← hsame] at hnil
    rw [show (Function.update s.q (turn s thread j) q (turn s thread k)).contents = _
      from htaken] at hnil
    simp at hnil
  refine ⟨h.lt, fun i hi => ⟨?_, (h.passed i hi).2⟩, ?_, fun i hi hlt => ?_, h.live, h.record,
    h.channel, h.threads, h.current⟩
  · have hgone := (h.passed i hi).1
    by_cases hij : i = j
    · subst hij
      change ∀ y ∈ (Function.update s.q (turn s thread i) q (turn s thread i)).contents, _ at hgone
      rw [hself] at hgone
      rw [hcons]
      intro y hy
      rcases List.mem_cons.mp hy with rfl | hy
      · exact hx
      · exact hgone y hy
    · have hsame := popped_other (q := q) thread hj (hi.trans h.lt) hij
      rw [← hsame]
      exact hgone
  · obtain ⟨gone, hgone, htaken⟩ := h.taken
    by_cases hkj' : k = j
    · subst hkj'
      refine ⟨x :: gone, fun y hy => ?_, ?_⟩
      · rcases List.mem_cons.mp hy with rfl | hy
        · exact hx
        · exact hgone y hy
      · change (Function.update s.q (turn s thread k) q (turn s thread k)).contents = _ at htaken
        rw [hself] at htaken
        rw [hcons, htaken]
        rfl
    · refine ⟨gone, hgone, ?_⟩
      rw [← popped_other (q := q) thread hj h.lt hkj']
      exact htaken
  · rw [← popped_other (q := q) thread hj hlt (by omega)]
    exact h.ahead i hi hlt

theorem Idle.drop {i : ℕ} (hcons : (s.q i).contents = x :: q.contents) (hx : s.task x = none)
    (h : Idle { s with q := Function.update s.q i q } s') : Idle s s' := by
  refine ⟨fun l hl y hy => ?_, h.empty, h.task, h.channel, h.threads, h.current⟩
  have hgone := h.gone l hl y
  by_cases hli : l = i
  · subst hli
    rw [hcons] at hy
    rcases List.mem_cons.mp hy with rfl | hy
    · exact hx
    · apply hgone
      simpa using hy
  · apply hgone
    simpa [hli] using hy

/-- The first live task is taken where it was found. -/
theorem steals_popped {r : Task} (hj : j < s.threads)
    (hcons : (s.q (turn s thread j)).contents = x :: q.contents)
    (hbefore : ∀ i < j, (s.q (turn s thread i)).contents = []) (hr : s.task.find x = some r) :
    Steals s thread x r.ud
      (({ s with q := Function.update s.q (turn s thread j) q } : Schedule).setRunning x thread)
      j := by
  refine ⟨hj, fun i hi => ?_, ⟨[], fun y hy => absurd hy List.not_mem_nil, ?_⟩,
    fun i hi hlt => ?_, ⟨r, hr, rfl⟩, rfl, rfl, rfl, rfl⟩
  · refine ⟨fun y hy => ?_, ?_⟩
    · rw [hbefore i hi] at hy
      exact absurd hy List.not_mem_nil
    · change (Function.update s.q (turn s thread j) q (turn s thread i)).contents = []
      rw [popped_other (q := q) thread hj (hi.trans hj) hi.ne]
      exact hbefore i hi
  · change _ = x :: (Function.update s.q (turn s thread j) q (turn s thread j)).contents
    rw [Function.update_self, hcons]
  · exact popped_other thread hj hlt hi.ne'

end Pop

/-- No queued task runs. -/
def NoneRunning (s : Schedule) : Prop :=
  ∀ i < s.threads, ∀ x ∈ (s.q i).contents, s.status x ≠ some .running

theorem NoneRunning.pop (h : NoneRunning s) {i : ℕ} {x : TaskId} {q : Queue TaskId}
    (hcons : (s.q i).contents = x :: q.contents) :
    NoneRunning { s with q := Function.update s.q i q } := by
  intro l hl y hy
  by_cases hli : l = i
  · subst hli
    apply h l hl y
    rw [hcons]
    apply List.mem_cons_of_mem
    simpa using hy
  · apply h l hl y
    simpa [hli] using hy

/-- Each turn pops an id; the fuel bounds the turns by the number of ids in the queues. -/
theorem grabLoop_steals {fuel : ℕ} (hp : Positive s) (hth : thread < s.threads)
    (hfuel : readyCount s < fuel) (hrun : NoneRunning s) :
    (∃ s', grabLoop thread fuel s = some (none, s') ∧ Idle s s') ∨
      ∃ id ud s' k, grabLoop thread fuel s = some (some (id, ud), s') ∧
        Steals s thread id ud s' k := by
  induction fuel generalizing s with
  | zero => exact absurd hfuel (Nat.not_lt_zero _)
  | succ fuel ih =>
    simp only [grabLoop]
    rcases @popReady_scan s thread s.threads le_rfl with
      ⟨hnone, hempty⟩ | ⟨id, j, q, -, hj, hpop, hcons, hbefore⟩
    · left
      have hall : ∀ i < s.threads, (s.q i).contents = [] := by
        intro i hi
        obtain ⟨k, hk, rfl⟩ := turn_surj hth hi
        exact hempty k (by omega) hk
      refine ⟨s, by rw [hnone], fun i hi x hx => ?_, hall, rfl, rfl, rfl, rfl⟩
      rw [hall i hi] at hx
      exact absurd hx List.not_mem_nil
    · rw [hpop]
      have hbefore : ∀ i < j, (s.q (turn s thread i)).contents = [] := fun i hi =>
        hbefore i (by omega) hi
      have hturn : turn s thread j < s.threads := Nat.mod_lt _ (by omega)
      let s₁ : Schedule := { s with q := Function.update s.q (turn s thread j) q }
      have hpopped : (s.q (turn s thread j)).contents =
          id :: (s₁.q (turn s thread j)).contents := by
        rw [hcons]
        simp [s₁]
      have hcount : readyCount s = readyCount s₁ + 1 :=
        readyCount_pop rfl hturn hpopped fun i hi => Function.update_of_ne hi ..
      have hp₁ : Positive s₁ := (borrow_queues _).positive hp
      cases hfind : s.task.find id with
      | none =>
        have hgone : s.task id = none := Option.map_eq_none_iff.mp hfind
        simp only [hfind]
        rcases ih hp₁ hth (by omega) (hrun.pop hcons) with
          ⟨s', hs', hidle⟩ | ⟨x, ud, s', k, hs', hsteals⟩
        · exact Or.inl ⟨s', hs', hidle.drop hcons hgone⟩
        · exact Or.inr ⟨x, ud, s', k, hs', hsteals.drop hj hcons hbefore hgone⟩
      | some r =>
        right
        have hst : r.status ≠ .running := by
          intro h
          have := hrun _ hturn id (by rw [hcons]; exact List.mem_cons_self)
          rw [find_status s hfind, h] at this
          exact this rfl
        have hreturn : releaseTask ((s₁.grabTask id).setRunning id thread) id =
            s₁.setRunning id thread := by
          unfold releaseTask Schedule.setRunning Schedule.grabTask
          rw [release_modify_grab _ _ (hp₁.task_count hfind)]
        refine ⟨id, r.ud, _, j, ?_, steals_popped hj hcons hbefore hfind⟩
        simp only [hfind]
        rw [if_neg hst, hreturn]

/-- `schedule_grabtask` ends for any worker and any contents of the ready queues. It finds no
task exactly if none of the queues has a live one, and else takes the first in turn. -/
theorem grabtask_complete (hp : Positive s) (hth : thread < s.threads) (hrun : NoneRunning s) :
    ∃ r s', scheduleGrabtask s thread = some (r, s') ∧
      (r = none ↔ ¬ ∃ i < s.threads, ∃ x ∈ (s.q i).contents, (s.task x).isSome) ∧
      (r = none → Idle s s') ∧ ∀ id ud, r = some (id, ud) → ∃ k, Steals s thread id ud s' k := by
  rcases grabLoop_steals hp hth (Nat.lt_succ_self _) hrun with
    ⟨s', hs', hidle⟩ | ⟨id, ud, s', k, hs', hsteals⟩
  · refine ⟨none, s', hs', ⟨fun _ => ?_, fun _ => rfl⟩, fun _ => hidle, fun id ud h => by cases h⟩
    rintro ⟨i, hi, x, hx, hlive⟩
    rw [hidle.gone i hi x hx] at hlive
    cases hlive
  · refine ⟨some (id, ud), s', hs', ⟨fun h => (by cases h), fun hno => ?_⟩,
      fun h => (by cases h), fun x u h => ?_⟩
    · obtain ⟨gone, -, htaken⟩ := hsteals.taken
      obtain ⟨r, hr, -⟩ := hsteals.live
      refine absurd ⟨turn s thread k, Nat.mod_lt _ (by omega), id, ?_, ?_⟩ hno
      · rw [htaken]
        simp
      · rw [← isSome_find, hr]
        rfl
    · cases h
      exact ⟨k, hsteals⟩

/-- Worker 0 has the id of a task that has ended, worker 1 a task that is ready. -/
def endedCalls : List Call := [.opentask 101 1, .opentask 102 2, .closetask 1]

def endedRun : Schedule :=
  (runTrace (callSystem 2) (some (scheduleCreate 2)) endedCalls).getD (scheduleCreate 2)

theorem grabtask_complete_endedRun : ∃ s' k,
    scheduleGrabtask endedRun 0 = some (some (2, 102), s') ∧ Steals endedRun 0 2 102 s' k := by
  have hrun : Reachable (callSystem 2)
      (runTrace (callSystem 2) (some (scheduleCreate 2)) endedCalls) :=
    .run (.start ⟨by decide, rfl⟩) (by decide +kernel)
  obtain ⟨r, s', h, -, -, hsteals⟩ :=
    @grabtask_complete endedRun 0 (reachable_balanced hrun).1.positive (by decide +kernel)
      (by unfold NoneRunning; decide +kernel)
  have hr : (scheduleGrabtask endedRun 0).map Prod.fst = some (some (2, 102)) := by
    decide +kernel
  rw [h] at hr
  cases hr
  obtain ⟨k, hk⟩ := hsteals 2 102 rfl
  exact ⟨s', k, h, hk⟩

end LtaskGrabtask
