import Grt.LtaskMutualExclusion

/-! The assertions of `schedule_grabtask` and `schedule_releasetask`. A task that somebody runs
is running or blocked, and one that was popped is ready, as long as senders only wake tasks
whose slice is over; a wake-up before `schedule_releasetask` makes its assertion fail. -/
namespace LtaskAsserts

open LtaskQueue RefCountedMap LtaskSchedule LtaskInterleaving LtaskTokens LtaskMutualExclusion
  TransitionSystem

/-- A task is not ready while somebody runs it. -/
def SliceStatus (s : State) : Prop :=
  ∀ a t st, At s (.run a) t → s.status t = some st → st = .running ∨ st = .blocked

variable {threads : ℕ} {s s' : State} {e : Event} {a : Agent} {p : Pc} {id : TaskId}

theorem initial_sliceStatus : SliceStatus (initial threads) := fun a t st _ h => by cases h

theorem withTask_runs {t : TaskId} {k : Task → State} (hold : runs (s.pc a) ≠ some id)
    (h : ∀ r, runs ((k r).pc a) ≠ some id) : runs ((s.withTask t k).pc a) ≠ some id :=
  withTask_cases (P := fun u => runs (u.pc a) ≠ some id) hold fun r _ => h r

/-- An agent that carries a task runs it next only from the store of `TASK_RUNNING`. -/
theorem carried_runs (hpc : s.pc a = p) (hcarry : carries p = some id) (hold : runs p ≠ some id)
    (hruns : runs ((agentStep s a p).pc a) = some id) : p = .grabRun id := by
  have hkept : runs (s.pc a) ≠ some id := hpc ▸ hold
  have goes : ∀ (sched : Schedule) {p : Pc}, runs p ≠ some id →
      runs (((s.put sched).goto a p).pc a) ≠ some id := fun _ _ hp => by rwa [goto_pc]
  cases p with
  | grabRun x => rw [Option.some.inj hcarry]
  | grab x =>
    refine absurd hruns ?_
    simp only [agentStep]
    split
    · exact goes _ fun h => by cases h
    · exact goes s.toSchedule fun h => by cases h
  | grabAssert x =>
    refine absurd hruns (withTask_runs hkept fun r => ?_)
    split
    · exact hkept
    · exact goes s.toSchedule fun h => by cases h
  | relPush x => exact absurd hruns (withTask_runs hkept fun r => goes _ fun h => by cases h)
  | call t pc =>
    cases pc with
    | wakePush c x => exact absurd hruns (withTask_runs hkept fun r => goes _ hold)
    | openCas x =>
      refine absurd hruns (withTask_runs hkept fun r => ?_)
      split
      · exact goes _ hold
      · exact goes s.toSchedule hold
    | openPush x => exact absurd hruns (withTask_runs hkept fun r => goes _ hold)
    | _ => cases hcarry
  | _ => cases hcarry

/-- The store of `TASK_RUNNING`. -/
theorem grabRun_status {st : TaskStatus} (hst : (agentStep s a (.grabRun id)).status id = some st)
    (hlive : (s.status id).isSome) : st = .running := by
  obtain ⟨st₀, hst₀⟩ := Option.isSome_iff_exists.mp hlive
  obtain ⟨r, hr, -⟩ := Option.map_eq_some_iff.mp hst₀
  have hfind : s.task.find id = some r.1 := by simp [RefMap.find, hr]
  simp only [agentStep, State.withTask, hfind, State.goto, State.put, status_setRunning] at hst
  rcases setStatus_cases s.toSchedule hst with ⟨-, hne⟩ | ⟨-, h⟩
  · exact absurd rfl hne
  · exact h

theorem start_sliceStatus (h : Exclusive s) (hr : SliceStatus s) (here : At s (.carry a) id)
    (hlive : (s.status id).isSome)
    (places : ∀ l t, At (agentStep s a (s.pc a)) l t →
      At s l t ∧ l ≠ .carry a ∨ l = .run a ∧ t = id)
    (statuses : ∀ i st, (agentStep s a (s.pc a)).status i = some st →
      s.status i = some st ∨ i = id ∧ st = .running) :
    SliceStatus (agentStep s a (s.pc a)) := by
  intro b t st hl hst
  rcases places _ t hl with ⟨hs, -⟩ | ⟨hb, rfl⟩
  · rcases statuses t st hst with hold | ⟨-, rfl⟩
    · exact hr b t st hs hold
    · exact Or.inl rfl
  · obtain rfl : b = a := Loc.run.inj hb
    have hnot : runs (s.pc b) ≠ some t := fun hrun => by
      cases h.unique (.run b) (.carry b) t hrun here
    have hp := carried_runs rfl here hnot hl
    rw [hp] at hst
    exact Or.inl (grabRun_status hst hlive)

theorem next_sliceStatus (h : Exclusive s) (hr : SliceStatus s) (hth : 0 < s.threads)
    (hout : ∀ b, b ∉ agents s.threads → s.pc b = .idle) (he : Enabled s e)
    (hsafe : AfterSlice s e) : SliceStatus (next s e) := by
  have hstep := next_tokens hth he
  generalize hs' : next s e = s' at hstep
  cases hstep with
  | keep places _ statuses =>
    exact fun b t st hl hst => hr b t st (places _ t hl) (statuses t st hst)
  | block a x _ _ places _ statuses =>
    intro b t st hl hst
    rcases statuses t st hst with hold | ⟨-, rfl⟩
    · exact hr b t st (places _ t hl) hold
    · exact Or.inr rfl
  | take a i id _ _ _ places statuses =>
    intro b t st hl hst
    rcases places _ t hl with hs | ⟨hb, -⟩
    · exact hr b t st hs (statuses t st hst)
    · cases hb
  | start a id here live _ places statuses =>
    subst hs'
    exact start_sliceStatus h hr here live places statuses
  | wake a x c id pc blocked _ places statuses =>
    intro b t st hl hst
    rcases places _ t hl with hs | ⟨hb, -⟩
    · rcases statuses t st hst with ⟨hold, -⟩ | ⟨rfl, -⟩
      · exact hr b t st hs hold
      · exact absurd hs (h.wakes_nowhere hout pc blocked hsafe _)
    · cases hb
  | back a x pc _ _ places statuses =>
    intro b t st hl hst
    have here : At s (.run a) x := by simp [At, pc, runs]
    rcases places _ t hl with ⟨hs, hne⟩ | ⟨hb, -⟩
    · rcases statuses t st hst with ⟨hold, -⟩ | ⟨rfl, -⟩
      · exact hr b t st hs hold
      · exact absurd (h.unique _ _ t hs here) hne
    · cases hb
  | opens a x id _ init _ places statuses =>
    intro b t st hl hst
    rcases statuses t st hst with ⟨hold, -⟩ | ⟨rfl, -⟩
    · exact hr b t st (places _ t hl) hold
    · rcases hr b t _ (places _ t hl) init with hx | hx
      · cases hx
      · cases hx
  | push a i id _ _ _ places statuses =>
    intro b t st hl hst
    rcases places _ t hl with ⟨hs, -⟩ | ⟨hb, -⟩
    · exact hr b t st hs (statuses t st hst)
    · cases hb
  | issue a x ud c id _ positive places statuses =>
    intro b t st hl hst
    rcases places _ t hl with hs | ⟨hb, -⟩
    · rcases statuses t st hst with hold | ⟨rfl, -⟩
      · exact hr b t st hs hold
      · exact absurd hs (h.fresh_nowhere hsafe positive _)
    · cases hb

theorem reachable_sliceStatus (h : Reachable ((ltaskSystem threads).when AfterSlice) s) :
    SliceStatus s := by
  apply h.invariant
  · rintro s ⟨-, rfl⟩
    exact initial_sliceStatus
  · intro s e hr ih he
    obtain ⟨hpos, hth⟩ := reachable_threads hr.of_when
    exact next_sliceStatus (reachable_exclusive hr) ih (hth ▸ hpos)
      (fun b => reachable_outside hr.of_when) he.1 he.2

/-- The task that `schedule_grabtask` popped is not running when it looks at its status, and
the one that `schedule_releasetask` was given is not ready. -/
theorem asserts_hold (h : Reachable ((ltaskSystem threads).when AfterSlice) s) :
    (∀ a id, s.pc a = .grabAssert id → s.status id ≠ some .running) ∧
      ∀ a t, s.pc a = .relAssert t → s.status t ≠ some .ready := by
  constructor
  · intro a id hpc hst
    have here : At s (.carry a) id := by simp [At, hpc, carries]
    rcases (reachable_exclusive h).pending _ id _ here hst with ⟨b, hb⟩ | hx | hx
    · cases hb
    · cases hx
    · cases hx
  · intro a t hpc hst
    have here : At s (.run a) t := by simp [At, hpc, runs]
    rcases reachable_sliceStatus h a t _ here hst with hx | hx
    · cases hx
    · cases hx

/-- Task 1 blocks on channel 1 and ends its slice, and task 2 on the other worker has woken it;
then both workers are at their assertions. -/
def releasedTrace : List Event :=
  [.call .main 0 (.newchannel 1)] ++ mainOpens 101 0 1 ++ mainOpens 102 1 2 ++ [.run] ++
    steps (.worker 0) 5 ++ [.call (.worker 0) 1 (.select [1])] ++ steps (.worker 0) 11 ++
    [.yield (.worker 0) 1] ++ steps (.worker 0) 4 ++
    steps (.worker 1) 5 ++ [.call (.worker 1) 2 (.send 1 9)] ++ steps (.worker 1) 10 ++
    [.yield (.worker 1) 2] ++ steps (.worker 1) 1 ++ steps (.worker 0) 2

def releasedRun : State := runTrace ((ltaskSystem 2).when AfterSlice) (initial 2) releasedTrace

theorem asserts_hold_releasedRun :
    (releasedRun.pc (.worker 0) = .grabAssert 1 ∧ releasedRun.status 1 ≠ some .running) ∧
      releasedRun.pc (.worker 1) = .relAssert 2 ∧ releasedRun.status 2 ≠ some .ready :=
  have hgrab : releasedRun.pc (.worker 0) = .grabAssert 1 := by decide +kernel
  have hrel : releasedRun.pc (.worker 1) = .relAssert 2 := by decide +kernel
  have hreach : Reachable ((ltaskSystem 2).when AfterSlice) releasedRun :=
    .run (.start ⟨by decide, rfl⟩) (by decide +kernel)
  have h := asserts_hold hreach
  ⟨⟨hgrab, h.1 (.worker 0) 1 hgrab⟩, hrel, h.2 (.worker 1) 2 hrel⟩

/-- Whose last call in its slice was a select that returned no channel. -/
def answeredNone (m : Agent → Bool) (s : State) : Event → Agent → Bool
  | .step a =>
    match s.pc a with
    | .call _ (.selectRelease _) => Function.update m a true
    | .call t (.selectGrab _) => if (s.task t).isSome then m else Function.update m a true
    | _ => m
  | .yield a _ => Function.update m a false
  | _ => m

/-- A task that got no channel yields before it does anything else. -/
def Yields (m : Agent → Bool) : Event → Prop
  | .call a _ _ | .finish a _ => m a = false
  | _ => True

instance (m : Agent → Bool) (e : Event) : Decidable (Yields m e) :=
  match e with
  | .call a _ _ | .finish a _ => inferInstanceAs (Decidable (m a = false))
  | .step _ | .issue .. | .yield .. | .run => isTrue trivial

def yieldingSystem (threads : ℕ) : System (State × (Agent → Bool)) Event :=
  (ltaskSystem threads).monitor (fun _ => false) answeredNone Yields

instance (threads : ℕ) (p : State × (Agent → Bool)) (e : Event) :
    Decidable ((yieldingSystem threads).enabled p e) :=
  inferInstanceAs (Decidable (Enabled p.1 e ∧ Yields p.2 e))

/-- The sender wakes the task before its worker has released it. -/
def wokenRun : State × (Agent → Bool) :=
  runTrace (yieldingSystem 2) (initial 2, fun _ => false)
    ([.call .main 0 (.newchannel 1)] ++ mainOpens 101 0 1 ++ mainOpens 102 1 2 ++ [.run] ++
      steps (.worker 0) 5 ++ [.call (.worker 0) 1 (.select [1])] ++ steps (.worker 0) 11 ++
      [.yield (.worker 0) 1] ++ steps (.worker 1) 5 ++ [.call (.worker 1) 2 (.send 1 9)] ++
      steps (.worker 1) 10 ++ steps (.worker 0) 1)

theorem releasetask_finds_ready :
    Reachable (yieldingSystem 2) wokenRun ∧ wokenRun.1.pc (.worker 0) = .relAssert 1 ∧
      wokenRun.1.status 1 = some .ready ∧ (next wokenRun.1 (.step (.worker 0))).aborted = true :=
  ⟨.run (.start ⟨⟨by decide, rfl⟩, rfl⟩) (by decide +kernel), by decide +kernel,
    by decide +kernel, by decide +kernel⟩

end LtaskAsserts
