import Grt.LtaskTokens

/-! A task that has ended is never grabbed again, as long as `commit_task` does not make an
ended task ready and no other place holds the task when it ends. `schedule_releasetask` after
`schedule_closetask` breaks the first part when a sender still has a reference to the task. -/
namespace LtaskTaskEnd

open LtaskQueue RefCountedMap LtaskSchedule LtaskInterleaving LtaskTokens TransitionSystem

/-- The task that is about to be made ready again, and the status it is expected to have. -/
def recommits : Pc → Option (TaskId × TaskStatus)
  | .call _ (.wakeCas _ id) => some (id, .blocked)
  | .relCas t => some (t, .running)
  | _ => none

/-- The steps that do not lead back to an ended task. -/
def CleanEnd (s : State) : Event → Prop
  | .step a => ∀ x ∈ recommits (s.pc a), s.status x.1 = some x.2 → s.ended x.1 = false
  | .finish a t =>
    (∀ b ∈ agents s.threads, runs (s.pc b) = some t → b = a) ∧
      (∀ b ∈ agents s.threads, carries (s.pc b) ≠ some t) ∧
      ∀ i < s.threads, t ∉ (s.q i).contents
  | _ => True

instance (s : State) (e : Event) : Decidable (CleanEnd s e) :=
  match e with
  | .step a => inferInstanceAs (Decidable
      (∀ x ∈ recommits (s.pc a), s.status x.1 = some x.2 → s.ended x.1 = false))
  | .finish a t => inferInstanceAs (Decidable
      ((∀ b ∈ agents s.threads, runs (s.pc b) = some t → b = a) ∧
        (∀ b ∈ agents s.threads, carries (s.pc b) ≠ some t) ∧
        ∀ i < s.threads, t ∉ (s.q i).contents))
  | .issue .. | .call .. | .yield .. | .run => isTrue trivial

instance (threads : ℕ) (s : State) (e : Event) :
    Decidable (((ltaskSystem threads).when CleanEnd).enabled s e) :=
  inferInstanceAs (Decidable (Enabled s e ∧ CleanEnd s e))

/-- The end of `run_slice` for a task that has finished. -/
def ending : Pc → Option TaskId
  | .close t | .relGrab t | .relAssert t | .relRead t | .relCas t => some t
  | _ => none

def Invariant (s : State) : Prop :=
  ∀ t, s.ended t = true → ∀ l, At s l t → ∃ a, l = .run a ∧ ending (s.pc a) = some t

variable {threads : ℕ} {s : State} {e : Event} {a : Agent} {t : TaskId}

/-- At the end of its slice, or no longer running it. -/
def EndsOrLeaves (t : TaskId) (pc : Pc) : Prop := runs pc = some t → ending pc = some t

theorem withTask_ends {id : TaskId} {k : Task → State} (hpc : ending (s.pc a) = some t)
    (h : ∀ r, EndsOrLeaves t ((k r).pc a)) : EndsOrLeaves t ((s.withTask id k).pc a) :=
  withTask_cases (P := fun u => EndsOrLeaves t (u.pc a)) (fun _ => hpc) fun r _ => h r

/-- The end of a slice goes on to its last step or lets go of the task. -/
theorem agentStep_ending {pc : Pc} (h : ending pc = some t) (hpc : s.pc a = pc) :
    EndsOrLeaves t ((agentStep s a pc).pc a) := by
  have hpc' : ending (s.pc a) = some t := hpc ▸ h
  have goes : ∀ {p : Pc}, ending p = some t → EndsOrLeaves t ((s.goto a p).pc a) :=
    fun hp _ => by simpa [State.goto] using hp
  have leaves : ∀ {p : Pc}, runs p = none → EndsOrLeaves t ((s.goto a p).pc a) :=
    fun hp hr => by simp [State.goto, hp] at hr
  cases pc with
  | close x => exact goes h
  | relGrab x =>
    simp only [agentStep]
    split
    · exact goes h
    · exact leaves rfl
  | relAssert x =>
    refine withTask_ends hpc' fun r => ?_
    split
    · exact fun _ => hpc'
    · exact goes h
  | relRead x =>
    refine withTask_ends hpc' fun r => ?_
    split
    · exact goes h
    · exact leaves rfl
  | relCas x =>
    refine withTask_ends hpc' fun r => ?_
    split <;> exact leaves rfl
  | _ => cases h

theorem next_ending (he : Enabled s e) (h : ending (s.pc a) = some t)
    (hr : runs ((next s e).pc a) = some t) : ending ((next s e).pc a) = some t := by
  by_cases hrun : e = .run
  · subst hrun
    rcases a with _ | w
    · cases hr
    · simp only [next] at hr
      split at hr <;> cases hr
  · by_cases ha : a = e.actor
    · cases e with
      | step b =>
        obtain rfl := ha
        exact agentStep_ending h rfl hr
      | run => exact absurd rfl hrun
      | issue | call | yield | finish =>
        obtain rfl := ha
        have hpc := he.2.1
        rw [hpc] at h
        cases h
    · rwa [(next_frame hrun).others a ha]

theorem next_ended (hf : ∀ a t, e ≠ .finish a t) (h : (next s e).ended t = true) :
    s.ended t = true := by
  cases e with
  | step a => rwa [next, (agentStep_frame (s.pc a)).ended] at h
  | issue a x ud c id =>
    by_cases ht : t = id
    · subst ht
      simp [next] at h
    · simpa [next, ht] using h
  | call a x op => cases op <;> exact h
  | yield | run => exact h
  | finish a x => exact absurd rfl (hf a x)

theorem initial_invariant : Invariant (initial threads) := fun t h => by cases h

/-- A task that ends is only with the worker that ends it. -/
theorem finish_invariant (h : Invariant s) (hout : ∀ b, b ∉ agents s.threads → s.pc b = .idle)
    {a : Agent} {x : TaskId} (he : Enabled s (.finish a x)) (hclean : CleanEnd s (.finish a x)) :
    Invariant (next s (.finish a x)) := by
  obtain ⟨-, hpc, -⟩ := he
  obtain ⟨hruns, hcarries, hqueue⟩ := hclean
  have hmem : ∀ b, s.pc b ≠ .idle → b ∈ agents s.threads := fun b hb => by
    by_contra hb'
    exact hb (hout b hb')
  intro t ht l hl
  have hat := at_update (s := s) hl rfl rfl fun _ _ hx => hx
  by_cases htx : t = x
  · subst htx
    rcases hat with ⟨hs, hla, -⟩ | ⟨rfl, -⟩ | ⟨-, hc⟩
    · cases l with
      | run b =>
        have hb : b ∈ agents s.threads := hmem b fun hidle => by
          rw [At, hidle] at hs
          cases hs
        exact absurd (congrArg Loc.run (hruns b hb hs)) hla
      | carry b =>
        have hb : b ∈ agents s.threads := hmem b fun hidle => by
          rw [At, hidle] at hs
          cases hs
        exact absurd hs (hcarries b hb)
      | queue i => exact absurd hs.2 (hqueue i hs.1)
    · exact ⟨a, rfl, by simp [next, State.goto, ending]⟩
    · cases hc
  · have hold : s.ended t = true := by simpa [next, htx] using ht
    rcases hat with ⟨hs, hla, -⟩ | ⟨rfl, hr⟩ | ⟨-, hc⟩
    · obtain ⟨b, rfl, hb⟩ := h t hold l hs
      have hba : b ≠ a := fun hx => hla (congrArg Loc.run hx)
      exact ⟨b, rfl, by simpa [next, State.goto, hba] using hb⟩
    · exact absurd (Option.some.inj hr).symm htx
    · cases hc

theorem step_preserves_invariant (h : Invariant s) (hth : 0 < s.threads)
    (hout : ∀ b, b ∉ agents s.threads → s.pc b = .idle) (he : Enabled s e)
    (hclean : CleanEnd s e) : Invariant (next s e) := by
  by_cases hf : ∃ a x, e = .finish a x
  · obtain ⟨a, x, rfl⟩ := hf
    exact finish_invariant h hout he hclean
  · intro t ht l hl
    have hold : s.ended t = true := next_ended (fun a x hx => hf ⟨a, x, hx⟩) ht
    -- a place that the task already had
    have kept : At s l t → ∃ a, l = .run a ∧ ending ((next s e).pc a) = some t := by
      intro hs
      obtain ⟨a, rfl, ha⟩ := h t hold l hs
      exact ⟨a, rfl, next_ending he ha hl⟩
    have carried : ∀ a, ¬ At s (.carry a) t := by
      intro a hs
      obtain ⟨b, hb, -⟩ := h t hold _ hs
      cases hb
    have hstep := next_tokens hth he
    generalize next s e = s' at hstep hl kept
    cases hstep with
    | keep places | block _ _ _ _ places | opens _ _ _ _ _ _ places => exact kept (places l t hl)
    | take a i id hi popped _ places =>
      rcases places l t hl with hs | ⟨-, rfl⟩
      · exact kept hs
      · obtain ⟨b, hb, -⟩ := h t hold (.queue i) ⟨hi, by simp [popped]⟩
        cases hb
    | start a id here _ _ places | push a i id here _ _ places =>
      rcases places l t hl with ⟨hs, -⟩ | ⟨-, rfl⟩
      · exact kept hs
      · exact absurd here (carried a)
    | wake a x c id pc blocked _ places =>
      rcases places l t hl with hs | ⟨-, rfl⟩
      · exact kept hs
      · simp only [CleanEnd, pc] at hclean
        rw [hclean _ rfl blocked] at hold
        cases hold
    | back a x pc running _ places =>
      rcases places l t hl with ⟨hs, -⟩ | ⟨-, rfl⟩
      · exact kept hs
      · simp only [CleanEnd, pc] at hclean
        rw [hclean _ rfl running] at hold
        cases hold
    | issue a x ud c id _ _ places =>
      rcases places l t hl with hs | ⟨-, rfl⟩
      · exact kept hs
      · simp [next] at ht

theorem reachable_invariant (h : Reachable ((ltaskSystem threads).when CleanEnd) s) :
    Invariant s := by
  apply h.invariant
  · rintro s ⟨-, rfl⟩
    exact initial_invariant
  · intro s e hr ih he
    obtain ⟨hpos, hth⟩ := reachable_threads hr.of_when
    exact step_preserves_invariant ih (hth ▸ hpos) (fun b => reachable_outside hr.of_when) he.1 he.2

/-- A task whose `lua_State` is closed is not returned by `schedule_grabtask` and not resumed,
nor is it in a ready queue or about to be. -/
theorem finished_task_not_grabbed (h : Reachable ((ltaskSystem threads).when CleanEnd) s) :
    ∀ t, s.ended t = true → (∀ a, s.pc a ≠ .grabRelease t ∧ s.pc a ≠ .slice t) ∧
      (∀ a, carries (s.pc a) ≠ some t) ∧ ∀ i < threads, t ∉ (s.q i).contents := by
  intro t ht
  have hinv := reachable_invariant h t ht
  have hth := (reachable_threads h.of_when).2
  refine ⟨fun a => ⟨fun hpc => ?_, fun hpc => ?_⟩, fun a hc => ?_, fun i hi hq => ?_⟩
  · obtain ⟨b, hb, he⟩ := hinv (.run a) (by simp [At, hpc, runs])
    obtain rfl := Loc.run.inj hb
    rw [hpc] at he
    cases he
  · obtain ⟨b, hb, he⟩ := hinv (.run a) (by simp [At, hpc, runs])
    obtain rfl := Loc.run.inj hb
    rw [hpc] at he
    cases he
  · obtain ⟨b, hb, -⟩ := hinv (.carry a) hc
    cases hb
  · obtain ⟨b, hb, -⟩ := hinv (.queue i) ⟨hth ▸ hi, hq⟩
    cases hb

/-- Task 1 waits for channels 1 and 2, is woken through channel 1 and runs again, still
registered with channel 2. -/
def staleReader : List Event :=
  [.call .main 0 (.newchannel 1), .call .main 0 (.newchannel 2)] ++ mainOpens 101 0 1 ++
    mainOpens 102 1 2 ++ [.run] ++ steps (.worker 0) 5 ++
    [.call (.worker 0) 1 (.select [1, 2])] ++ steps (.worker 0) 17 ++
    [.yield (.worker 0) 1] ++ steps (.worker 0) 4 ++
    steps (.worker 1) 5 ++ [.call (.worker 1) 2 (.send 1 9)] ++ steps (.worker 1) 10 ++
    steps (.worker 0) 5

/-- The sender on channel 2 is done before the task ends. -/
def cleanRun : State :=
  runTrace ((ltaskSystem 2).when CleanEnd) (initial 2) (staleReader ++
    [.call (.worker 1) 2 (.send 2 9)] ++ steps (.worker 1) 8 ++
    [.finish (.worker 0) 1] ++ steps (.worker 0) 3)

set_option maxRecDepth 100000 in
theorem finished_task_not_grabbed_cleanRun :
    cleanRun.ended 1 = true ∧ ∀ a, cleanRun.pc a ≠ .grabRelease 1 ∧ cleanRun.pc a ≠ .slice 1 :=
  have hend : cleanRun.ended 1 = true := by decide +kernel
  ⟨hend, (finished_task_not_grabbed (.run (.start ⟨by decide, rfl⟩) (by decide +kernel)) 1 hend).1⟩

/-- The sender on channel 2 has a reference to the task while it ends. -/
def lateEndRun : State :=
  runTrace (ltaskSystem 2) (initial 2) (staleReader ++
    [.call (.worker 1) 2 (.send 2 9)] ++ steps (.worker 1) 4 ++
    [.finish (.worker 0) 1] ++ steps (.worker 0) 7 ++ steps (.worker 0) 5)

set_option maxRecDepth 100000 in
/-- `schedule_grabtask` returns a task whose `lua_State` was closed. -/
theorem releasetask_revives_closed_task :
    Reachable (ltaskSystem 2) lateEndRun ∧
      lateEndRun.ended 1 = true ∧ lateEndRun.pc (.worker 0) = .slice 1 :=
  ⟨.run (.start ⟨by decide, rfl⟩) (by decide +kernel), by decide +kernel, by decide +kernel⟩

end LtaskTaskEnd
