import Grt.LtaskTokens

/-! A task is in one place at a time, and so no two workers run it, as long as no sender wakes
a task whose slice is not over: `schedule_select` marks the task `TASK_BLOCKED` while its worker
still runs it, and a sender that makes it ready then hands it to a second worker. -/
namespace LtaskMutualExclusion

open LtaskQueue RefCountedMap LtaskSchedule LtaskInterleaving LtaskTokens TransitionSystem

/-- The reader that a sender is about to make ready. -/
def wakes : Pc → Option TaskId
  | .call _ (.wakeCas _ id) => some id
  | _ => none

/-- A sender makes a blocked task ready only when its slice is over; handles are not reissued. -/
def AfterSlice (s : State) : Event → Prop
  | .step a => ∀ id ∈ wakes (s.pc a),
      s.status id = some .blocked → ∀ b ∈ agents s.threads, runs (s.pc b) ≠ some id
  | .issue _ _ _ _ id => s.opened id = false
  | _ => True

instance (s : State) (e : Event) : Decidable (AfterSlice s e) :=
  match e with
  | .step a => inferInstanceAs (Decidable (∀ id ∈ wakes (s.pc a),
      s.status id = some .blocked → ∀ b ∈ agents s.threads, runs (s.pc b) ≠ some id))
  | .issue _ _ _ _ id => inferInstanceAs (Decidable (s.opened id = false))
  | .call .. | .yield .. | .finish .. | .run => isTrue trivial

/-- A task is in one place; a task that is on its way to a worker is not blocked; and nothing is
known of handles that were never issued. -/
structure Exclusive (s : State) : Prop where
  unique : ∀ l l' t, At s l t → At s l' t → l = l'
  nodup : ∀ i < s.threads, (s.q i).contents.Nodup
  pending : ∀ l t st, At s l t → s.status t = some st →
    (∃ a, l = .run a) ∨ st = .ready ∨ st = .init
  issued : ∀ l t, At s l t → s.opened t = true ∨ t = 0
  known : ∀ t st, s.status t = some st → s.opened t = true

instance (threads : ℕ) (s : State) (e : Event) :
    Decidable (((ltaskSystem threads).when AfterSlice).enabled s e) :=
  inferInstanceAs (Decidable (Enabled s e ∧ AfterSlice s e))

variable {threads : ℕ} {s s' : State} {e : Event}

theorem initial_exclusive : Exclusive (initial threads) := by
  have hrun : ∀ l t, At (initial threads) l t → l = .run .main ∧ t = 0 := by
    rintro (a | a | i) t h
    · by_cases ha : a = .main
      · subst ha
        exact ⟨rfl, (Option.some.inj h).symm⟩
      · simp [At, initial, ha, runs] at h
    · by_cases ha : a = .main <;> simp [At, initial, ha, carries] at h
    · simp [At, initial, scheduleCreate] at h
  constructor
  · intro l l' t h h'
    rw [(hrun l t h).1, (hrun l' t h').1]
  · intro i _
    simp [initial, scheduleCreate]
  · intro l t st h
    exact fun _ => Or.inl ⟨.main, (hrun l t h).1⟩
  · intro l t h
    exact Or.inr (hrun l t h).2
  · intro t st h
    cases h

theorem next_opened (s : State) (e : Event) {t : TaskId} (h : s.opened t = true) :
    (next s e).opened t = true := by
  cases e with
  | step a => rwa [next, (agentStep_frame (s.pc a)).opened]
  | issue a x ud c id =>
    by_cases ht : t = id
    · subst ht
      simp [next]
    · simpa [next, ht] using h
  | call a x op => cases op <;> exact h
  | yield | finish | run => exact h

/-- A task taken to a new place is in no other one. -/
theorem unique_of_place {l₀ : Loc} {id : TaskId}
    (h : ∀ l l' t, At s l t → At s l' t → l = l')
    (hat : ∀ l t, At s' l t → At s l t ∨ l = l₀ ∧ t = id) (hid : ∀ l, At s' l id → l = l₀) :
    ∀ l l' t, At s' l t → At s' l' t → l = l' := by
  intro l l' t hl hl'
  by_cases ht : t = id
  · subst ht
    rw [hid l hl, hid l' hl']
  · have hold : ∀ k, At s' k t → At s k t := fun k hk =>
      (hat k t hk).resolve_right fun hx => ht hx.2
    exact h l l' t (hold l hl) (hold l' hl')

/-- A task that moves leaves its old place. -/
theorem Exclusive.move (h : Exclusive s) {l₀ l₁ : Loc} {id : TaskId} (here : At s l₀ id)
    (hat : ∀ l t, At s' l t → At s l t ∧ l ≠ l₀ ∨ l = l₁ ∧ t = id) :
    ∀ l l' t, At s' l t → At s' l' t → l = l' := by
  apply unique_of_place h.unique
  · intro l t hl
    exact (hat l t hl).imp And.left fun hx => hx
  · intro l hl
    rcases hat l id hl with ⟨hs, hne⟩ | ⟨hl, -⟩
    · exact absurd (h.unique l l₀ id hs here) hne
    · exact hl

/-- A blocked task that nobody runs is nowhere. -/
theorem Exclusive.blocked_nowhere (h : Exclusive s) {id : TaskId}
    (hb : s.status id = some .blocked) (hrun : ∀ a, ¬ At s (.run a) id) (l : Loc) :
    ¬ At s l id := by
  intro hl
  rcases h.pending l id _ hl hb with ⟨a, rfl⟩ | hst | hst
  · exact hrun a hl
  · cases hst
  · cases hst

theorem next_issued (h : Exclusive s) (hstep : TokenStep s e (next s e)) {l : Loc} {t : TaskId}
    (hl : At (next s e) l t) : (next s e).opened t = true ∨ t = 0 := by
  rcases hstep.places_from hl with ⟨l', hs⟩ | hs | ⟨a, x, ud, c, rfl⟩
  · exact (h.issued l' t hs).imp (next_opened s e) id
  · obtain ⟨st, hst⟩ := Option.isSome_iff_exists.mp hs
    exact Or.inl (next_opened s e (h.known t st hst))
  · exact Or.inl (by simp [next])

theorem next_known (h : Exclusive s) (hstep : TokenStep s e (next s e)) {t : TaskId}
    {st : TaskStatus} (ht : (next s e).status t = some st) : (next s e).opened t = true := by
  rcases hstep.status_from ht with hs | ⟨a, x, ud, c, rfl⟩
  · obtain ⟨st₀, hst⟩ := Option.isSome_iff_exists.mp hs
    exact next_opened s e (h.known t st₀ hst)
  · simp [next]

/-- The task that a sender is about to make ready is nowhere when its slice is over. -/
theorem Exclusive.wakes_nowhere (h : Exclusive s)
    (hout : ∀ b, b ∉ agents s.threads → s.pc b = .idle) {a : Agent} {x : TaskId} {c : ChannelId}
    {id : TaskId} (hpc : s.pc a = .call x (.wakeCas c id)) (hblocked : s.status id = some .blocked)
    (hsafe : AfterSlice s (.step a)) (l : Loc) : ¬ At s l id := by
  apply h.blocked_nowhere hblocked
  intro b hb
  have hmem : b ∈ agents s.threads := by
    by_contra hb'
    rw [At, hout b hb'] at hb
    cases hb
  simp only [AfterSlice, hpc] at hsafe
  exact hsafe id rfl hblocked b hmem hb

/-- A handle that was not issued is nowhere. -/
theorem Exclusive.fresh_nowhere (h : Exclusive s) {id : TaskId} (hfresh : s.opened id = false)
    (hpos : id ≠ 0) (l : Loc) : ¬ At s l id := by
  intro hl
  rcases h.issued l id hl with hop | h0
  · rw [hfresh] at hop
    cases hop
  · exact hpos h0

theorem next_unique (h : Exclusive s) (hout : ∀ b, b ∉ agents s.threads → s.pc b = .idle)
    (hsafe : AfterSlice s e) (hstep : TokenStep s e s') :
    ∀ l l' t, At s' l t → At s' l' t → l = l' := by
  cases hstep with
  | keep places | block _ _ _ _ places | opens _ _ _ _ _ _ places =>
    exact fun l l' t hl hl' => h.unique l l' t (places l t hl) (places l' t hl')
  | take a i id hi popped queues places =>
    have hqi : At s (.queue i) id := ⟨hi, by simp [popped]⟩
    have hnodup := h.nodup i hi
    rw [popped] at hnodup
    refine unique_of_place h.unique places fun l hl => ?_
    rcases places l id hl with hs | ⟨rfl, -⟩
    · obtain rfl := h.unique l (.queue i) id hs hqi
      exact absurd hl.2 (List.nodup_cons.mp hnodup).1
    · rfl
  | start a id here _ _ places | push a i id here _ _ places => exact h.move here places
  | back a id pc _ _ places =>
    have here : At s (.run a) id := by simp [At, pc, runs]
    exact h.move here places
  | wake a x c id pc blocked queues places =>
    refine unique_of_place h.unique places fun l hl => ?_
    rcases places l id hl with hs | ⟨rfl, -⟩
    · exact absurd hs (h.wakes_nowhere hout pc blocked hsafe l)
    · rfl
  | issue a x ud c id queues positive places =>
    refine unique_of_place h.unique places fun l hl => ?_
    rcases places l id hl with hs | ⟨rfl, -⟩
    · exact absurd hs (h.fresh_nowhere hsafe positive l)
    · rfl

theorem next_nodup (h : Exclusive s) (hthreads : s'.threads = s.threads)
    (hstep : TokenStep s e s') : ∀ i < s'.threads, (s'.q i).contents.Nodup := by
  rw [hthreads]
  cases hstep with
  | keep _ queues | block _ _ _ _ _ queues | start _ _ _ _ queues | wake _ _ _ _ _ _ queues
  | back _ _ _ _ queues | opens _ _ _ _ _ queues | issue _ _ _ _ _ queues =>
    rw [queues]
    exact h.nodup
  | take a i id hi popped queues =>
    intro j hj
    by_cases hji : j = i
    · subst hji
      have hnodup := h.nodup j hj
      rw [popped] at hnodup
      exact (List.nodup_cons.mp hnodup).2
    · rw [queues j hji]
      exact h.nodup j hj
  | push a i id here pushed queues =>
    intro j hj
    by_cases hji : j = i
    · subst hji
      rw [pushed, ← List.concat_eq_append]
      refine List.Nodup.concat (fun hmem => ?_) (h.nodup j hj)
      cases h.unique (.queue j) _ id ⟨hj, hmem⟩ here
    · rw [queues j hji]
      exact h.nodup j hj

theorem next_pending (h : Exclusive s) (hsafe : AfterSlice s e) (hstep : TokenStep s e s') :
    ∀ l t st, At s' l t → s'.status t = some st → (∃ a, l = .run a) ∨ st = .ready ∨ st = .init := by
  intro l t st hl hst
  cases hstep with
  | keep places _ statuses => exact h.pending l t st (places l t hl) (statuses t st hst)
  | block a x here _ places _ statuses =>
    rcases statuses t st hst with hs | ⟨rfl, -⟩
    · exact h.pending l t st (places l t hl) hs
    · exact Or.inl ⟨a, h.unique l _ t (places l t hl) here⟩
  | take a i id hi popped _ places statuses =>
    rcases places l t hl with hs | ⟨rfl, rfl⟩
    · exact h.pending l t st hs (statuses t st hst)
    · have hqi : At s (.queue i) t := ⟨hi, by simp [popped]⟩
      rcases h.pending (.queue i) t st hqi (statuses t st hst) with ⟨_, hx⟩ | hready
      · cases hx
      · exact Or.inr hready
  | start a id here _ _ places statuses =>
    rcases places l t hl with ⟨hs, hne⟩ | ⟨rfl, -⟩
    · rcases statuses t st hst with hst | ⟨rfl, -⟩
      · exact h.pending l t st hs hst
      · exact absurd (h.unique l _ t hs here) hne
    · exact Or.inl ⟨a, rfl⟩
  | wake a x c id pc blocked _ places statuses =>
    rcases statuses t st hst with ⟨hst, hne⟩ | ⟨-, rfl⟩
    · rcases places l t hl with hs | ⟨-, rfl⟩
      · exact h.pending l t st hs hst
      · exact absurd rfl hne
    · exact Or.inr (Or.inl rfl)
  | back a x pc _ _ places statuses =>
    rcases statuses t st hst with ⟨hst, hne⟩ | ⟨-, rfl⟩
    · rcases places l t hl with ⟨hs, -⟩ | ⟨-, rfl⟩
      · exact h.pending l t st hs hst
      · exact absurd rfl hne
    · exact Or.inr (Or.inl rfl)
  | opens a x id _ _ _ places statuses =>
    rcases statuses t st hst with ⟨hst, -⟩ | ⟨-, rfl⟩
    · exact h.pending l t st (places l t hl) hst
    · exact Or.inr (Or.inl rfl)
  | push a i id here _ _ places statuses =>
    rcases places l t hl with ⟨hs, -⟩ | ⟨rfl, rfl⟩
    · exact h.pending l t st hs (statuses t st hst)
    · rcases h.pending (.carry a) t st here (statuses t st hst) with ⟨_, hx⟩ | hready
      · cases hx
      · exact Or.inr hready
  | issue a x ud c id _ positive places statuses =>
    rcases statuses t st hst with hst | ⟨-, rfl⟩
    · rcases places l t hl with hs | ⟨-, rfl⟩
      · exact h.pending l t st hs hst
      · have hfresh : s.opened t = false := hsafe
        rw [h.known t st hst] at hfresh
        cases hfresh
    · exact Or.inr (Or.inr rfl)

theorem step_preserves_exclusive (h : Exclusive s) (hth : 0 < s.threads)
    (hout : ∀ b, b ∉ agents s.threads → s.pc b = .idle) (he : Enabled s e)
    (hsafe : AfterSlice s e) : Exclusive (next s e) := by
  have hstep := next_tokens hth he
  constructor
  · exact next_unique h hout hsafe hstep
  · exact next_nodup h next_threads hstep
  · exact next_pending h hsafe hstep
  · exact fun l t hl => next_issued h hstep hl
  · exact fun t st ht => next_known h hstep ht

theorem reachable_exclusive (h : Reachable ((ltaskSystem threads).when AfterSlice) s) :
    Exclusive s := by
  apply h.invariant
  · rintro s ⟨-, rfl⟩
    exact initial_exclusive
  · intro s e hr ih he
    obtain ⟨hpos, hth⟩ := reachable_threads hr.of_when
    exact step_preserves_exclusive ih (hth ▸ hpos) (fun b => reachable_outside hr.of_when) he.1 he.2

/-- No two workers run one task between the return of `schedule_grabtask` and the decision of
`schedule_releasetask`, when senders only wake tasks whose slice is over. -/
theorem task_slices_exclusive (h : Reachable ((ltaskSystem threads).when AfterSlice) s) :
    ∀ a b t, runs (s.pc a) = some t → runs (s.pc b) = some t → a = b := by
  intro a b t ha hb
  have := (reachable_exclusive h).unique (.run a) (.run b) t ha hb
  exact Loc.run.inj this

/-- Task 1 blocks on channel 1 and ends its slice; a sender wakes it, and both workers have
had a slice of it. -/
def wakeTrace : List Event :=
  [.call .main 0 (.newchannel 1)] ++ mainOpens 101 0 1 ++ mainOpens 102 1 2 ++ [.run] ++
    steps (.worker 0) 5 ++ [.call (.worker 0) 1 (.select [1])] ++ steps (.worker 0) 11 ++
    [.yield (.worker 0) 1] ++ steps (.worker 0) 4 ++
    steps (.worker 1) 5 ++ [.call (.worker 1) 2 (.send 1 9)] ++ steps (.worker 1) 10 ++
    [.finish (.worker 1) 2] ++ steps (.worker 1) 2 ++ steps (.worker 1) 6

def wakeRun : State := runTrace ((ltaskSystem 2).when AfterSlice) (initial 2) wakeTrace

theorem task_slices_exclusive_wakeRun :
    runs (wakeRun.pc (.worker 1)) = some 1 ∧ runs (wakeRun.pc (.worker 0)) ≠ some 1 := by
  have hruns : runs (wakeRun.pc (.worker 1)) = some 1 := by decide +kernel
  have hreach : Reachable ((ltaskSystem 2).when AfterSlice) wakeRun :=
    .run (.start ⟨by decide, rfl⟩) (by decide +kernel)
  refine ⟨hruns, fun h => ?_⟩
  exact absurd (task_slices_exclusive hreach (.worker 0) (.worker 1) 1 h hruns) (by decide)

/-- The same sender wakes the task before its worker has released it. -/
def earlyWakeTrace : List Event :=
  [.call .main 0 (.newchannel 1)] ++ mainOpens 101 0 1 ++ mainOpens 102 1 2 ++ [.run] ++
    steps (.worker 0) 5 ++ [.call (.worker 0) 1 (.select [1])] ++ steps (.worker 0) 11 ++
    [.yield (.worker 0) 1] ++
    steps (.worker 1) 5 ++ [.call (.worker 1) 2 (.send 1 9)] ++ steps (.worker 1) 10 ++
    [.finish (.worker 1) 2] ++ steps (.worker 1) 2 ++ steps (.worker 1) 6

def earlyWakeRun : State := runTrace (ltaskSystem 2) (initial 2) earlyWakeTrace

/-- One task, two workers: the first has not called `schedule_releasetask` yet when
`schedule_grabtask` has returned the task to the second. -/
theorem select_wakes_running_task :
    Reachable (ltaskSystem 2) earlyWakeRun ∧
      earlyWakeRun.pc (.worker 0) = .relGrab 1 ∧ earlyWakeRun.pc (.worker 1) = .slice 1 :=
  ⟨.run (.start ⟨by decide, rfl⟩) (by decide +kernel), by decide +kernel, by decide +kernel⟩

end LtaskMutualExclusion
