import Grt.LtaskInterleaving

/-! Where the id of a task is on its way from a `commit_task` to the end of a slice: carried by
an agent that is about to queue it or has just popped it, in a ready queue, or run by a worker.
What one step of the system does to these places and to the statuses is said here once. -/
namespace LtaskTokens

open LtaskQueue RefCountedMap LtaskSchedule LtaskInterleaving TransitionSystem

inductive Loc where
  | run (a : Agent)
  | carry (a : Agent)
  | queue (i : ℕ)
  deriving DecidableEq

/-- The task whose slice is going on, up to the decision of `schedule_releasetask`. -/
def runs : Pc → Option TaskId
  | .grabRelease t | .slice t | .call t _ | .close t | .relGrab t | .relAssert t | .relRead t
  | .relCas t => some t
  | _ => none

/-- The task that is queued next, or was popped and is not yet running. -/
def carries : Pc → Option TaskId
  | .grab id | .grabAssert id | .grabRun id | .relPush id => some id
  | .call _ (.wakePush _ id) | .call _ (.openCas id) | .call _ (.openPush id) => some id
  | _ => none

def At (s : State) : Loc → TaskId → Prop
  | .run a, t => runs (s.pc a) = some t
  | .carry a, t => carries (s.pc a) = some t
  | .queue i, t => i < s.threads ∧ t ∈ (s.q i).contents

/-- What a step does to the places of the tasks and to their statuses. -/
inductive TokenStep (s : State) : Event → State → Prop where
  | keep {e s'} (places : ∀ l t, At s' l t → At s l t) (queues : s'.q = s.q)
      (statuses : ∀ id st, s'.status id = some st → s.status id = some st) : TokenStep s e s'
  | block {s'} (a t) (here : At s (.run a) t) (live : (s.status t).isSome)
      (places : ∀ l t, At s' l t → At s l t) (queues : s'.q = s.q)
      (statuses : ∀ id st, s'.status id = some st →
        s.status id = some st ∨ id = t ∧ st = .blocked) : TokenStep s (.step a) s'
  | take {s'} (a i id) (index : i < s.threads)
      (popped : (s.q i).contents = id :: (s'.q i).contents) (queues : ∀ j, j ≠ i → s'.q j = s.q j)
      (places : ∀ l t, At s' l t → At s l t ∨ l = .carry a ∧ t = id)
      (statuses : ∀ id st, s'.status id = some st → s.status id = some st) :
      TokenStep s (.step a) s'
  | start {s'} (a id) (here : At s (.carry a) id) (live : (s.status id).isSome)
      (queues : s'.q = s.q)
      (places : ∀ l t, At s' l t → At s l t ∧ l ≠ .carry a ∨ l = .run a ∧ t = id)
      (statuses : ∀ i st, s'.status i = some st → s.status i = some st ∨ i = id ∧ st = .running) :
      TokenStep s (.step a) s'
  | wake {s'} (a t c id) (pc : s.pc a = .call t (.wakeCas c id))
      (blocked : s.status id = some .blocked) (queues : s'.q = s.q)
      (places : ∀ l t, At s' l t → At s l t ∨ l = .carry a ∧ t = id)
      (statuses : ∀ i st, s'.status i = some st →
        s.status i = some st ∧ i ≠ id ∨ i = id ∧ st = .ready) : TokenStep s (.step a) s'
  | back {s'} (a t) (pc : s.pc a = .relCas t) (running : s.status t = some .running)
      (queues : s'.q = s.q)
      (places : ∀ l x, At s' l x → At s l x ∧ l ≠ .run a ∨ l = .carry a ∧ x = t)
      (statuses : ∀ i st, s'.status i = some st →
        s.status i = some st ∧ i ≠ t ∨ i = t ∧ st = .ready) : TokenStep s (.step a) s'
  | opens {s'} (a t id) (pc : s.pc a = .call t (.openCas id)) (init : s.status id = some .init)
      (queues : s'.q = s.q) (places : ∀ l t, At s' l t → At s l t)
      (statuses : ∀ i st, s'.status i = some st →
        s.status i = some st ∧ i ≠ id ∨ i = id ∧ st = .ready) : TokenStep s (.step a) s'
  | push {s'} (a i id) (here : At s (.carry a) id)
      (pushed : (s'.q i).contents = (s.q i).contents ++ [id]) (queues : ∀ j, j ≠ i → s'.q j = s.q j)
      (places : ∀ l t, At s' l t → At s l t ∧ l ≠ .carry a ∨ l = .queue i ∧ t = id)
      (statuses : ∀ id st, s'.status id = some st → s.status id = some st) :
      TokenStep s (.step a) s'
  | issue {s'} (a t ud c id) (queues : s'.q = s.q) (positive : id ≠ 0)
      (places : ∀ l t, At s' l t → At s l t ∨ l = .carry a ∧ t = id)
      (statuses : ∀ i st, s'.status i = some st →
        s.status i = some st ∨ i = id ∧ st = .init) : TokenStep s (.issue a t ud c id) s'

variable {s s' : State} {a : Agent} {p : Pc} {e : Event}

/-- When one agent moves, only its own places change. -/
theorem at_update {l : Loc} {t : TaskId} (h : At s' l t)
    (hpc : s'.pc = Function.update s.pc a p) (hth : s'.threads = s.threads)
    (hq : ∀ i t, t ∈ (s'.q i).contents → t ∈ (s.q i).contents) :
    At s l t ∧ l ≠ .run a ∧ l ≠ .carry a ∨
      l = .run a ∧ runs p = some t ∨ l = .carry a ∧ carries p = some t := by
  cases l with
  | run b =>
    by_cases hb : b = a
    · subst hb
      simp only [At, hpc, Function.update_self] at h
      exact Or.inr (Or.inl ⟨rfl, h⟩)
    · simp only [At, hpc, Function.update_of_ne hb] at h
      exact Or.inl ⟨h, by simpa using hb, by simp⟩
  | carry b =>
    by_cases hb : b = a
    · subst hb
      simp only [At, hpc, Function.update_self] at h
      exact Or.inr (Or.inr ⟨rfl, h⟩)
    · simp only [At, hpc, Function.update_of_ne hb] at h
      exact Or.inl ⟨h, by simp, by simpa using hb⟩
  | queue i =>
    obtain ⟨hi, ht⟩ := h
    exact Or.inl ⟨⟨hth ▸ hi, hq i t ht⟩, by simp, by simp⟩

theorem at_goto {sched : Schedule} {l : Loc} {t : TaskId}
    (h : At ((s.put sched).goto a p) l t) (hth : sched.threads = s.threads)
    (hq : ∀ i t, t ∈ (sched.q i).contents → t ∈ (s.q i).contents) :
    At s l t ∧ l ≠ .run a ∧ l ≠ .carry a ∨
      l = .run a ∧ runs p = some t ∨ l = .carry a ∧ carries p = some t := by
  exact at_update h rfl hth hq

/-- A step that leaves the ready queues and statuses alone and takes on no task. -/
theorem keep_of (hpc : s'.pc = Function.update s.pc a p) (hth : s'.threads = s.threads)
    (hq : s'.q = s.q) (hr : ∀ t, runs p = some t → runs (s.pc a) = some t)
    (hc : ∀ t, carries p = some t → carries (s.pc a) = some t)
    (hst : ∀ id st, s'.status id = some st → s.status id = some st) : TokenStep s e s' := by
  refine .keep (fun l t h => ?_) hq hst
  rcases at_update h hpc hth (by simp [hq]) with ⟨hs, -⟩ | ⟨rfl, hp⟩ | ⟨rfl, hp⟩
  · exact hs
  · exact hr t hp
  · exact hc t hp

theorem abort_keeps : TokenStep s e s.abort := .keep (fun _ _ h => h) rfl fun _ _ h => h

theorem refl_keeps : TokenStep s e s := .keep (fun _ _ h => h) rfl fun _ _ h => h

theorem withTask_tokens {id : TaskId} {k : Task → State}
    (h : ∀ r, s.status id = some r.status → TokenStep s e (k r)) :
    TokenStep s e (s.withTask id k) :=
  withTask_cases abort_keeps fun r hr => h r (find_status s.toSchedule hr)

theorem withChannel_tokens {c : ChannelId} {k : Channel → State}
    (h : ∀ ch, TokenStep s e (k ch)) : TokenStep s e (s.withChannel c k) :=
  withChannel_cases abort_keeps fun ch _ => h ch

/-- A step of a call that only reads, or changes channels and references. -/
theorem call_keeps {t : TaskId} {pc pc' : CallPc} (hpc : s.pc a = .call t pc)
    (hnew : s'.pc = Function.update s.pc a (.call t pc')) (hth : s'.threads = s.threads)
    (hq : s'.q = s.q) (hc : carries (.call t pc') = none)
    (hst : ∀ id st, s'.status id = some st → s.status id = some st) : TokenStep s e s' := by
  apply keep_of hnew hth hq _ _ hst
  · intro x hx
    rw [hpc]
    exact hx
  · intro x hx
    rw [hc] at hx
    cases hx

theorem return_keeps {t : TaskId} {pc : CallPc} (hpc : s.pc a = .call t pc)
    (hnew : s'.pc = Function.update s.pc a (.slice t)) (hth : s'.threads = s.threads)
    (hq : s'.q = s.q) (hst : ∀ id st, s'.status id = some st → s.status id = some st) :
    TokenStep s e s' := by
  apply keep_of hnew hth hq _ _ hst
  · intro x hx
    rw [hpc]
    exact hx
  · intro x hx
    cases hx

/-- Queueing the task that the agent carries. -/
theorem push_of {i : ℕ} {id : TaskId} (hid : carries (s.pc a) = some id)
    (hpc : s'.pc = Function.update s.pc a p) (hth : s'.threads = s.threads)
    (hq : s'.q = Function.update s.q i ((s.q i).push id))
    (hr : ∀ t, runs p = some t → runs (s.pc a) = some t) (hc : carries p = none)
    (hst : ∀ id st, s'.status id = some st → s.status id = some st) :
    TokenStep s (.step a) s' := by
  have hold : ∀ j, j ≠ i → s'.q j = s.q j := fun j hj => by rw [hq, Function.update_of_ne hj]
  refine .push a i id hid (by simp [hq]) hold (fun l t h => ?_) hst
  cases l with
  | run b =>
    refine Or.inl ⟨?_, by simp⟩
    by_cases hb : b = a
    · subst hb
      exact hr t (by simpa [At, hpc] using h)
    · simpa [At, hpc, hb] using h
  | carry b =>
    by_cases hb : b = a
    · subst hb
      simp [At, hpc, hc] at h
    · exact Or.inl ⟨by simpa [At, hpc, hb] using h, by simpa using hb⟩
  | queue j =>
    obtain ⟨hj, ht⟩ := h
    rw [hth] at hj
    by_cases hij : j = i
    · subst hij
      rw [hq, Function.update_self, push_contents] at ht
      rcases List.mem_append.mp ht with ht | ht
      · exact Or.inl ⟨⟨hj, ht⟩, by simp⟩
      · exact Or.inr ⟨rfl, List.mem_singleton.mp ht⟩
    · rw [hold j hij] at ht
      exact Or.inl ⟨⟨hj, ht⟩, by simp⟩

theorem statuses_release (x id st) (h : (releaseTask s.toSchedule x).status id = some st) :
    s.status id = some st :=
  status_releaseTask s.toSchedule h

theorem statuses_grab (x id st) (h : (s.grabTask x).status id = some st) :
    s.status id = some st :=
  status_grabTask s.toSchedule x id ▸ h

theorem callStep_tokens {t : TaskId} {pc : CallPc} (hpc : s.pc a = .call t pc) :
    TokenStep s (.step a) (callStep s a t pc) := by
  cases pc with
  | sendGrab | recvGrab | isclosedGrab =>
    simp only [callStep]
    split
    · exact call_keeps hpc rfl rfl rfl rfl fun _ _ h => h
    · exact return_keeps hpc rfl rfl rfl fun _ _ h => h
  | sendPush | regPush =>
    exact withChannel_tokens fun _ => call_keeps hpc rfl rfl rfl rfl fun _ _ h => h
  | sendPop | recvPop =>
    refine withChannel_tokens fun ch => ?_
    split <;> exact call_keeps hpc rfl rfl rfl rfl fun _ _ h => h
  | checkEmpty =>
    refine withChannel_tokens fun ch => call_keeps hpc rfl rfl rfl ?_ fun _ _ h => h
    split <;> rfl
  | checkGrab | regGrab =>
    simp only [callStep]
    split
    · exact call_keeps hpc rfl rfl rfl rfl fun _ _ h => h
    · split <;> exact call_keeps hpc rfl rfl rfl rfl fun _ _ h => h
  | wakeGrab c id =>
    simp only [callStep]
    split
    · exact call_keeps hpc rfl rfl rfl rfl (statuses_grab id)
    · exact call_keeps hpc rfl rfl rfl rfl fun _ _ h => h
  | selectGrab =>
    simp only [callStep]
    split
    · exact call_keeps hpc rfl rfl rfl rfl (statuses_grab t)
    · exact return_keeps hpc rfl rfl rfl fun _ _ h => h
  | wakeRead c id =>
    refine withTask_tokens fun r _ => call_keeps hpc rfl rfl rfl ?_ fun _ _ h => h
    split <;> rfl
  | wakeCas c id =>
    refine withTask_tokens fun r hr => ?_
    split
    · rename_i hb
      rw [hb] at hr
      refine .wake a t c id hpc hr rfl (fun l x h => ?_) fun i st => setStatus_cases s.toSchedule
      rcases at_goto h rfl (fun _ _ h => h) with ⟨hs, -⟩ | ⟨rfl, hp⟩ | ⟨rfl, hp⟩
      · exact Or.inl hs
      · exact Or.inl (by simpa [At, hpc, runs] using hp)
      · exact Or.inr ⟨rfl, (Option.some.inj hp).symm⟩
    · exact call_keeps hpc rfl rfl rfl rfl fun _ _ h => h
  | wakePush c id =>
    refine withTask_tokens fun r _ => ?_
    exact push_of (by rw [hpc]; rfl) rfl rfl rfl (by simp [hpc, runs]) rfl fun _ _ h => h
  | wakeRelease c id => exact call_keeps hpc rfl rfl rfl rfl (statuses_release id)
  | checkRelease | hitRelease | regRelease => exact call_keeps hpc rfl rfl rfl rfl fun _ _ h => h
  | sendRelease | recvRelease | isclosedRelease => exact return_keeps hpc rfl rfl rfl fun _ _ h => h
  | hitReturn | selectRelease => exact return_keeps hpc rfl rfl rfl (statuses_release t)
  | selectBlock =>
    refine withTask_tokens fun r hr => ?_
    refine .block a t (by simp [At, hpc, runs]) (by simp [hr]) (fun l x h => ?_) rfl
      fun i st h => ?_
    · rcases at_goto h rfl (fun _ _ h => h) with ⟨hs, -⟩ | ⟨rfl, hp⟩ | ⟨rfl, hp⟩
      · exact hs
      · simpa [At, hpc, runs] using hp
      · cases hp
    · exact (setStatus_cases s.toSchedule h).imp And.left id
  | openRead | openWrite => exact call_keeps hpc rfl rfl rfl rfl fun _ _ h => h
  | openNew => exact refl_keeps
  | openCas id =>
    refine withTask_tokens fun r hr => ?_
    split
    · rename_i hb
      rw [hb] at hr
      refine .opens a t id hpc hr rfl (fun l x h => ?_) fun i st => setStatus_cases s.toSchedule
      rcases at_goto h rfl (fun _ _ h => h) with ⟨hs, -⟩ | ⟨rfl, hp⟩ | ⟨rfl, hp⟩
      · exact hs
      · simpa [At, hpc, runs] using hp
      · simpa [At, hpc, carries] using hp
    · exact return_keeps hpc rfl rfl rfl fun _ _ h => h
  | openPush id =>
    refine withTask_tokens fun r _ => ?_
    exact push_of (by rw [hpc]; rfl) rfl rfl rfl (by simp [hpc, runs]) rfl fun _ _ h => h

theorem agentStep_tokens (hth : 0 < s.threads) {pc : Pc} (hpc : s.pc a = pc) :
    TokenStep s (.step a) (agentStep s a pc) := by
  cases pc with
  | idle | joined => exact refl_keeps
  | scan i =>
    simp only [agentStep]
    generalize hj : (a.thread + i) % s.threads = j
    split
    · rename_i id q hpop
      have hcont := pop_some hpop
      have hlt : j < s.threads := hj ▸ Nat.mod_lt _ hth
      refine .take a j id hlt (by simp [State.goto, State.put, hcont])
        (fun k hk => Function.update_of_ne hk ..) (fun l t h => ?_) fun _ _ h => h
      have hsub : ∀ k t, t ∈ (Function.update s.q j q k).contents → t ∈ (s.q k).contents := by
        intro k x hx
        by_cases hk : k = j
        · subst hk
          rw [Function.update_self] at hx
          rw [hcont]
          exact List.mem_cons_of_mem id hx
        · rwa [Function.update_of_ne hk] at hx
      rcases at_goto h rfl hsub with ⟨hs, -⟩ | ⟨rfl, hp⟩ | ⟨rfl, hp⟩
      · exact Or.inl hs
      · cases hp
      · exact Or.inr ⟨rfl, (Option.some.inj hp).symm⟩
    · exact keep_of rfl rfl rfl (fun _ h => by cases h) (fun _ h => by cases h) fun _ _ h => h
  | grab id =>
    simp only [agentStep]
    split
    · exact keep_of rfl rfl rfl (fun _ h => by cases h) (by simp [hpc, carries]) (statuses_grab id)
    · exact keep_of rfl rfl rfl (fun _ h => by cases h) (fun _ h => by cases h) fun _ _ h => h
  | grabAssert id =>
    refine withTask_tokens fun r _ => ?_
    split
    · exact abort_keeps
    · exact keep_of rfl rfl rfl (fun _ h => by cases h) (by simp [hpc, carries]) fun _ _ h => h
  | grabRun id =>
    refine withTask_tokens fun r hr => ?_
    refine .start a id (by simp [At, hpc, carries]) (by simp [hr]) rfl (fun l t h => ?_)
      fun i st h => ?_
    · rcases at_goto h rfl (fun _ _ h => h) with ⟨hs, -, hl⟩ | ⟨rfl, hp⟩ | ⟨rfl, hp⟩
      · exact Or.inl ⟨hs, hl⟩
      · exact Or.inr ⟨rfl, (Option.some.inj hp).symm⟩
      · cases hp
    · rw [State.goto, State.put, status_setRunning] at h
      exact (setStatus_cases s.toSchedule h).imp And.left fun hx => hx
  | grabRelease id =>
    exact keep_of rfl rfl rfl (by simp [hpc, runs]) (fun _ h => by cases h) (statuses_release id)
  | slice t =>
    simp only [agentStep]
    split
    · exact abort_keeps
    · exact refl_keeps
  | call t pc => exact callStep_tokens hpc
  | close t =>
    exact keep_of rfl rfl rfl (by simp [hpc, runs]) (fun _ h => by cases h) (statuses_release t)
  | relGrab t =>
    simp only [agentStep]
    split
    · exact keep_of rfl rfl rfl (by simp [hpc, runs]) (fun _ h => by cases h) (statuses_grab t)
    · exact keep_of rfl rfl rfl (fun _ h => by cases h) (fun _ h => by cases h) fun _ _ h => h
  | relAssert t =>
    refine withTask_tokens fun r _ => ?_
    split
    · exact abort_keeps
    · exact keep_of rfl rfl rfl (by simp [hpc, runs]) (fun _ h => by cases h) fun _ _ h => h
  | relRead t =>
    refine withTask_tokens fun r _ => ?_
    refine keep_of rfl rfl rfl ?_ ?_ fun _ _ h => h
    · split <;> simp [hpc, runs]
    · split <;> simp [carries]
  | relCas t =>
    refine withTask_tokens fun r hr => ?_
    split
    · rename_i hb
      rw [hb] at hr
      refine .back a t hpc hr rfl (fun l x h => ?_) fun i st => setStatus_cases s.toSchedule
      rcases at_goto h rfl (fun _ _ h => h) with ⟨hs, hl, -⟩ | ⟨rfl, hp⟩ | ⟨rfl, hp⟩
      · exact Or.inl ⟨hs, hl⟩
      · cases hp
      · exact Or.inr ⟨rfl, (Option.some.inj hp).symm⟩
    · exact keep_of rfl rfl rfl (fun _ h => by cases h) (fun _ h => by cases h) fun _ _ h => h
  | relPush t =>
    refine withTask_tokens fun r _ => ?_
    exact push_of (by rw [hpc]; rfl) rfl rfl rfl (fun _ h => by cases h) rfl fun _ _ h => h
  | relRelease t =>
    exact keep_of rfl rfl rfl (fun _ h => by cases h) (fun _ h => by cases h) (statuses_release t)

theorem next_tokens (hth : 0 < s.threads) (he : Enabled s e) : TokenStep s e (next s e) := by
  cases e with
  | step a => exact agentStep_tokens hth rfl
  | issue a t ud c id =>
    obtain ⟨-, hpc, hid, hnew⟩ := he
    refine .issue a t ud c id rfl hid (fun l x h => ?_) fun i st h => ?_
    · rcases at_update (s := s) h rfl rfl (fun _ _ h => h) with ⟨hs, -⟩ | ⟨rfl, hp⟩ | ⟨rfl, hp⟩
      · exact Or.inl hs
      · exact Or.inl (by simpa [At, hpc, runs] using hp)
      · exact Or.inr ⟨rfl, (Option.some.inj hp).symm⟩
    · simp only [next, State.goto, State.put, status_register] at h
      split at h
      · rename_i hi
        exact Or.inr ⟨hi, (Option.some.inj h).symm⟩
      · exact Or.inl h
  | call a t op =>
    obtain ⟨-, hpc, -⟩ := he
    have hruns : ∀ x, some t = some x → runs (s.pc a) = some x := fun x hx => by rwa [hpc]
    cases op with
    | newchannel | closechannel => exact .keep (fun _ _ h => h) rfl fun _ _ h => h
    | _ => exact keep_of rfl rfl rfl hruns (fun _ h => by cases h) fun _ _ h => h
  | yield a t =>
    obtain ⟨-, hpc, -⟩ := he
    exact keep_of rfl rfl rfl (by simp [hpc, runs]) (fun _ h => by cases h) fun _ _ h => h
  | finish a t =>
    obtain ⟨-, hpc, -⟩ := he
    exact keep_of rfl rfl rfl (by simp [hpc, runs]) (fun _ h => by cases h) fun _ _ h => h
  | run =>
    refine .keep (fun l t h => ?_) rfl fun _ _ h => h
    have hpc : ∀ b, runs ((next s .run).pc b) = none ∧ carries ((next s .run).pc b) = none := by
      rintro (_ | w)
      · exact ⟨rfl, rfl⟩
      · simp only [next]
        split <;> exact ⟨rfl, rfl⟩
    cases l with
    | run b => rw [At, (hpc b).1] at h; cases h
    | carry b => rw [At, (hpc b).2] at h; cases h
    | queue i => exact h

/-- Every place of a task comes from a place it had, from a sender that saw it blocked, or from
its `schedule_opentask`. -/
theorem TokenStep.places_from (h : TokenStep s e s') {l : Loc} {t : TaskId} (hl : At s' l t) :
    (∃ l', At s l' t) ∨ (s.status t).isSome ∨ ∃ a x ud c, e = .issue a x ud c t := by
  cases h with
  | keep places | block _ _ _ _ places => exact Or.inl ⟨l, places l t hl⟩
  | opens _ _ _ _ _ _ places => exact Or.inl ⟨l, places l t hl⟩
  | take a i id hi popped _ places =>
    rcases places l t hl with hs | ⟨-, rfl⟩
    · exact Or.inl ⟨l, hs⟩
    · exact Or.inl ⟨.queue i, hi, by simp [popped]⟩
  | start a id here _ _ places | push a i id here _ _ places =>
    rcases places l t hl with hs | ⟨-, rfl⟩
    · exact Or.inl ⟨l, hs.1⟩
    · exact Or.inl ⟨.carry a, here⟩
  | wake a x c id _ blocked _ places =>
    rcases places l t hl with hs | ⟨-, rfl⟩
    · exact Or.inl ⟨l, hs⟩
    · exact Or.inr (Or.inl (by simp [blocked]))
  | back a x pc running _ places =>
    rcases places l t hl with hs | ⟨-, rfl⟩
    · exact Or.inl ⟨l, hs.1⟩
    · exact Or.inr (Or.inl (by simp [running]))
  | issue a x ud c id _ _ places =>
    rcases places l t hl with hs | ⟨-, rfl⟩
    · exact Or.inl ⟨l, hs⟩
    · exact Or.inr (Or.inr ⟨a, x, ud, c, rfl⟩)

/-- Only `schedule_opentask` brings a task into the map. -/
theorem TokenStep.status_from (h : TokenStep s e s') {t : TaskId} {st : TaskStatus}
    (ht : s'.status t = some st) :
    (s.status t).isSome ∨ ∃ a x ud c, e = .issue a x ud c t := by
  cases h with
  | keep _ _ statuses | take _ _ _ _ _ _ _ statuses | push _ _ _ _ _ _ _ statuses =>
    exact Or.inl (by simp [statuses t st ht])
  | block a x _ live _ _ statuses | start a x _ live _ _ statuses =>
    rcases statuses t st ht with hs | ⟨rfl, -⟩
    · exact Or.inl (by simp [hs])
    · exact Or.inl live
  | wake a x c id _ hold _ _ statuses | back a id _ hold _ _ statuses
  | opens a x id _ hold _ _ statuses =>
    rcases statuses t st ht with ⟨hs, -⟩ | ⟨rfl, -⟩
    · exact Or.inl (by simp [hs])
    · exact Or.inl (by simp [hold])
  | issue a x ud c id _ _ _ statuses =>
    rcases statuses t st ht with hs | ⟨rfl, -⟩
    · exact Or.inl (by simp [hs])
    · exact Or.inr ⟨a, x, ud, c, rfl⟩

end LtaskTokens
