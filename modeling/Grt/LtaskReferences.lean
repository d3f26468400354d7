import Grt.LtaskSchedule
import Grt.TransitionSystem

/-! The references that the calls of `schedule.c` take and give back. Executed one at a time,
a call returns every reference it took, so that between two calls a handle has the one of its
creator, and closing it once takes it out of its map. -/
namespace LtaskReferences

open LtaskQueue RefCountedMap LtaskSchedule TransitionSystem

/-- What a call may do to the maps besides taking and returning references: the records stay,
and a task stays with a worker there is. -/
structure Borrow (s s' : Schedule) : Prop where
  threads : s'.threads = s.threads
  current : s'.current = s.current
  task : ∀ t, s'.task.refs t = s.task.refs t
  channel : ∀ c, s'.channel.refs c = s.channel.refs c
  record : ∀ t r', s'.task.find t = some r' →
    ∃ r, s.task.find t = some r ∧ r'.ud = r.ud ∧ (r.thread < s.threads → r'.thread < s.threads)

/-- Every handle in a map is referred to. -/
structure Positive (s : Schedule) : Prop where
  task : ∀ t n, s.task.refs t = some n → 1 ≤ n
  channel : ∀ c n, s.channel.refs c = some n → 1 ≤ n

variable {s s' s'' : Schedule} {t id : TaskId} {c : ChannelId} {status st : TaskStatus}

theorem Borrow.refl (s : Schedule) : Borrow s s :=
  ⟨rfl, rfl, fun _ => rfl, fun _ => rfl, fun _ r h => ⟨r, h, rfl, fun h => h⟩⟩

theorem Borrow.trans (h : Borrow s s') (h' : Borrow s' s'') : Borrow s s'' where
  threads := h'.threads.trans h.threads
  current := h'.current.trans h.current
  task t := (h'.task t).trans (h.task t)
  channel c := (h'.channel c).trans (h.channel c)
  record t r hr := by
    obtain ⟨r', hr', hud, hth⟩ := h'.record t r hr
    obtain ⟨r'', hr'', hud', hth'⟩ := h.record t r' hr'
    rw [h.threads] at hth
    exact ⟨r'', hr'', hud.trans hud', fun hlt => hth (hth' hlt)⟩

theorem Borrow.positive (h : Borrow s s') (hp : Positive s) : Positive s' where
  task t n hn := hp.task t n ((h.task t).symm.trans hn)
  channel c n hn := hp.channel c n ((h.channel c).symm.trans hn)

/-- Writing to the record of a task. -/
theorem borrow_modify {f : Task → Task} (hud : ∀ r, (f r).ud = r.ud)
    (hth : ∀ r, r.thread < s.threads → (f r).thread < s.threads) :
    Borrow s { s with task := s.task.modify t f } where
  threads := rfl
  current := rfl
  task _ := refs_modify ..
  channel _ := rfl
  record x r' h := by
    rcases find_modify _ h with ⟨-, hold⟩ | ⟨rfl, r, hold, rfl⟩
    · exact ⟨r', hold, rfl, fun h => h⟩
    · exact ⟨r, hold, hud r, hth r⟩

/-- Writing to a channel. -/
theorem borrow_channel (f : Channel → Channel) :
    Borrow s { s with channel := s.channel.modify c f } :=
  ⟨rfl, rfl, fun _ => rfl, fun _ => refs_modify .., fun _ r h => ⟨r, h, rfl, fun h => h⟩⟩

theorem borrow_queues (q : ℕ → Queue TaskId) : Borrow s { s with q := q } :=
  ⟨rfl, rfl, fun _ => rfl, fun _ => rfl, fun _ r h => ⟨r, h, rfl, fun h => h⟩⟩

theorem borrow_setStatus : Borrow s (s.setStatus t status) :=
  borrow_modify (fun _ => rfl) fun _ h => h

theorem borrow_commit : Borrow s (commitTask s t status) := by
  unfold commitTask
  split
  · split
    · exact borrow_setStatus.trans (borrow_queues _)
    · exact .refl s
  · exact .refl s

theorem positive_grabTask (h : Positive s) : Positive (s.grabTask t) where
  task x n hn := by
    rw [Schedule.grabTask, refs_grab] at hn
    split at hn
    · obtain ⟨m, -, rfl⟩ := Option.map_eq_some_iff.mp hn
      exact Nat.succ_pos m
    · exact h.task x n hn
  channel := h.channel

theorem positive_grabChannel (h : Positive s) : Positive (s.grabChannel c) where
  task := h.task
  channel x n hn := by
    rw [Schedule.grabChannel, refs_grab] at hn
    split at hn
    · obtain ⟨m, -, rfl⟩ := Option.map_eq_some_iff.mp hn
      exact Nat.succ_pos m
    · exact h.channel x n hn

theorem Borrow.returnTask (hp : Positive s) (h : Borrow (s.grabTask t) s') :
    Borrow s (releaseTask s' t) where
  threads := h.threads
  current := h.current
  task x := refs_borrowed h.task (hp.task t) x
  channel := h.channel
  record x r hr := by
    obtain ⟨r', hr', h⟩ := h.record x r (find_release _ hr)
    exact ⟨r', by rwa [Schedule.grabTask, find_grab] at hr', h⟩

theorem Borrow.returnChannel (hp : Positive s) (h : Borrow (s.grabChannel c) s') :
    Borrow s (releaseChannel s' c) where
  threads := h.threads
  current := h.current
  task := h.task
  channel x := refs_borrowed h.channel (hp.channel c) x
  record := h.record

theorem Positive.task_count (h : Positive s) {r : Task} (ht : s.task.find t = some r) :
    1 ≤ s.task.count t := by
  obtain ⟨x, hx, -⟩ := Option.map_eq_some_iff.mp ht
  have hrefs : s.task.refs t = some x.2 := by simp [RefMap.refs, hx]
  rw [count_of_refs _ hrefs]
  exact h.task t x.2 hrefs

theorem Positive.channel_count (h : Positive s) {ch : Channel}
    (hc : s.channel.find c = some ch) : 1 ≤ s.channel.count c := by
  obtain ⟨x, hx, -⟩ := Option.map_eq_some_iff.mp hc
  have hrefs : s.channel.refs c = some x.2 := by simp [RefMap.refs, hx]
  rw [count_of_refs _ hrefs]
  exact h.channel c x.2 hrefs

theorem status_find (h : s.status t = some st) : ∃ r, s.task.find t = some r ∧ r.status = st := by
  obtain ⟨r, hr, hst⟩ := Option.map_eq_some_iff.mp h
  exact ⟨r.1, by simp [RefMap.find, hr], hst⟩

theorem releaseTask_grab (h : Positive s) {r : Task} (ht : s.task.find t = some r) :
    releaseTask (s.grabTask t) t = s := by
  unfold releaseTask Schedule.grabTask
  rw [release_grab _ (h.task_count ht)]

theorem releaseChannel_grab (h : Positive s) {ch : Channel} (hc : s.channel.find c = some ch) :
    releaseChannel (s.grabChannel c) c = s := by
  unfold releaseChannel Schedule.grabChannel
  rw [release_grab _ (h.channel_count hc)]

/-- A call that writes to the channel it holds. -/
theorem release_write (h : Positive s) {ch : Channel} (hc : s.channel.find c = some ch)
    (f : Channel → Channel) :
    releaseChannel { s.grabChannel c with channel := (s.grabChannel c).channel.modify c f } c =
      { s with channel := s.channel.modify c f } := by
  unfold releaseChannel Schedule.grabChannel
  rw [release_modify_grab _ f (h.channel_count hc)]

/-- A call that only asks leaves everything as it was. -/
theorem scheduleIsclosed_eq (h : Positive s) : (scheduleIsclosed s c).2 = s := by
  cases hch : s.channel.find c with
  | none => simp only [scheduleIsclosed, hch]
  | some ch =>
    simp only [scheduleIsclosed, hch]
    exact releaseChannel_grab h hch

theorem commitTask_found {r : Task} (ht : s.task.find t = some r) :
    commitTask s t st =
      if r.status = st then (s.setStatus t .ready).pushReady r.thread t else s := by
  simp [commitTask, ht]

theorem releaseTask_commit (h : Positive s) {r : Task} (ht : s.task.find t = some r) :
    releaseTask (commitTask (s.grabTask t) t st) t = commitTask s t st := by
  have hgrab : (s.grabTask t).task.find t = some r := (find_grab ..).trans ht
  rw [commitTask_found hgrab, commitTask_found ht]
  split
  · unfold releaseTask Schedule.grabTask Schedule.pushReady Schedule.setStatus
    rw [release_modify_grab _ _ (h.task_count ht)]
  · exact releaseTask_grab h ht

theorem scheduleReleasetask_eq (h : Positive s) (hst : s.status t = some st) (hne : st ≠ .ready) :
    scheduleReleasetask s t = some (commitTask s t .running) := by
  obtain ⟨r, ht, rfl⟩ := status_find hst
  simp only [scheduleReleasetask, ht]
  rw [if_neg hne]
  by_cases hrun : r.status = .running
  · rw [if_pos hrun, releaseTask_commit h ht]
  · rw [if_neg hrun, releaseTask_grab h ht, commitTask_found ht, if_neg hrun]

theorem wakeReader_eq (h : Positive s) : wakeReader s t = commitTask s t .blocked := by
  unfold wakeReader
  split
  · rename_i r ht
    dsimp only
    by_cases hst : r.status = .blocked
    · rw [if_pos hst, releaseTask_commit h ht]
    · rw [if_neg hst, releaseTask_grab h ht, commitTask_found ht, if_neg hst]
  · rename_i ht
    simp [commitTask, ht]

theorem popReady_borrow {thread : ℕ} : ∀ {k id s'}, popReady s thread k = some (id, s') →
    Borrow s s' := by
  intro k
  induction k with
  | zero => intro id s' h; cases h
  | succ k ih =>
    intro id s' h
    simp only [popReady] at h
    split at h
    · cases h
      exact borrow_queues _
    · exact ih h

theorem grabLoop_borrow {thread fuel : ℕ} (hp : Positive s) (hth : thread < s.threads)
    {r : Option (TaskId × Ptr)} (h : grabLoop thread fuel s = some (r, s')) : Borrow s s' := by
  induction fuel generalizing s with
  | zero => cases h
  | succ fuel ih =>
    simp only [grabLoop] at h
    split at h
    · cases h
      exact .refl _
    · rename_i id s₁ hpop
      have hb := popReady_borrow hpop
      have hp₁ := hb.positive hp
      split at h
      · exact hb.trans (ih hp₁ (hb.threads ▸ hth) h)
      · split at h
        · cases h
        · cases h
          have hrun : Borrow (s₁.grabTask id) ((s₁.grabTask id).setRunning id thread) :=
            borrow_modify (fun _ => rfl) fun _ _ => (hb.threads ▸ hth : thread < s₁.threads)
          exact hb.trans (hrun.returnTask hp₁)

theorem grabtask_borrow {thread : ℕ} (hp : Positive s) (hth : thread < s.threads)
    {r : Option (TaskId × Ptr)} (h : scheduleGrabtask s thread = some (r, s')) : Borrow s s' :=
  grabLoop_borrow hp hth h

/-- `schedule_releasetask` finds no task, or puts the task back if it was running. -/
theorem scheduleReleasetask_cases (h : scheduleReleasetask s id = some s') :
    s' = s ∨ s' = releaseTask (s.grabTask id) id ∨
      s' = releaseTask (commitTask (s.grabTask id) id .running) id := by
  unfold scheduleReleasetask at h
  split at h
  · exact Or.inl (Option.some.inj h).symm
  · dsimp only at h
    split at h
    · cases h
    · split at h
      · exact Or.inr (Or.inr (Option.some.inj h).symm)
      · exact Or.inr (Or.inl (Option.some.inj h).symm)

theorem releasetask_borrow (hp : Positive s) (h : scheduleReleasetask s id = some s') :
    Borrow s s' := by
  rcases scheduleReleasetask_cases h with rfl | rfl | rfl
  · exact .refl s'
  · exact Borrow.returnTask hp (.refl _)
  · exact Borrow.returnTask hp borrow_commit

theorem selectCheck_borrow (hp : Positive s) (channels : List ChannelId) :
    Borrow s (selectCheck s channels).2 := by
  induction channels generalizing s with
  | nil => exact .refl s
  | cons c channels ih =>
    simp only [selectCheck]
    split
    · have hb : Borrow s (releaseChannel (s.grabChannel c) c) := (Borrow.refl _).returnChannel hp
      split
      · exact hb.trans (ih (hb.positive hp))
      · exact hb
    · exact ih hp

theorem selectRegister_borrow (hp : Positive s) (channels : List ChannelId) :
    Borrow s (selectRegister s t channels) := by
  induction channels generalizing s with
  | nil => exact .refl s
  | cons c channels ih =>
    simp only [selectRegister]
    split
    · have hb : Borrow s (releaseChannel ((s.grabChannel c).pushReader c t) c) :=
        (borrow_channel _).returnChannel hp
      exact hb.trans (ih (hb.positive hp))
    · exact ih hp

theorem select_borrow (hp : Positive s) (channels : List ChannelId) :
    Borrow s (scheduleSelect s id channels).2 := by
  have hcheck := selectCheck_borrow (positive_grabTask (t := id) hp) channels
  unfold scheduleSelect
  split
  · exact .refl s
  · split
    · rename_i hc
      rw [hc] at hcheck
      exact hcheck.returnTask hp
    · rename_i s₁ hc
      rw [hc] at hcheck
      have hset : Borrow s₁ (s₁.setStatus id .blocked) := borrow_setStatus
      have hblock := hcheck.trans hset
      have hreg := selectRegister_borrow (t := id) (hblock.positive (positive_grabTask hp)) channels
      exact (hblock.trans hreg).returnTask hp

theorem isclosed_borrow (hp : Positive s) : Borrow s (scheduleIsclosed s c).2 := by
  rw [scheduleIsclosed_eq hp]
  exact .refl s

theorem recv_borrow (hp : Positive s) : Borrow s (scheduleRecv s c).2 := by
  unfold scheduleRecv
  split
  · dsimp only
    split
    · exact (borrow_channel _).returnChannel hp
    · exact (Borrow.refl _).returnChannel hp
  · exact .refl s

theorem wakeReader_borrow (hp : Positive s) (id : TaskId) : Borrow s (wakeReader s id) := by
  rw [wakeReader_eq hp]
  exact borrow_commit

theorem wakeLoop_borrow {fuel : ℕ} (hp : Positive s) (h : wakeLoop c fuel s = some s') :
    Borrow s s' := by
  induction fuel generalizing s with
  | zero => cases h
  | succ fuel ih =>
    simp only [wakeLoop] at h
    split at h
    · cases h
    · split at h
      · cases h
        exact .refl _
      · rename_i id reader _
        have hset : Borrow s (s.setReader c reader) := borrow_channel _
        have hb := hset.trans (wakeReader_borrow (hset.positive hp) id)
        exact hb.trans (ih (hb.positive hp) h)

theorem send_borrow {msg : Ptr} (hp : Positive s) (h : scheduleSend s c msg = some s') :
    Borrow s s' := by
  unfold scheduleSend at h
  split at h
  · obtain ⟨s₁, hloop, rfl⟩ := Option.map_eq_some_iff.mp h
    have hpush : Borrow (s.grabChannel c) ((s.grabChannel c).pushMessage c msg) := borrow_channel _
    have hwake := wakeLoop_borrow (hpush.positive (positive_grabChannel hp)) hloop
    exact (hpush.trans hwake).returnChannel hp
  · cases h
    exact .refl _

theorem wakeReader_keeps : (wakeReader s id).channel = s.channel := by
  have h := wakeReader_channel (s := s) (t := id) s.channel
  exact (congrArg Schedule.channel h :)

/-- Every turn takes a reader off the queue. -/
theorem wakeLoop_ends {fuel : ℕ} {ch : Channel} (hch : s.channel.find c = some ch)
    (hfuel : ch.reader.length < fuel) : (wakeLoop c fuel s).isSome := by
  induction fuel generalizing s ch with
  | zero => exact absurd hfuel (Nat.not_lt_zero _)
  | succ fuel ih =>
    simp only [wakeLoop, hch]
    split
    · rfl
    · rename_i id reader hpop
      have hlen : ch.reader.length = reader.length + 1 := by
        rw [← length_contents, pop_some hpop, List.length_cons, length_contents]
      have hnext : (wakeReader (s.setReader c reader) id).channel.find c =
          some { ch with reader := reader } := by
        obtain ⟨r, hr, rfl⟩ := Option.map_eq_some_iff.mp hch
        simp [wakeReader_keeps, Schedule.setReader, RefMap.find, hr]
      apply ih hnext
      change reader.length < fuel
      omega

theorem send_returns {msg : Ptr} : (scheduleSend s c msg).isSome := by
  unfold scheduleSend
  split
  · rename_i ch hch
    rw [Option.isSome_map]
    have hpush : ((s.grabChannel c).pushMessage c msg).channel.find c =
        some { ch with mq := ch.mq.push msg } := by
      obtain ⟨r, hr, rfl⟩ := Option.map_eq_some_iff.mp hch
      simp [Schedule.pushMessage, Schedule.grabChannel, RefMap.find, hr]
    exact wakeLoop_ends hpush (Nat.lt_succ_self _)
  · rfl

/-- A pop takes one entry off one ready queue. -/
theorem popReady_cases {thread : ℕ} (hth : 0 < s.threads) :
    ∀ {k}, popReady s thread k = some (id, s') → s'.task = s.task ∧ s'.threads = s.threads ∧
      ∃ i < s.threads, (s.q i).contents = id :: (s'.q i).contents ∧
        ∀ j, j ≠ i → s'.q j = s.q j := by
  intro k
  induction k with
  | zero => intro h; cases h
  | succ k ih =>
    intro h
    simp only [popReady] at h
    split at h
    · rename_i hpop
      cases h
      refine ⟨rfl, rfl, _, Nat.mod_lt _ hth, ?_, fun j hj => Function.update_of_ne hj ..⟩
      simp [pop_some hpop]
    · exact ih h

theorem sum_take {f g : ℕ → ℕ} {i : ℕ} (hi : f i = g i + 1) (hother : ∀ j, j ≠ i → f j = g j)
    {l : List ℕ} (hnodup : l.Nodup) (hmem : i ∈ l) : (l.map f).sum = (l.map g).sum + 1 := by
  induction l with
  | nil => cases hmem
  | cons j l ih =>
    obtain ⟨hj, hnodup⟩ := List.nodup_cons.mp hnodup
    rw [List.map_cons, List.sum_cons, List.map_cons, List.sum_cons]
    by_cases hji : j = i
    · subst hji
      have hrest : l.map f = l.map g :=
        List.map_congr_left fun k hk => hother k fun hkj => hj (hkj ▸ hk)
      rw [hi, hrest]
      omega
    · rw [hother j hji, ih hnodup ((List.mem_cons.mp hmem).resolve_left (Ne.symm hji))]
      omega

theorem readyCount_pop (hth : s'.threads = s.threads) {i : ℕ} (hi : i < s.threads)
    (hpop : (s.q i).contents = id :: (s'.q i).contents) (hother : ∀ j, j ≠ i → s'.q j = s.q j) :
    readyCount s = readyCount s' + 1 := by
  have hlen : (s.q i).length = (s'.q i).length + 1 := by
    rw [← length_contents, hpop, List.length_cons, length_contents]
  rw [readyCount, readyCount, hth]
  exact sum_take hlen (fun j hj => by rw [hother j hj]) List.nodup_range (List.mem_range.mpr hi)

/-- `schedule_grabtask` aborts only on a running task in a ready queue. -/
theorem grabLoop_aborts {thread fuel : ℕ} (hth : 0 < s.threads) (hfuel : readyCount s < fuel)
    (h : grabLoop thread fuel s = none) :
    ∃ id, s.status id = some .running ∧ ∃ i < s.threads, id ∈ (s.q i).contents := by
  induction fuel generalizing s with
  | zero => exact absurd hfuel (Nat.not_lt_zero _)
  | succ fuel ih =>
    simp only [grabLoop] at h
    split at h
    · cases h
    · rename_i id s₁ hpop
      obtain ⟨htask, hth₁, i, hi, hcont, hother⟩ := popReady_cases hth hpop
      have hcount := readyCount_pop hth₁ hi hcont hother
      split at h
      · obtain ⟨x, hx, j, hj, hmem⟩ := ih (hth₁ ▸ hth) (by omega) h
        refine ⟨x, by rwa [Schedule.status, htask] at hx, j, hth₁ ▸ hj, ?_⟩
        by_cases hji : j = i
        · subst hji
          rw [hcont]
          exact List.mem_cons_of_mem id hmem
        · rwa [hother j hji] at hmem
      · rename_i r hr
        split at h
        · rename_i hrun
          refine ⟨id, ?_, i, hi, by simp [hcont]⟩
          have hst := find_status s₁ hr
          rwa [hrun, Schedule.status, htask] at hst
        · cases h

theorem grabtask_aborts {thread : ℕ} (hth : 0 < s.threads)
    (h : scheduleGrabtask s thread = none) :
    ∃ id, s.status id = some .running ∧ ∃ i < s.threads, id ∈ (s.q i).contents :=
  grabLoop_aborts hth (Nat.lt_succ_self _) h

theorem releasetask_aborts (h : scheduleReleasetask s t = none) : s.status t = some .ready := by
  unfold scheduleReleasetask at h
  split at h
  · cases h
  · rename_i r hr
    dsimp only at h
    split at h
    · rename_i hready
      rw [find_status s hr, hready]
    · cases h

/-- `opentask` and `newchannel` take the handle they get; `grow` is a growth of a handle map,
which may drop the handle in its first slot. -/
inductive Call where
  | opentask (ud : Ptr) (id : TaskId)
  | closetask (t : TaskId)
  | grabtask (thread : ℕ)
  | releasetask (t : TaskId)
  | select (t : TaskId) (channels : List ChannelId)
  | newchannel (id : ChannelId)
  | closechannel (c : ChannelId)
  | isclosed (c : ChannelId)
  | recv (c : ChannelId)
  | send (c : ChannelId) (msg : Ptr)
  | growTasks (lost : TaskId)
  | growChannels (lost : ChannelId)
  deriving DecidableEq

/-- The schedule after a call; `none` when an assertion fails. -/
def call (s : Schedule) : Call → Option Schedule
  | .opentask ud id => some (scheduleOpentask s ud id)
  | .closetask t => some (scheduleClosetask s t)
  | .grabtask thread => (scheduleGrabtask s thread).map Prod.snd
  | .releasetask t => scheduleReleasetask s t
  | .select t channels => some (scheduleSelect s t channels).2
  | .newchannel id => some (scheduleNewchannel s id)
  | .closechannel c => some (scheduleClosechannel s c)
  | .isclosed c => some (scheduleIsclosed s c).2
  | .recv c => some (scheduleRecv s c).2
  | .send c msg => scheduleSend s c msg
  | .growTasks lost => some { s with task := Function.update s.task lost none }
  | .growChannels lost => some { s with channel := Function.update s.channel lost none }

/-- The calls that leave no handle behind and take none away. -/
def Call.borrows : Call → Prop
  | .grabtask _ | .releasetask _ | .select .. | .isclosed _ | .recv _ | .send .. => True
  | _ => False

/-- A new handle is not 0 and not live; a worker is one of the pool. -/
def CallEnabled (s : Schedule) : Call → Prop
  | .opentask _ id => id ≠ 0 ∧ (s.task id).isNone
  | .newchannel id => id ≠ 0 ∧ (s.channel id).isNone
  | .grabtask thread => thread < s.threads
  | .send _ msg => msg ≠ 0
  | _ => True

instance (s : Schedule) (c : Call) : Decidable (CallEnabled s c) :=
  match c with
  | .opentask _ id => inferInstanceAs (Decidable (id ≠ 0 ∧ (s.task id).isNone))
  | .newchannel id => inferInstanceAs (Decidable (id ≠ 0 ∧ (s.channel id).isNone))
  | .grabtask thread => inferInstanceAs (Decidable (thread < s.threads))
  | .send _ msg => inferInstanceAs (Decidable (msg ≠ 0))
  | .closetask _ | .releasetask _ | .select .. | .closechannel _ | .isclosed _ | .recv _
  | .growTasks _ | .growChannels _ => isTrue trivial

/-- One call after the other, with any arguments. -/
def callSystem (threads : ℕ) : System (Option Schedule) Call where
  start s := 0 < threads ∧ s = some (scheduleCreate threads)
  enabled s c := s.elim False fun sched => CallEnabled sched c
  next s c := s.bind fun sched => call sched c

instance (threads : ℕ) (s : Option Schedule) (c : Call) :
    Decidable ((callSystem threads).enabled s c) :=
  match s with
  | none => inferInstanceAs (Decidable False)
  | some sched => inferInstanceAs (Decidable (CallEnabled sched c))

/-- Between two calls a handle has one reference. -/
structure Balanced (s : Schedule) : Prop where
  task : ∀ t n, s.task.refs t = some n → n = 1
  channel : ∀ c n, s.channel.refs c = some n → n = 1

theorem Balanced.positive (h : Balanced s) : Positive s where
  task t n hn := (h.task t n hn).ge
  channel c n hn := (h.channel c n hn).ge

theorem Borrow.balanced (h : Borrow s s') (hb : Balanced s) : Balanced s' where
  task t n hn := hb.task t n ((h.task t).symm.trans hn)
  channel c n hn := hb.channel c n ((h.channel c).symm.trans hn)

theorem create_balanced (threads : ℕ) : Balanced (scheduleCreate threads) where
  task _ _ h := by cases h
  channel _ _ h := by cases h

/-- Registering a handle, releasing one and losing one are all that changes a count. -/
theorem refs_register_one {α : Type*} {A : RefMap α} (h : ∀ i n, A.refs i = some n → n = 1)
    (i : ℕ) (v : α) : ∀ j n, (A.register i v).refs j = some n → n = 1 := by
  intro j n hn
  rw [refs_register] at hn
  split at hn
  · exact (Option.some.inj hn).symm
  · exact h j n hn

theorem refs_release_one {α : Type*} {A : RefMap α} (h : ∀ i n, A.refs i = some n → n = 1)
    (i : ℕ) : ∀ j n, (A.release i).refs j = some n → n = 1 := by
  intro j n hn
  rw [refs_release] at hn
  split at hn
  · obtain ⟨m, hm, hif⟩ := Option.bind_eq_some_iff.mp hn
    rw [if_pos (h i m hm).le] at hif
    cases hif
  · exact h j n hn

theorem refs_lose_one {α : Type*} {A : RefMap α} (h : ∀ i n, A.refs i = some n → n = 1)
    (i : ℕ) : ∀ j n, RefMap.refs (Function.update A i none) j = some n → n = 1 := by
  intro j n hn
  by_cases hj : j = i
  · subst hj
    simp [RefMap.refs] at hn
  · rw [RefMap.refs, Function.update_of_ne hj] at hn
    exact h j n hn

theorem call_borrow {c : Call} (hp : Positive s) (hc : c.borrows) (he : CallEnabled s c)
    (h : call s c = some s') : Borrow s s' := by
  cases c with
  | grabtask thread =>
    obtain ⟨⟨r, s₁⟩, hgrab, rfl⟩ := Option.map_eq_some_iff.mp h
    exact grabtask_borrow hp he hgrab
  | releasetask t => exact releasetask_borrow hp h
  | select t channels => exact Option.some.inj h ▸ select_borrow hp channels
  | isclosed c => exact Option.some.inj h ▸ isclosed_borrow hp
  | recv c => exact Option.some.inj h ▸ recv_borrow hp
  | send c msg => exact send_borrow hp h
  | _ => cases hc

theorem call_balanced {c : Call} (hb : Balanced s) (he : CallEnabled s c)
    (h : call s c = some s') : Balanced s' := by
  cases c with
  | opentask ud id =>
    cases h
    exact borrow_commit.balanced ⟨refs_register_one hb.task _ _, hb.channel⟩
  | closetask t =>
    cases h
    exact ⟨refs_release_one hb.task t, hb.channel⟩
  | newchannel id =>
    cases h
    exact ⟨hb.task, refs_register_one hb.channel _ _⟩
  | closechannel c =>
    cases h
    exact ⟨hb.task, refs_release_one hb.channel c⟩
  | growTasks lost =>
    cases h
    exact ⟨refs_lose_one hb.task lost, hb.channel⟩
  | growChannels lost =>
    cases h
    exact ⟨hb.task, refs_lose_one hb.channel lost⟩
  | grabtask | releasetask | select | isclosed | recv | send =>
    exact (call_borrow hb.positive (by trivial) he h).balanced hb

theorem call_threads {c : Call} (hb : Balanced s) (he : CallEnabled s c)
    (h : call s c = some s') : s'.threads = s.threads := by
  cases c with
  | opentask ud id =>
    cases h
    exact borrow_commit.threads
  | closetask | newchannel | closechannel | growTasks | growChannels =>
    cases h
    rfl
  | grabtask | releasetask | select | isclosed | recv | send =>
    exact (call_borrow hb.positive (by trivial) he h).threads

theorem reachable_balanced {threads : ℕ} (h : Reachable (callSystem threads) (some s)) :
    Balanced s ∧ s.threads = threads ∧ 0 < threads := by
  have := h.invariant (I := fun r => ∀ s, r = some s →
    Balanced s ∧ s.threads = threads ∧ 0 < threads) ?_ ?_
  · exact this s rfl
  · rintro r ⟨hpos, rfl⟩ s hs
    obtain rfl := Option.some.inj hs
    exact ⟨create_balanced threads, rfl, hpos⟩
  · intro r c _ ih he s hs
    cases r with
    | none => cases hs
    | some sched =>
      obtain ⟨hb, hth, hpos⟩ := ih sched rfl
      exact ⟨call_balanced hb he hs, (call_threads hb he hs).trans hth, hpos⟩

/-- Between calls the count of every handle in a map is 1; closing one takes its record out, to
be freed; and the other calls leave all counts as they were, whichever way they return. A call
that does not return has found a running task in a ready queue or been given a ready one. -/
theorem references_balanced {threads : ℕ} (h : Reachable (callSystem threads) (some s)) :
    (∀ t n, s.task.refs t = some n → n = 1) ∧ (∀ c n, s.channel.refs c = some n → n = 1) ∧
      (∀ t, (s.task t).isSome → (s.task.released t).isSome ∧
        s.task.released t = s.task.find t ∧ (scheduleClosetask s t).task t = none) ∧
      (∀ c, (s.channel c).isSome → (s.channel.released c).isSome ∧
        s.channel.released c = s.channel.find c ∧ (scheduleClosechannel s c).channel c = none) ∧
      ∀ c, c.borrows → CallEnabled s c →
        (∀ s', call s c = some s' → (∀ t, s'.task.refs t = s.task.refs t) ∧
          ∀ i, s'.channel.refs i = s.channel.refs i) ∧
        (call s c = none →
          (∃ id, s.status id = some .running ∧ ∃ i < threads, id ∈ (s.q i).contents) ∨
          ∃ t, c = .releasetask t ∧ s.status t = some .ready) := by
  obtain ⟨hb, hth, hpos⟩ := reachable_balanced h
  have last : ∀ {α : Type} {A : RefMap α} {i : ℕ}, (∀ i n, A.refs i = some n → n = 1) →
      (A i).isSome → (A.released i).isSome ∧ A.released i = A.find i ∧ A.release i i = none := by
    intro α A i hA hi
    rw [← refs_isSome] at hi
    obtain ⟨n, hn⟩ := Option.isSome_iff_exists.mp hi
    obtain ⟨h₁, h₂, h₃⟩ := released_last A (hA i n hn ▸ hn)
    exact ⟨h₁ ▸ h₂, h₁, h₃⟩
  refine ⟨hb.task, hb.channel, fun t ht => last hb.task ht, fun c hc => last hb.channel hc,
    fun c hc he => ⟨fun s' hs' => ?_, fun hnone => ?_⟩⟩
  · have := call_borrow hb.positive hc he hs'
    exact ⟨this.task, this.channel⟩
  · cases c with
    | grabtask thread =>
      exact Or.inl (hth ▸ grabtask_aborts (hth ▸ hpos) (Option.map_eq_none_iff.mp hnone))
    | releasetask t => exact Or.inr ⟨t, rfl, releasetask_aborts hnone⟩
    | send c msg =>
      have hsome : (scheduleSend s c msg).isSome := send_returns
      rw [show scheduleSend s c msg = none from hnone] at hsome
      cases hsome
    | select | isclosed | recv => cases hnone
    | _ => cases hc

/-- A task waits for a channel twice and for one that is not there, and is woken. -/
def sampleCalls : List Call :=
  [.opentask 101 1, .newchannel 1, .grabtask 1, .select 1 [1, 7, 1], .isclosed 7, .recv 1,
    .releasetask 1, .send 1 9, .closechannel 7, .closetask 5]

def sampleRun : Schedule :=
  (runTrace (callSystem 2) (some (scheduleCreate 2)) sampleCalls).getD (scheduleCreate 2)

theorem references_balanced_sampleRun :
    sampleRun.task.refs 1 = some 1 ∧ (scheduleClosetask sampleRun 1).task 1 = none ∧
      (scheduleClosechannel sampleRun 1).channel 1 = none :=
  have hrun : Reachable (callSystem 2)
      (runTrace (callSystem 2) (some (scheduleCreate 2)) sampleCalls) :=
    .run (.start ⟨by decide, rfl⟩) (by decide +kernel)
  have h := references_balanced (s := sampleRun) hrun
  ⟨by decide +kernel, (h.2.2.1 1 (by decide +kernel)).2.2, (h.2.2.2.1 1 (by decide +kernel)).2.2⟩

end LtaskReferences
