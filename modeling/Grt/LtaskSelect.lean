import Grt.LtaskReferences

/-! `schedule_select`: the first open channel of the list that has a message, or a task that is
blocked and registered with every open channel of the list. A select that finds a message
leaves the status as it is, so a task that was blocked by an earlier select of its slice stays
blocked although it has work. -/
namespace LtaskSelect

open LtaskQueue RefCountedMap LtaskSchedule LtaskReferences TransitionSystem

variable {s s' : Schedule} {t id : TaskId} {c d : ChannelId}

theorem messages_live (h : s.messages c ≠ []) : (s.channel c).isSome := by
  rw [← isSome_find]
  by_contra hnone
  apply h
  rw [Schedule.messages, Option.not_isSome_iff_eq_none.mp hnone]
  rfl

/-- The first loop looks for a channel that has a message. -/
theorem selectCheck_eq (h : Positive s) (channels : List ChannelId) :
    selectCheck s channels = (channels.find? fun c => s.messages c ≠ [], s) := by
  induction channels with
  | nil => rfl
  | cons c channels ih =>
    cases hch : s.channel.find c with
    | none =>
      have hnone : s.messages c = [] := by simp [Schedule.messages, hch]
      simp only [selectCheck, hch]
      rw [ih, List.find?_cons_of_neg (by simpa using hnone)]
    | some ch =>
      obtain ⟨-, -, hm⟩ := channel_found s hch
      simp only [selectCheck, hch]
      rw [releaseChannel_grab h hch]
      by_cases hempty : ch.mq.contents = []
      · rw [if_pos ((queueEmpty_iff ch.mq).mpr hempty), ih,
          List.find?_cons_of_neg (by simpa [hm] using hempty)]
      · rw [if_neg (mt (queueEmpty_iff ch.mq).mp hempty),
          List.find?_cons_of_pos (by simpa [hm] using hempty)]

/-- The task at the end of the reader queue of each open channel of the list. -/
def registerReaders (t : TaskId) (A : RefMap Channel) (channels : List ChannelId) :
    RefMap Channel :=
  channels.foldl (fun A c => A.modify c fun ch => { ch with reader := ch.reader.push t }) A

theorem selectRegister_eq (h : Positive s) (channels : List ChannelId) :
    selectRegister s t channels =
      { s with channel := registerReaders t s.channel channels } := by
  induction channels generalizing s with
  | nil => rfl
  | cons c channels ih =>
    let f : Channel → Channel := fun ch => { ch with reader := ch.reader.push t }
    cases hch : s.channel.find c with
    | none =>
      have hnone : s.channel c = none := Option.map_eq_none_iff.mp hch
      simp only [selectRegister, hch, registerReaders, List.foldl_cons]
      rw [modify_absent _ _ hnone]
      exact ih h
    | some ch =>
      have hstep : releaseChannel ((s.grabChannel c).pushReader c t) c =
          { s with channel := s.channel.modify c f } := release_write h hch f
      simp only [selectRegister, hch]
      rw [hstep]
      exact ih ((borrow_channel f).positive h)

theorem isSome_registerReaders (channels : List ChannelId) :
    ∀ A d, (registerReaders t A channels d).isSome = (A d).isSome := by
  induction channels with
  | nil => intro A d; rfl
  | cons c channels ih =>
    intro A d
    exact (ih _ d).trans (isSome_modify ..)

theorem count_registerReaders (channels : List ChannelId) :
    ∀ A d, (registerReaders t A channels).count d = A.count d := by
  induction channels with
  | nil => intro A d; rfl
  | cons c channels ih =>
    intro A d
    exact (ih _ d).trans (count_modify ..)

/-- What one push to the reader queue of `c` does to the queues of `d`. -/
theorem pushReader_queues (s : Schedule) (t : TaskId) (c d : ChannelId) :
    (s.pushReader c t).messages d = s.messages d ∧
      ((s.channel d).isSome →
        (s.pushReader c t).readers d = s.readers d ++ if d = c then [t] else []) := by
  cases hch : s.channel.find c with
  | none =>
    have hnone : s.channel c = none := Option.map_eq_none_iff.mp hch
    have hsame : s.pushReader c t = s := by
      rw [Schedule.pushReader, modify_absent _ _ hnone]
    rw [hsame]
    refine ⟨rfl, fun hd => ?_⟩
    have hdc : d ≠ c := by
      rintro rfl
      rw [hnone] at hd
      cases hd
    rw [if_neg hdc, List.append_nil]
  | some ch =>
    let f : Channel → Channel := fun ch => { ch with reader := ch.reader.push t }
    obtain ⟨-, hother, hr, hm, hr', hm'⟩ :=
      find_modified s (s.pushReader c t) (f := f) rfl hch
    by_cases hdc : d = c
    · subst hdc
      rw [hm, hm', hr, hr', if_pos rfl]
      exact ⟨rfl, fun _ => push_contents ch.reader t⟩
    · rw [(hother d hdc).1, (hother d hdc).2, if_neg hdc, List.append_nil]
      exact ⟨rfl, fun _ => rfl⟩

theorem messages_registerReaders (channels : List ChannelId) : ∀ s : Schedule,
    ({ s with channel := registerReaders t s.channel channels } : Schedule).messages d =
      s.messages d := by
  induction channels with
  | nil => intro s; rfl
  | cons c channels ih =>
    intro s
    exact (ih (s.pushReader c t)).trans (pushReader_queues s t c d).1

/-- An open channel gets the task once for each time it is in the list. -/
theorem readers_registerReaders (channels : List ChannelId) :
    ∀ s : Schedule, (s.channel d).isSome →
      ({ s with channel := registerReaders t s.channel channels } : Schedule).readers d =
        s.readers d ++ List.replicate (channels.count d) t := by
  induction channels with
  | nil => intro s _; exact (List.append_nil _).symm
  | cons c channels ih =>
    intro s hd
    have hopen : ((s.pushReader c t).channel d).isSome := by
      rwa [Schedule.pushReader, isSome_modify]
    have hrest := ih (s.pushReader c t) hopen
    rw [(pushReader_queues s t c d).2 hd, List.append_assoc] at hrest
    refine hrest.trans (congrArg (s.readers d ++ ·) ?_)
    by_cases hdc : d = c
    · subst hdc
      rw [if_pos rfl, List.count_cons_self, List.replicate_succ, List.singleton_append]
    · rw [if_neg hdc, List.count_cons_of_ne (Ne.symm hdc), List.nil_append]

/-- A blocked task in the reader queues of the open channels of the list. -/
def block (s : Schedule) (t : TaskId) (channels : List ChannelId) : Schedule :=
  { s.setStatus t .blocked with channel := registerReaders t s.channel channels }

theorem scheduleSelect_eq (h : Positive s) (ht : (s.task t).isSome) (channels : List ChannelId) :
    scheduleSelect s t channels =
      match channels.find? fun c => s.messages c ≠ [] with
      | some c => (c, s)
      | none => (0, block s t channels) := by
  rw [← isSome_find] at ht
  obtain ⟨r, hr⟩ := Option.isSome_iff_exists.mp ht
  simp only [scheduleSelect, hr]
  rw [selectCheck_eq (positive_grabTask h)]
  have hmsg : (fun c => decide ((s.grabTask t).messages c ≠ [])) =
    fun c => decide (s.messages c ≠ []) := rfl
  rw [hmsg]
  cases channels.find? fun c => s.messages c ≠ [] with
  | some c => exact congrArg (Prod.mk c) (releaseTask_grab h hr)
  | none =>
    have hp : Positive ((s.grabTask t).setStatus t .blocked) :=
      borrow_setStatus.positive (positive_grabTask h)
    refine congrArg (Prod.mk 0) ?_
    rw [selectRegister_eq hp]
    unfold releaseTask block Schedule.setStatus Schedule.grabTask
    rw [release_modify_grab _ _ (h.task_count hr)]

theorem scheduleSelect_absent (ht : s.task t = none) (channels : List ChannelId) :
    scheduleSelect s t channels = (0, s) := by
  have hfind : s.task.find t = none := by simp [RefMap.find, ht]
  simp only [scheduleSelect, hfind]

/-- No channel has the handle 0, and tasks are with workers of the pool. -/
structure InPool (s : Schedule) : Prop where
  zero : s.channel 0 = none
  current : s.current < s.threads
  thread : ∀ t r, s.task.find t = some r → r.thread < s.threads

theorem borrow_inPool (h : Borrow s s') (hs : InPool s) : InPool s' where
  zero := by
    have hrefs := h.channel 0
    rw [RefMap.refs, RefMap.refs, hs.zero] at hrefs
    exact Option.map_eq_none_iff.mp hrefs
  current := by
    rw [h.current, h.threads]
    exact hs.current
  thread t r hr := by
    obtain ⟨r', hr', -, hth⟩ := h.record t r hr
    rw [h.threads]
    exact hth (hs.thread t r' hr')

theorem create_inPool {threads : ℕ} (h : 0 < threads) : InPool (scheduleCreate threads) where
  zero := rfl
  current := h
  thread t r hr := by cases hr

theorem call_inPool {e : Call} (hp : Positive s) (hs : InPool s) (he : CallEnabled s e)
    (h : call s e = some s') : InPool s' := by
  cases e with
  | opentask ud id =>
    cases h
    refine borrow_inPool borrow_commit ?_
    refine ⟨hs.zero, ?_, fun t r hr => ?_⟩
    · have := hs.current
      dsimp only
      split <;> omega
    · rcases find_register _ hr with ⟨-, rfl⟩ | ⟨-, hold⟩
      · exact hs.current
      · exact hs.thread t r hold
  | closetask t =>
    cases h
    exact ⟨hs.zero, hs.current, fun x r hr => hs.thread x r (find_release _ hr)⟩
  | newchannel id =>
    cases h
    exact ⟨(register_other _ _ he.1.symm).trans hs.zero, hs.current, hs.thread⟩
  | closechannel c =>
    cases h
    refine ⟨?_, hs.current, hs.thread⟩
    by_contra hne
    have hsome := isSome_release _ (Option.isSome_iff_ne_none.mpr hne)
    rw [hs.zero] at hsome
    cases hsome
  | growTasks lost =>
    cases h
    refine ⟨hs.zero, hs.current, fun x r hr => ?_⟩
    by_cases hx : x = lost
    · subst hx
      simp [RefMap.find] at hr
    · simp only [RefMap.find, Function.update_of_ne hx] at hr
      exact hs.thread x r hr
  | growChannels lost =>
    cases h
    refine ⟨?_, hs.current, hs.thread⟩
    dsimp only
    rw [Function.update_apply]
    split
    · rfl
    · exact hs.zero
  | grabtask | releasetask | select | isclosed | recv | send =>
    exact borrow_inPool (call_borrow hp (by trivial) he h) hs

theorem reachable_inPool {threads : ℕ} (h : Reachable (callSystem threads) (some s)) :
    InPool s := by
  have := h.invariant (I := fun r => ∀ s, r = some s → InPool s) ?_ ?_
  · exact this s rfl
  · rintro r ⟨hpos, rfl⟩ s hs
    obtain rfl := Option.some.inj hs
    exact create_inPool hpos
  · intro r e hr ih he s hs
    cases r with
    | none => cases hs
    | some sched =>
      exact call_inPool (reachable_balanced hr).1.positive (ih sched rfl) he hs

/-- The first open channel of the list with a message. -/
def FirstReady (s : Schedule) (channels : List ChannelId) (c : ChannelId) : Prop :=
  ∃ before after, channels = before ++ c :: after ∧ (s.channel c).isSome ∧ s.messages c ≠ [] ∧
    ∀ d ∈ before, (s.channel d).isSome → s.messages d = []

/-- The end of the slice makes the task ready, at the end of the ready queue of a worker. -/
def Resumes (s : Schedule) (t : TaskId) : Prop :=
  ∃ s', scheduleReleasetask s t = some s' ∧ s'.status t = some .ready ∧
    ∃ i < s.threads, (s'.q i).contents = (s.q i).contents ++ [t]

/-- What the result of a select says about the channels of the list, the reader queues and the
task. -/
structure Announces (s : Schedule) (t : TaskId) (channels : List ChannelId) : Prop where
  found : (scheduleSelect s t channels).1 ≠ 0 →
    FirstReady s channels (scheduleSelect s t channels).1 ∧
      (∀ d, (scheduleSelect s t channels).2.readers d = s.readers d) ∧
      (scheduleSelect s t channels).2.status t ≠ some .blocked ∧
      Resumes (scheduleSelect s t channels).2 t
  blocked : (scheduleSelect s t channels).1 = 0 →
    (∀ c ∈ channels, (s.channel c).isSome → s.messages c = []) ∧
      (scheduleSelect s t channels).2.status t = some .blocked ∧
      ∀ d, (s.channel d).isSome → (scheduleSelect s t channels).2.readers d =
        s.readers d ++ List.replicate (channels.count d) t

/-- Only a running task is put back. -/
theorem resumes_iff (h : Positive s) (hs : InPool s) :
    Resumes s t ↔ s.status t = some .running := by
  constructor
  · rintro ⟨s', hrel, hready, -⟩
    cases hst : s.status t with
    | none =>
      have hfind : s.task.find t = none := by
        rw [Schedule.status, Option.map_eq_none_iff] at hst
        simp [RefMap.find, hst]
      simp only [scheduleReleasetask, hfind] at hrel
      cases hrel
      rw [hst] at hready
      cases hready
    | some st =>
      obtain ⟨r, hr, rfl⟩ := status_find hst
      by_cases hrun : r.status = .running
      · rw [hrun]
      by_cases hnot : r.status = .ready
      · simp only [scheduleReleasetask, hr] at hrel
        rw [if_pos hnot] at hrel
        cases hrel
      · rw [scheduleReleasetask_eq h hst hnot, commitTask_found hr, if_neg hrun] at hrel
        cases hrel
        rw [hst] at hready
        exact absurd (Option.some.inj hready) hnot
  · intro hst
    obtain ⟨r, hr, hrun⟩ := status_find hst
    refine ⟨(s.setStatus t .ready).pushReady r.thread t, ?_, ?_, r.thread, hs.thread t r hr, ?_⟩
    · rw [scheduleReleasetask_eq h hst (fun hk => by cases hk), commitTask_found hr, if_pos hrun]
    · change (s.setStatus t .ready).status t = some .ready
      rw [status_setStatus, hst]
      rfl
    · simp [Schedule.pushReady, Schedule.setStatus]

theorem find_firstReady {channels : List ChannelId}
    (h : channels.find? (fun c => s.messages c ≠ []) = some c) : FirstReady s channels c := by
  obtain ⟨hc, before, after, hlist, hbefore⟩ := List.find?_eq_some_iff_append.mp h
  have hc : s.messages c ≠ [] := of_decide_eq_true hc
  refine ⟨before, after, hlist, messages_live hc, hc, fun d hd _ => ?_⟩
  simpa using hbefore d hd

theorem block_announces (ht : (s.task t).isSome) (channels : List ChannelId) :
    (block s t channels).status t = some .blocked ∧
      ∀ d, (s.channel d).isSome → (block s t channels).readers d =
        s.readers d ++ List.replicate (channels.count d) t := by
  constructor
  · change (s.setStatus t .blocked).status t = some .blocked
    obtain ⟨st, hst⟩ := Option.isSome_iff_exists.mp ((status_isSome s t).trans ht)
    rw [status_setStatus, hst]
    rfl
  · exact fun d hd => readers_registerReaders channels (s.setStatus t .blocked) hd

/-- A select by a task that a growth of the map has lost returns 0 and blocks nothing. -/
theorem absent_not_announces (ht : s.task t = none) (channels : List ChannelId) :
    ¬ Announces s t channels := by
  intro ha
  have hblocked := ha.blocked
  rw [scheduleSelect_absent ht] at hblocked
  have hst := (hblocked rfl).2.1
  rw [Schedule.status, ht] at hst
  cases hst

theorem live_announces_iff (hp : Positive s) (hs : InPool s) (ht : (s.task t).isSome)
    (channels : List ChannelId) :
    Announces s t channels ↔
      ((∃ c ∈ channels, s.messages c ≠ []) → s.status t = some .running) := by
  have hselect := scheduleSelect_eq hp ht channels
  cases hfind : channels.find? fun c => s.messages c ≠ [] with
  | none =>
    have hempty : ∀ c ∈ channels, s.messages c = [] := by simpa using hfind
    rw [hfind] at hselect
    obtain ⟨hstatus, hreaders⟩ := block_announces ht channels
    constructor
    · rintro - ⟨c, hc, hm⟩
      exact absurd (hempty c hc) hm
    · intro _
      constructor
      · exact fun hne => absurd (by rw [hselect]) hne
      · rw [hselect]
        exact fun _ => ⟨fun c hc _ => hempty c hc, hstatus, hreaders⟩
  | some c =>
    rw [hfind] at hselect
    have hfirst := find_firstReady hfind
    obtain ⟨before, after, hlist, hopen, hm, -⟩ := hfirst
    have hne : c ≠ 0 := by
      rintro rfl
      rw [hs.zero] at hopen
      cases hopen
    have hmem : c ∈ channels := by simp [hlist]
    constructor
    · intro ha _
      have hres := ha.found
      rw [hselect] at hres
      exact (resumes_iff hp hs).mp (hres hne).2.2.2
    · intro hrun
      have hst := hrun ⟨c, hmem, hm⟩
      constructor
      · rw [hselect]
        refine fun _ => ⟨find_firstReady hfind, fun _ => rfl, ?_, (resumes_iff hp hs).mpr hst⟩
        rw [hst]
        exact fun hk => by cases hk
      · intro h0
        rw [hselect] at h0
        exact absurd h0 hne

/-- A select leaves its task as its result says exactly when the task is in the task map and, if
a channel of the list has a message, it is `RUNNING`: no earlier select of the slice blocked it. -/
theorem select_announces_iff {threads : ℕ} (h : Reachable (callSystem threads) (some s))
    (t : TaskId) (channels : List ChannelId) :
    Announces s t channels ↔
      (s.task t).isSome ∧
        ((∃ c ∈ channels, s.messages c ≠ []) → s.status t = some .running) := by
  by_cases ht : (s.task t).isSome
  · rw [live_announces_iff (reachable_balanced h).1.positive (reachable_inPool h) ht]
    exact ⟨fun hrun => ⟨ht, hrun⟩, fun hrun => hrun.2⟩
  · have hnot := absent_not_announces (Option.not_isSome_iff_eq_none.mp ht) channels
    exact ⟨fun ha => absurd ha hnot, fun hlive => absurd hlive.1 ht⟩

/-- A task that runs, and a message in the second of its two channels. -/
def busyCalls : List Call :=
  [.opentask 101 1, .newchannel 1, .newchannel 2, .send 2 9, .grabtask 0]

def busyRun : Schedule :=
  (runTrace (callSystem 1) (some (scheduleCreate 1)) busyCalls).getD (scheduleCreate 1)

theorem select_announces_iff_busyRun : Announces busyRun 1 [1, 2] :=
  have hrun : Reachable (callSystem 1)
      (runTrace (callSystem 1) (some (scheduleCreate 1)) busyCalls) :=
    .run (.start ⟨by decide, rfl⟩) (by decide +kernel)
  (select_announces_iff (s := busyRun) hrun 1 [1, 2]).mpr
    ⟨by decide +kernel, fun _ => by decide +kernel⟩

/-- After a select of the empty channel 1, a select that finds the message of channel 2 leaves
the task blocked. -/
theorem second_select_stays_blocked :
    ∃ s, Reachable (callSystem 1) (some s) ∧ (s.task 1).isSome ∧ ¬ Announces s 1 [2] := by
  have hrun : Reachable (callSystem 1)
      (runTrace (callSystem 1) (some (scheduleCreate 1)) (busyCalls ++ [.select 1 [1]])) :=
    .run (.start ⟨by decide, rfl⟩) (by decide +kernel)
  refine ⟨(scheduleSelect busyRun 1 [1]).2, hrun, by decide +kernel, fun ha => ?_⟩
  have hfound : (scheduleSelect (scheduleSelect busyRun 1 [1]).2 1 [2]).1 ≠ 0 := by
    decide +kernel
  have hblocked : (scheduleSelect (scheduleSelect busyRun 1 [1]).2 1 [2]).2.status 1 =
      some .blocked := by
    decide +kernel
  exact (ha.found hfound).2.2.1 hblocked

end LtaskSelect
