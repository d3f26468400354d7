import Grt.LtaskSend

/-! The scheduler with one worker. Every call runs to its end before the next, so the
references it takes are back when it returns, and each task is ready and queued once, blocked,
or the one that runs. -/
namespace LtaskSingleWorker

open LtaskQueue RefCountedMap LtaskSchedule LtaskReferences LtaskSend

/-- Nothing holds a reference between two calls. No handle is 0. -/
structure Alone (s : Schedule) : Prop where
  threads : s.threads = 1
  current : s.current = 0
  zero : s.channel 0 = none
  tasks : ∀ t, (s.task t).isSome → s.task.count t = 1
  channels : ∀ c, (s.channel c).isSome → s.channel.count c = 1
  thread : ∀ t r, s.task.find t = some r → r.thread = 0

/-- Where each task is, with `waits` the channels it waits for if it is blocked and `draining`
the channel whose readers are being woken. -/
structure Conserved (s : Schedule) (running : Option TaskId) (waits : TaskId → List ChannelId)
    (draining : Option ChannelId) : Prop extends Alone s where
  nodup : (s.q 0).contents.Nodup
  queued : ∀ t, t ∈ (s.q 0).contents ↔ s.status t = some .ready
  places : ∀ t st, s.status t = some st →
    st = .ready ∨ st = .blocked ∨ st = .running ∧ running = some t
  runs : ∀ t, running = some t → s.status t = some .running
  live : ∀ t, ∀ c ∈ waits t, (s.channel c).isSome
  asleep : ∀ t c, s.status t = some .blocked → c ∈ waits t →
    (s.messages c = [] ∨ draining = some c) ∧ t ∈ s.readers c

variable {s : Schedule} {running : Option TaskId} {waits : TaskId → List ChannelId}
  {draining : Option ChannelId} {t id : TaskId} {c : ChannelId} {st : TaskStatus}

theorem Alone.positive (h : Alone s) : Positive s where
  task t n hn := by
    have hlive : (s.task t).isSome := by rw [← refs_isSome, hn]; rfl
    rw [← count_of_refs _ hn, h.tasks t hlive]
  channel c n hn := by
    have hlive : (s.channel c).isSome := by rw [← refs_isSome, hn]; rfl
    rw [← count_of_refs _ hn, h.channels c hlive]

/-- The records of the tasks are written to and stay with worker 0. -/
theorem Alone.update (h : Alone s) (s' : Schedule) {f : Task → Task}
    (hs' : s'.task = s.task.modify t f) (hf : ∀ r, r.thread = 0 → (f r).thread = 0) :
    (∀ x, (s'.task x).isSome → s'.task.count x = 1) ∧
      ∀ x r, s'.task.find x = some r → r.thread = 0 := by
  rw [hs']
  refine ⟨fun x hx => ?_, fun x r hr => ?_⟩
  · rw [isSome_modify] at hx
    rw [count_modify]
    exact h.tasks x hx
  · rcases find_modify _ hr with ⟨-, hold⟩ | ⟨-, r', hold, rfl⟩
    · exact h.thread x r hold
    · exact hf r' (h.thread x r' hold)

/-- The queues of the channels change, the channels stay. -/
theorem Conserved.write (h : Conserved s running waits draining) {A : RefMap Channel}
    {draining' : Option ChannelId} (hlive : ∀ c, (A c).isSome = (s.channel c).isSome)
    (hcount : ∀ c, A.count c = s.channel.count c)
    (hasleep : ∀ t c, s.status t = some .blocked → (s.messages c = [] ∨ draining = some c) →
      t ∈ s.readers c → (({ s with channel := A } : Schedule).messages c = [] ∨
        draining' = some c) ∧ t ∈ ({ s with channel := A } : Schedule).readers c) :
    Conserved { s with channel := A } running waits draining' where
  threads := h.threads
  current := h.current
  zero := Option.not_isSome_iff_eq_none.mp (by simp [hlive, h.zero])
  tasks := h.tasks
  channels c hc := (hcount c).trans (h.channels c ((hlive c).symm.trans hc))
  thread := h.thread
  nodup := h.nodup
  queued := h.queued
  places := h.places
  runs := h.runs
  live t c hc := (hlive c).trans (h.live t c hc)
  asleep t c hst hc := hasleep t c hst (h.asleep t c hst hc).1 (h.asleep t c hst hc).2

/-- One channel is written to. -/
theorem Conserved.modify (h : Conserved s running waits draining) {ch : Channel}
    {f : Channel → Channel} {draining' : Option ChannelId} (hch : s.channel.find c = some ch)
    (hdr : ∀ d, d ≠ c → draining = some d → draining' = some d)
    (hmsg : ch.mq.contents = [] ∨ draining = some c →
      (f ch).mq.contents = [] ∨ draining' = some c)
    (hreaders : ∀ t ∈ ch.reader.contents, s.status t = some .blocked →
      t ∈ (f ch).reader.contents) :
    Conserved { s with channel := s.channel.modify c f } running waits draining' := by
  obtain ⟨-, hother, hr, hm, hr', hm'⟩ :=
    find_modified s { s with channel := s.channel.modify c f } rfl hch
  apply h.write
  · exact fun d => isSome_modify _ f c d
  · exact fun d => count_modify _ f c d
  · intro x d hst hmd hx
    by_cases hdc : d = c
    · subst hdc
      rw [hm] at hmd
      rw [hr] at hx
      rw [hm', hr']
      exact ⟨hmsg hmd, hreaders x hx hst⟩
    · rw [(hother d hdc).1, (hother d hdc).2]
      exact ⟨hmd.imp id (hdr d hdc), hx⟩

/-- A task that is blocked or runs becomes ready. -/
theorem Conserved.ready (h : Conserved s running waits draining) {running' : Option TaskId}
    (hst : s.status t = some st) (hne : st ≠ .ready)
    (hrun : ∀ x, running' = some x ↔ running = some x ∧ x ≠ t) :
    Conserved ((s.setStatus t .ready).pushReady 0 t) running' waits draining := by
  have hout : t ∉ (s.q 0).contents := by
    rw [h.queued, hst]
    exact fun hx => hne (Option.some.inj hx)
  have hnew : (s.setStatus t .ready).status t = some .ready := by
    rw [status_setStatus, hst]
    rfl
  have hq : (((s.setStatus t .ready).pushReady 0 t).q 0).contents = (s.q 0).contents ++ [t] := by
    simp [Schedule.pushReady, Schedule.setStatus]
  obtain ⟨htasks, hthread⟩ := h.update (f := fun r => { r with status := .ready })
    ((s.setStatus t .ready).pushReady 0 t) rfl fun _ hr => hr
  refine ⟨⟨h.threads, h.current, h.zero, htasks, h.channels, hthread⟩, ?_, fun x => ?_,
    fun x st' hx => ?_, fun x hx => ?_, h.live, fun x c hx hc => ?_⟩
  · rw [hq]
    apply List.Nodup.append h.nodup (List.nodup_singleton t)
    simpa using hout
  · change _ ↔ (s.setStatus t .ready).status x = some .ready
    rw [hq, List.mem_append, List.mem_singleton, h.queued]
    by_cases hxt : x = t
    · subst hxt
      simp [hnew]
    · simp [status_setStatus_other _ _ hxt, hxt]
  · change (s.setStatus t .ready).status x = some st' at hx
    rcases setStatus_cases s hx with ⟨hold, hxt⟩ | ⟨-, hready⟩
    · rcases h.places x st' hold with hready | hblocked | ⟨hrunning, hx⟩
      · exact Or.inl hready
      · exact Or.inr (Or.inl hblocked)
      · exact Or.inr (Or.inr ⟨hrunning, (hrun x).mpr ⟨hx, hxt⟩⟩)
    · exact Or.inl hready
  · change (s.setStatus t .ready).status x = some .running
    obtain ⟨hold, hxt⟩ := (hrun x).mp hx
    rw [status_setStatus_other _ _ hxt]
    exact h.runs x hold
  · change (s.setStatus t .ready).status x = some .blocked at hx
    rcases setStatus_cases s hx with ⟨hold, -⟩ | ⟨-, hready⟩
    · exact h.asleep x c hold hc
    · cases hready

theorem commitTask_thread (h : Alone s) (hst : s.status t = some st) :
    commitTask s t st = (s.setStatus t .ready).pushReady 0 t := by
  obtain ⟨r, ht, rfl⟩ := status_find hst
  rw [commitTask_found ht, if_pos rfl, h.thread t r ht]

/-- A blocked task is woken, any other is left alone. -/
theorem commit_cases (h : Alone s) :
    (s.status t = some .blocked ∧
      commitTask s t .blocked = (s.setStatus t .ready).pushReady 0 t) ∨
    (s.status t ≠ some .blocked ∧ commitTask s t .blocked = s) := by
  by_cases hst : s.status t = some .blocked
  · exact Or.inl ⟨hst, commitTask_thread h hst⟩
  · exact Or.inr ⟨hst, commitTask_other hst⟩

theorem Conserved.commit (h : Conserved s running waits draining) (t : TaskId) :
    Conserved (commitTask s t .blocked) running waits draining ∧
      (commitTask s t .blocked).channel = s.channel ∧
      ∀ x, (commitTask s t .blocked).status x = some .blocked → x ≠ t := by
  rcases commit_cases (t := t) h.toAlone with ⟨hst, heq⟩ | ⟨hst, heq⟩
  · rw [heq]
    refine ⟨h.ready hst nofun fun x => ⟨fun hx => ⟨hx, ?_⟩, And.left⟩, rfl, fun x hx => ?_⟩
    · rintro rfl
      rw [h.runs x hx] at hst
      cases hst
    · change (s.setStatus t .ready).status x = some .blocked at hx
      rcases setStatus_cases s hx with ⟨-, hxt⟩ | ⟨-, hready⟩
      · exact hxt
      · cases hready
  · rw [heq]
    exact ⟨h, rfl, fun x hx hxt => hst (hxt ▸ hx)⟩

theorem Conserved.wakeAll (h : Conserved s running waits draining) (readers : List TaskId) :
    Conserved (wakeAll s readers) running waits draining := by
  induction readers generalizing s with
  | nil => exact h
  | cons t readers ih => exact ih (h.commit t).1

/-- None of the tasks is blocked afterwards. -/
theorem wakeAll_awake {readers : List TaskId} (ht : t ∈ readers) :
    (LtaskSend.wakeAll s readers).status t ≠ some .blocked := by
  obtain ⟨woken, hwakes, hmem⟩ := wakeAll_wakes readers s
  intro hst
  by_cases hw : t ∈ woken
  · rw [Schedule.status, hwakes.ready t hw, Option.map_map, Option.map_eq_some_iff] at hst
    obtain ⟨r, -, hready⟩ := hst
    cases hready
  · rw [Schedule.status, hwakes.other t hw] at hst
    exact hw ((hmem t).mpr ⟨hst, ht⟩)

theorem Conserved.send (h : Conserved s running waits none) (c : ChannelId) (msg : Ptr) :
    ∃ s', scheduleSend s c msg = some s' ∧ Conserved s' running waits none := by
  cases hch : s.channel.find c with
  | none => exact ⟨s, by simp only [scheduleSend, hch], h⟩
  | some ch =>
    obtain ⟨rest, -, hsend⟩ := scheduleSend_eq h.positive hch msg
    refine ⟨_, hsend, ?_⟩
    let f : Channel → Channel := fun ch => ⟨ch.mq.push msg, rest⟩
    let s' : Schedule := LtaskSend.wakeAll s ch.reader.contents
    have hchannel : s'.channel = s.channel := wakeAll_keeps ch.reader.contents
    have hwoken : Conserved s' running waits none := h.wakeAll ch.reader.contents
    obtain ⟨-, hother, hr, -, -, -⟩ :=
      find_modified s { s' with channel := s.channel.modify c f } rfl hch
    apply hwoken.write
    · intro d
      rw [hchannel, isSome_modify]
    · intro d
      rw [hchannel, count_modify]
    · intro t d hst hm hx
      have hm : s.messages d = [] ∨ (none : Option ChannelId) = some d := by
        rwa [Schedule.messages, hchannel] at hm
      have hx : t ∈ s.readers d := by rwa [Schedule.readers, hchannel] at hx
      by_cases hdc : d = c
      · subst hdc
        rw [hr] at hx
        exact absurd hst (wakeAll_awake hx)
      · rw [← (hother d hdc).1] at hx
        rw [← (hother d hdc).2] at hm
        exact ⟨hm, hx⟩

theorem Conserved.recv (h : Conserved s running waits none) (c : ChannelId) :
    Conserved (scheduleRecv s c).2 running waits none := by
  cases hch : s.channel.find c with
  | none => simpa only [scheduleRecv, hch] using h
  | some ch =>
    simp only [scheduleRecv, hch]
    split
    · rename_i msg mq hpop
      change Conserved (releaseChannel ((s.grabChannel c).setMq c mq) c) running waits none
      unfold Schedule.setMq
      rw [release_write h.positive hch]
      refine h.modify hch (fun _ _ hd => hd) (fun hm => ?_) fun x hx _ => hx
      rw [pop_some hpop] at hm
      rcases hm with hm | hm <;> cases hm
    · change Conserved (releaseChannel (s.grabChannel c) c) running waits none
      rwa [releaseChannel_grab h.positive hch]

theorem Conserved.newchannel (h : Conserved s running waits draining)
    (hfresh : s.channel c = none) (hc : c ≠ 0) :
    Conserved (scheduleNewchannel s c) running waits draining := by
  have hother : ∀ d, d ≠ c → (scheduleNewchannel s c).channel d = s.channel d := fun d hd =>
    register_other _ _ hd
  refine ⟨⟨h.threads, h.current, (hother 0 hc.symm).trans h.zero, h.tasks, fun d hd => ?_,
    h.thread⟩, h.nodup, h.queued,
    h.places, h.runs, fun x d hd => ?_, fun x d hst hd => ?_⟩
  · by_cases hdc : d = c
    · subst hdc
      simp [scheduleNewchannel, RefMap.count]
    · rw [hother d hdc] at hd
      rw [RefMap.count, hother d hdc]
      exact h.channels d hd
  · have hlive := h.live x d hd
    rw [hother d]
    · exact hlive
    · rintro rfl
      rw [hfresh] at hlive
      cases hlive
  · have hlive := h.live x d hd
    have hdc : d ≠ c := by
      rintro rfl
      rw [hfresh] at hlive
      cases hlive
    have := h.asleep x d hst hd
    unfold Schedule.messages Schedule.readers RefMap.find at this ⊢
    rwa [hother d hdc]

/-- The last reference goes, and with it the channel. -/
theorem Conserved.closechannel (h : Conserved s running waits draining) (c : ChannelId) :
    Conserved (scheduleClosechannel s c) running (fun t => (waits t).filter (· ≠ c))
      draining := by
  have hother : ∀ d, d ≠ c → (scheduleClosechannel s c).channel d = s.channel d := fun d hd =>
    release_other _ hd
  refine ⟨⟨h.threads, h.current, ?_, h.tasks, fun d hd => ?_, h.thread⟩, h.nodup, h.queued,
    h.places, h.runs, fun x d hd => ?_, fun x d hst hd => ?_⟩
  · by_cases hc : c = 0
    · subst hc
      simp [scheduleClosechannel, releaseChannel, h.zero]
    · exact (hother 0 (Ne.symm hc)).trans h.zero
  · have hlive := isSome_release _ hd
    by_cases hdc : d = c
    · subst hdc
      obtain ⟨r, hr⟩ := Option.isSome_iff_exists.mp hlive
      have hcount := h.channels d hlive
      simp only [RefMap.count, hr, Option.elim_some] at hcount
      simp [scheduleClosechannel, releaseChannel, hr, hcount] at hd
    · rw [RefMap.count, hother d hdc]
      exact h.channels d hlive
  · obtain ⟨hd, hdc⟩ := List.mem_filter.mp hd
    rw [hother d (by simpa using hdc)]
    exact h.live x d hd
  · obtain ⟨hd, hdc⟩ := List.mem_filter.mp hd
    have := h.asleep x d hst hd
    unfold Schedule.messages Schedule.readers RefMap.find at this ⊢
    rwa [hother d (by simpa using hdc)]

end LtaskSingleWorker
