import Grt.LtaskSingleWorker
import Grt.LtaskSelect

/-! What the calls that open, run, block and end tasks do to the places of the tasks, with one
worker. -/
namespace LtaskTaskPlaces

open LtaskQueue RefCountedMap LtaskSchedule LtaskReferences LtaskSingleWorker LtaskSelect

variable {s : Schedule} {running : Option TaskId} {waits : TaskId → List ChannelId}
  {draining : Option ChannelId} {t id : TaskId} {c : ChannelId}

theorem scheduleOpentask_eq (h : Alone s) (ud : Ptr) (id : TaskId) :
    scheduleOpentask s ud id =
      ({ s with task := s.task.register id ⟨ud, .ready, 0⟩ } : Schedule).pushReady 0 id := by
  have hnext : (if s.current + 1 ≥ s.threads then 0 else s.current + 1) = s.current := by
    rw [h.current, h.threads]
    rfl
  have hfind : (s.task.register id ⟨ud, .init, s.current⟩).find id =
      some ⟨ud, .init, s.current⟩ := by
    simp [RefMap.find]
  simp only [scheduleOpentask, hnext]
  rw [commitTask_found hfind, if_pos rfl]
  unfold Schedule.setStatus
  rw [modify_register, h.current]

theorem conserved_opentask (h : Conserved s running waits draining) (ud : Ptr)
    (hfresh : s.task id = none) :
    Conserved (scheduleOpentask s ud id) running waits draining := by
  have hnone : s.status id = none := by simp [Schedule.status, hfresh]
  have hstatus : ∀ x, (scheduleOpentask s ud id).status x =
      if x = id then some .ready else s.status x := by
    intro x
    rw [scheduleOpentask_eq h.toAlone]
    exact status_register s id x ⟨ud, .ready, 0⟩
  have hq : ((scheduleOpentask s ud id).q 0).contents = (s.q 0).contents ++ [id] := by
    rw [scheduleOpentask_eq h.toAlone]
    simp [Schedule.pushReady]
  have htask : (scheduleOpentask s ud id).task = s.task.register id ⟨ud, .ready, 0⟩ := by
    rw [scheduleOpentask_eq h.toAlone]
    rfl
  have hchannel : (scheduleOpentask s ud id).channel = s.channel := by
    rw [scheduleOpentask_eq h.toAlone]
    rfl
  refine ⟨⟨?_, ?_, hchannel ▸ h.zero, fun x hx => ?_, hchannel ▸ h.channels, fun x r hr => ?_⟩,
    ?_, fun x => ?_, fun x st hx => ?_, fun x hx => ?_, hchannel ▸ h.live, fun x c hx hc => ?_⟩
  · rw [scheduleOpentask_eq h.toAlone]
    exact h.threads
  · rw [scheduleOpentask_eq h.toAlone]
    exact h.current
  · rw [htask] at hx ⊢
    by_cases hxi : x = id
    · subst hxi
      simp [RefMap.count]
    · rw [register_other _ _ hxi] at hx
      rw [count_register_other _ _ hxi]
      exact h.tasks x hx
  · rw [htask] at hr
    rcases find_register _ hr with ⟨-, rfl⟩ | ⟨-, hold⟩
    · rfl
    · exact h.thread x r hold
  · rw [hq]
    apply List.Nodup.append h.nodup (List.nodup_singleton id)
    simp [h.queued, hnone]
  · rw [hq, hstatus, List.mem_append, List.mem_singleton, h.queued]
    by_cases hxi : x = id <;> simp [hxi]
  · rw [hstatus] at hx
    split at hx
    · exact Or.inl (Option.some.inj hx).symm
    · exact h.places x st hx
  · have hold := h.runs x hx
    rw [hstatus, if_neg, hold]
    rintro rfl
    rw [hnone] at hold
    cases hold
  · rw [hstatus] at hx
    split at hx
    · cases hx
    · unfold Schedule.messages Schedule.readers
      rw [hchannel]
      exact h.asleep x c hx hc

/-- The slice of the task is over for good. -/
theorem conserved_closetask (h : Conserved s running waits draining)
    (hst : s.status t ≠ some .ready) (hrun : ∀ x, running = some x → x = t) :
    scheduleReleasetask (scheduleClosetask s t) t = some (scheduleClosetask s t) ∧
      Conserved (scheduleClosetask s t) none waits draining := by
  have hgone : (scheduleClosetask s t).task t = none := by
    change s.task.release t t = none
    cases ht : s.task t with
    | none => simp [ht]
    | some r =>
      have hcount := h.tasks t (by rw [ht]; rfl)
      simp only [RefMap.count, ht, Option.elim_some] at hcount
      simp [ht, hcount]
  have hother : ∀ x, x ≠ t → (scheduleClosetask s t).task x = s.task x := fun x hx =>
    release_other _ hx
  have hstatus : ∀ x st, (scheduleClosetask s t).status x = some st →
      x ≠ t ∧ s.status x = some st := by
    intro x st hx
    refine ⟨?_, status_releaseTask s hx⟩
    rintro rfl
    simp [Schedule.status, hgone] at hx
  have hkeep : ∀ x, x ≠ t → (scheduleClosetask s t).status x = s.status x := fun x hx => by
    unfold Schedule.status
    rw [hother x hx]
  constructor
  · have hfind : (scheduleClosetask s t).task.find t = none := by simp [RefMap.find, hgone]
    simp only [scheduleReleasetask, hfind]
  refine ⟨⟨h.threads, h.current, h.zero, fun x hx => ?_, h.channels, fun x r hr => ?_⟩, h.nodup,
    fun x => ?_, fun x st hx => ?_, fun x hx => (by cases hx), h.live, fun x c hx hc => ?_⟩
  · have hxt : x ≠ t := by
      rintro rfl
      rw [hgone] at hx
      cases hx
    rw [hother x hxt] at hx
    rw [RefMap.count, hother x hxt]
    exact h.tasks x hx
  · exact h.thread x r (find_release _ hr)
  · change x ∈ (s.q 0).contents ↔ _
    rw [h.queued]
    refine ⟨fun hx => ?_, fun hx => (hstatus x _ hx).2⟩
    rw [hkeep x, hx]
    rintro rfl
    exact hst hx
  · obtain ⟨hxt, hold⟩ := hstatus x st hx
    exact (h.places x st hold).imp id (Or.imp id fun hr => absurd (hrun x hr.2) hxt)
  · exact h.asleep x c (hstatus x _ hx).2 hc

/-- A running task goes back to the ready queue. -/
theorem conserved_releasetask (h : Conserved s (some t) waits draining) :
    ∃ s', scheduleReleasetask s t = some s' ∧ Conserved s' none waits draining := by
  have hst := h.runs t rfl
  refine ⟨_, scheduleReleasetask_eq h.positive hst nofun, ?_⟩
  rw [commitTask_thread h.toAlone hst]
  refine h.ready hst nofun fun x => ⟨nofun, fun ⟨hx, hxt⟩ => ?_⟩
  exact absurd (Option.some.inj hx).symm hxt

/-- A blocked task is left as it is. -/
theorem scheduleReleasetask_blocked (h : Alone s) (hst : s.status t = some .blocked) :
    scheduleReleasetask s t = some s := by
  rw [scheduleReleasetask_eq h.positive hst nofun]
  obtain ⟨r, ht, hb⟩ := status_find hst
  rw [commitTask_found ht, hb]
  rfl

theorem popReady_eq (h : Alone s) : popReady s 0 s.threads =
    (s.q 0).pop.map fun r => (r.1, { s with q := Function.update s.q 0 r.2 }) := by
  rw [h.threads]
  simp only [popReady, h.threads]
  cases (s.q 0).pop <;> simp

/-- The first task of the ready queue leaves it and runs. -/
theorem conserved_run (h : Conserved s none waits draining) {q : Queue TaskId}
    (hpop : (s.q 0).pop = some (id, q)) : s.status id = some .ready ∧
      Conserved (({ s with q := Function.update s.q 0 q } : Schedule).setRunning id 0) (some id)
        waits draining := by
  have hcontents : (s.q 0).contents = id :: q.contents := pop_some hpop
  have hst : s.status id = some .ready := by
    rw [← h.queued, hcontents]
    exact List.mem_cons_self
  obtain ⟨hout, hnodup⟩ : id ∉ q.contents ∧ q.contents.Nodup := by
    have hnodup := h.nodup
    rw [hcontents] at hnodup
    exact List.nodup_cons.mp hnodup
  refine ⟨hst, ?_⟩
  generalize hs' : ({ s with q := Function.update s.q 0 q } : Schedule).setRunning id 0 = s'
  have htask : s'.task = s.task.modify id fun t => { t with status := .running, thread := 0 } := by
    rw [← hs']
    rfl
  have hq : (s'.q 0).contents = q.contents := by
    rw [← hs']
    simp [Schedule.setRunning]
  have hstatus : ∀ x, s'.status x = (s.setStatus id .running).status x := by
    intro x
    rw [← hs']
    exact status_setRunning { s with q := Function.update s.q 0 q } id x 0
  have hchannel : s'.channel = s.channel := by
    rw [← hs']
    rfl
  obtain ⟨htasks, hthread⟩ := h.update s' htask fun _ _ => rfl
  refine ⟨⟨hs' ▸ h.threads, hs' ▸ h.current, hchannel ▸ h.zero, htasks, hchannel ▸ h.channels,
    hthread⟩, hq ▸ hnodup, fun x => ?_, fun x st hx => ?_, fun x hx => ?_, hchannel ▸ h.live,
    fun x c hx hc => ?_⟩
  · have hmem := h.queued x
    rw [hcontents, List.mem_cons] at hmem
    rw [hq, hstatus]
    by_cases hxi : x = id
    · subst hxi
      rw [status_setStatus, hst]
      simpa using hout
    · rw [status_setStatus_other _ _ hxi, ← hmem]
      exact (or_iff_right hxi).symm
  · rw [hstatus] at hx
    rcases setStatus_cases s hx with ⟨hold, -⟩ | ⟨rfl, hrun⟩
    · rcases h.places x st hold with hr | hb | ⟨-, hno⟩
      · exact Or.inl hr
      · exact Or.inr (Or.inl hb)
      · cases hno
    · exact Or.inr (Or.inr ⟨hrun, rfl⟩)
  · obtain rfl := Option.some.inj hx
    rw [hstatus, status_setStatus, hst]
    rfl
  · rw [hstatus] at hx
    rcases setStatus_cases s hx with ⟨hold, -⟩ | ⟨-, hrun⟩
    · unfold Schedule.messages Schedule.readers
      rw [hchannel]
      exact h.asleep x c hold hc
    · cases hrun

/-- The queue holds live tasks only, so the first one is taken. -/
theorem conserved_grabtask (h : Conserved s none waits draining) :
    (scheduleGrabtask s 0 = some (none, s)) ∨
      ∃ id ud s', scheduleGrabtask s 0 = some (some (id, ud), s') ∧
        Conserved s' (some id) waits draining := by
  unfold scheduleGrabtask
  rw [grabLoop, popReady_eq h.toAlone]
  cases hpop : (s.q 0).pop with
  | none => exact Or.inl rfl
  | some p =>
    obtain ⟨id, q⟩ := p
    obtain ⟨hst, hrun⟩ := conserved_run h hpop
    obtain ⟨r, ht, hr⟩ := status_find hst
    refine Or.inr ⟨id, r.ud, _, ?_, hrun⟩
    have hfind : ({ s with q := Function.update s.q 0 q } : Schedule).task.find id = some r := ht
    simp only [Option.map_some, hfind]
    rw [if_neg (by rw [hr]; exact fun hk => by cases hk)]
    unfold releaseTask Schedule.setRunning Schedule.grabTask
    rw [release_modify_grab _ _ (h.positive.task_count ht)]

/-- What a running task would wait for does not matter. -/
theorem conserved_awaits (h : Conserved s (some t) waits draining) {list : List ChannelId}
    (hlist : ∀ c ∈ list, (s.channel c).isSome) :
    Conserved s (some t) (Function.update waits t list) draining := by
  refine ⟨h.toAlone, h.nodup, h.queued, h.places, h.runs, fun x c hc => ?_, fun x c hst hc => ?_⟩
  · by_cases hxt : x = t
    · subst hxt
      rw [Function.update_self] at hc
      exact hlist c hc
    · rw [Function.update_of_ne hxt] at hc
      exact h.live x c hc
  · by_cases hxt : x = t
    · subst hxt
      rw [h.runs x rfl] at hst
      cases hst
    · rw [Function.update_of_ne hxt] at hc
      exact h.asleep x c hst hc

/-- The running task finds a message and goes on, or it finds none and is blocked and
registered with all open channels of its list. -/
theorem conserved_select (h : Conserved s (some t) waits none) (channels : List ChannelId) :
    (∃ c, (s.channel c).isSome ∧ scheduleSelect s t channels = (c, s)) ∨
      ∃ s', scheduleSelect s t channels = (0, s') ∧ s'.status t = some .blocked ∧
        Conserved s' none (Function.update waits t
          (channels.filter fun c => (s.channel c).isSome)) none := by
  have hst := h.runs t rfl
  have ht : (s.task t).isSome := by rw [← status_isSome, hst]; rfl
  rw [scheduleSelect_eq h.positive ht]
  cases hfind : channels.find? fun c => s.messages c ≠ [] with
  | some c =>
    left
    have hc : s.messages c ≠ [] := by simpa using List.find?_some hfind
    exact ⟨c, messages_live hc, rfl⟩
  | none =>
    right
    have hempty : ∀ c ∈ channels, s.messages c = [] := by simpa using hfind
    let s' : Schedule := block s t channels
    have hlive : ∀ c, (s'.channel c).isSome = (s.channel c).isSome :=
      isSome_registerReaders channels s.channel
    have hcount : ∀ c, s'.channel.count c = s.channel.count c :=
      count_registerReaders channels s.channel
    have hmsg : ∀ c, s'.messages c = s.messages c := fun c =>
      messages_registerReaders channels (s.setStatus t .blocked)
    have hread : ∀ c, (s.channel c).isSome →
        s'.readers c = s.readers c ++ List.replicate (channels.count c) t := fun c hc =>
      readers_registerReaders channels (s.setStatus t .blocked) hc
    have hnew : s'.status t = some .blocked := by
      change (s.setStatus t .blocked).status t = _
      rw [status_setStatus, hst]
      rfl
    refine ⟨s', rfl, hnew, ?_⟩
    obtain ⟨htasks, hthread⟩ := h.update (f := fun r => { r with status := .blocked }) s' rfl
      fun _ hr => hr
    refine ⟨⟨h.threads, h.current, ?_, htasks, fun c hc => ?_, hthread⟩, h.nodup, fun x => ?_,
      fun x st hx => ?_, nofun, fun x c hc => ?_, fun x c hx hc => ?_⟩
    · exact Option.not_isSome_iff_eq_none.mp (by simp [hlive, h.zero])
    · exact (hcount c).trans (h.channels c ((hlive c).symm.trans hc))
    · change x ∈ (s.q 0).contents ↔ (s.setStatus t .blocked).status x = _
      rw [h.queued]
      by_cases hxt : x = t
      · subst hxt
        simp [hst]
      · rw [status_setStatus_other _ _ hxt]
    · change (s.setStatus t .blocked).status x = _ at hx
      rcases setStatus_cases s hx with ⟨hold, hxt⟩ | ⟨-, hb⟩
      · rcases h.places x st hold with hr | hb | ⟨-, hrun⟩
        · exact Or.inl hr
        · exact Or.inr (Or.inl hb)
        · exact absurd (Option.some.inj hrun).symm hxt
      · exact Or.inr (Or.inl hb)
    · rw [hlive]
      by_cases hxt : x = t
      · subst hxt
        rw [Function.update_self] at hc
        exact (List.mem_filter.mp hc).2
      · rw [Function.update_of_ne hxt] at hc
        exact h.live x c hc
    · by_cases hxt : x = t
      · subst hxt
        rw [Function.update_self] at hc
        obtain ⟨hc, hcl⟩ := List.mem_filter.mp hc
        refine ⟨Or.inl ((hmsg c).trans (hempty c hc)), ?_⟩
        rw [hread c hcl, List.mem_append, List.mem_replicate]
        exact Or.inr ⟨(List.count_pos_iff.mpr hc).ne', rfl⟩
      · rw [Function.update_of_ne hxt] at hc
        change (s.setStatus t .blocked).status x = _ at hx
        rw [status_setStatus_other _ _ hxt] at hx
        obtain ⟨hm, hr⟩ := h.asleep x c hx hc
        refine ⟨hm.imp (fun hm => (hmsg c).trans hm) fun hd => hd, ?_⟩
        rw [hread c (h.live x c hc)]
        exact List.mem_append_left _ hr

end LtaskTaskPlaces
