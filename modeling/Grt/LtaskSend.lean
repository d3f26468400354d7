import Grt.LtaskReferences

/-! `schedule_send`: the message goes to the end of the channel's queue and the readers are
popped one by one. The reader queue may hold a task many times and tasks that have gone, run or
are ready; the blocked ones among them become ready, each once. -/
namespace LtaskSend

open LtaskQueue RefCountedMap LtaskSchedule LtaskReferences TransitionSystem

variable {s s' : Schedule} {t id : TaskId} {c d : ChannelId} {status : TaskStatus}

/-- The tasks of the list, woken one after the other. -/
def wakeAll (s : Schedule) (readers : List TaskId) : Schedule :=
  readers.foldl (fun s t => commitTask s t .blocked) s

theorem wakeAll_channel (readers : List TaskId) : ∀ (s : Schedule) (A : RefMap Channel),
    wakeAll { s with channel := A } readers = { wakeAll s readers with channel := A } := by
  induction readers with
  | nil => intro s A; rfl
  | cons t readers ih =>
    intro s A
    have h : commitTask { s with channel := A } t .blocked =
      { commitTask s t .blocked with channel := A } := commitTask_channel A
    rw [wakeAll, List.foldl_cons, h]
    exact ih _ A

theorem wakeAll_keeps (readers : List TaskId) : (wakeAll s readers).channel = s.channel := by
  have h := wakeAll_channel readers s s.channel
  exact (congrArg Schedule.channel h :)

/-- The loop wakes the tasks of the reader queue in turn and leaves the queue empty. -/
theorem wakeLoop_eq (h : Positive s) {ch : Channel} {fuel : ℕ}
    (hch : s.channel.find c = some ch) (hfuel : ch.reader.length < fuel) :
    ∃ rest : Queue TaskId, rest.contents = [] ∧ wakeLoop c fuel s =
      some { wakeAll s ch.reader.contents with
        channel := s.channel.modify c fun ch => { ch with reader := rest } } := by
  induction fuel generalizing s ch with
  | zero => exact absurd hfuel (Nat.not_lt_zero _)
  | succ fuel ih =>
    simp only [wakeLoop, hch]
    split
    · rename_i hpop
      have hempty := pop_none hpop
      refine ⟨ch.reader, hempty, ?_⟩
      rw [hempty, modify_unchanged _ hch rfl]
      rfl
    · rename_i id reader hpop
      let f : Channel → Channel := fun ch => { ch with reader := reader }
      have hset : Borrow s (s.setReader c reader) := borrow_channel f
      have hp := hset.positive h
      have hstep : wakeReader (s.setReader c reader) id =
          { commitTask s id .blocked with channel := s.channel.modify c f } := by
        rw [wakeReader_eq hp]
        exact commitTask_channel _
      have hp' := (wakeReader_borrow hp id).positive hp
      have hnext : (wakeReader (s.setReader c reader) id).channel.find c = some (f ch) := by
        rw [hstep]
        exact (find_modify_same ..).trans (congrArg (Option.map f) hch)
      have hlen : ch.reader.length = reader.length + 1 := by
        rw [← length_contents, pop_some hpop, List.length_cons, length_contents]
      have hlt : (f ch).reader.length < fuel := by
        change reader.length < fuel
        omega
      obtain ⟨rest, hempty, hloop⟩ := ih hp' hnext hlt
      refine ⟨rest, hempty, ?_⟩
      rw [hloop, hstep, wakeAll_channel, modify_modify, pop_some hpop]
      rfl

theorem scheduleSend_eq (h : Positive s) {ch : Channel} (hch : s.channel.find c = some ch)
    (msg : Ptr) : ∃ rest : Queue TaskId, rest.contents = [] ∧ scheduleSend s c msg =
      some { wakeAll s ch.reader.contents with
        channel := s.channel.modify c fun ch => ⟨ch.mq.push msg, rest⟩ } := by
  let f : Channel → Channel := fun ch => { ch with mq := ch.mq.push msg }
  have hp : Positive ((s.grabChannel c).pushMessage c msg) :=
    (borrow_channel f).positive (positive_grabChannel h)
  have hfind : ((s.grabChannel c).pushMessage c msg).channel.find c = some (f ch) := by
    change ((s.channel.grab c).modify c f).find c = some (f ch)
    rw [find_modify_same, find_grab, hch]
    rfl
  obtain ⟨rest, hempty, hloop⟩ := wakeLoop_eq hp hfind (Nat.lt_succ_self _)
  have hwake : wakeAll ((s.grabChannel c).pushMessage c msg) ch.reader.contents =
      { wakeAll s ch.reader.contents with channel := (s.channel.grab c).modify c f } :=
    wakeAll_channel _ s _
  have hreturn : (((s.channel.grab c).modify c f).modify c fun ch =>
      { ch with reader := rest }).release c =
        s.channel.modify c fun ch => ⟨ch.mq.push msg, rest⟩ := by
    rw [modify_modify, release_modify_grab _ _ (h.channel_count hch)]
  refine ⟨rest, hempty, ?_⟩
  simp only [scheduleSend, hch]
  rw [hloop, Option.map_some]
  change some (releaseChannel { wakeAll _ ch.reader.contents with channel := _ } c) = _
  rw [hwake]
  exact congrArg (fun A => some { wakeAll s ch.reader.contents with channel := A }) hreturn

/-- The tasks of `woken`, and no others, have become ready and are at the ends of the ready
queues of their workers. -/
structure Wakes (s s' : Schedule) (woken : List TaskId) : Prop where
  threads : s'.threads = s.threads
  current : s'.current = s.current
  nodup : woken.Nodup
  ready : ∀ t ∈ woken, s'.task t = (s.task t).map fun r => ({ r.1 with status := .ready }, r.2)
  other : ∀ t, t ∉ woken → s'.task t = s.task t
  queued : ∀ i, (s'.q i).contents = (s.q i).contents ++
    woken.filter fun t => (s.task.find t).map Task.thread = some i

theorem wakes_nil (s : Schedule) : Wakes s s [] where
  threads := rfl
  current := rfl
  nodup := List.nodup_nil
  ready _ ht := absurd ht List.not_mem_nil
  other _ _ := rfl
  queued _ := (List.append_nil _).symm

theorem commitTask_other (h : s.status t ≠ some status) : commitTask s t status = s := by
  unfold commitTask
  split
  · rename_i r hr
    rw [find_status s hr] at h
    exact if_neg fun hst => h (congrArg some hst)
  · rfl

/-- A task that is woken before the others. -/
theorem Wakes.cons {woken : List TaskId} {r : Task} (hr : s.task.find t = some r)
    (h : Wakes ((s.setStatus t .ready).pushReady r.thread t) s' woken) (ht : t ∉ woken) :
    Wakes s s' (t :: woken) := by
  let f : Task → Task := fun r => { r with status := .ready }
  have hsame : ((s.setStatus t .ready).pushReady r.thread t).task t =
      (s.task t).map fun r => (f r.1, r.2) := modify_same _ f
  have hother : ∀ x, x ≠ t →
      ((s.setStatus t .ready).pushReady r.thread t).task x = s.task x := fun x hx =>
    modify_other _ f hx
  have hthread : ∀ x, (((s.setStatus t .ready).pushReady r.thread t).task.find x).map Task.thread =
      (s.task.find x).map Task.thread := by
    intro x
    by_cases hx : x = t
    · subst hx
      rw [RefMap.find, hsame, RefMap.find, Option.map_map, Option.map_map, Option.map_map]
      rfl
    · rw [RefMap.find, hother x hx, RefMap.find]
  refine ⟨h.threads, h.current, List.nodup_cons.mpr ⟨ht, h.nodup⟩, fun x hx => ?_, fun x hx => ?_,
    fun i => ?_⟩
  · rcases List.mem_cons.mp hx with rfl | hx
    · rw [h.other x ht, hsame]
    · have hxt : x ≠ t := fun hxt => ht (hxt ▸ hx)
      rw [h.ready x hx, hother x hxt]
  · rw [List.mem_cons, not_or] at hx
    rw [h.other x hx.2, hother x hx.1]
  · have hq := h.queued i
    simp only [hthread] at hq
    rw [hq, List.filter_cons, hr, Option.map_some]
    by_cases hi : i = r.thread
    · subst hi
      simp [Schedule.pushReady, Schedule.setStatus]
    · simp [Schedule.pushReady, Schedule.setStatus, Function.update_of_ne hi, Ne.symm hi]

/-- Whatever the list holds, its blocked tasks are woken once. -/
theorem wakeAll_wakes (readers : List TaskId) : ∀ s, ∃ woken, Wakes s (wakeAll s readers) woken ∧
    ∀ t, t ∈ woken ↔ s.status t = some .blocked ∧ t ∈ readers := by
  induction readers with
  | nil => exact fun s => ⟨[], wakes_nil s, by simp⟩
  | cons x readers ih =>
    intro s
    by_cases hst : s.status x = some .blocked
    · obtain ⟨r, hr, hb⟩ := status_find hst
      obtain ⟨woken, hwakes, hmem⟩ := ih ((s.setStatus x .ready).pushReady r.thread x)
      have hstep : wakeAll s (x :: readers) =
          wakeAll ((s.setStatus x .ready).pushReady r.thread x) readers := by
        rw [wakeAll, List.foldl_cons, commitTask_found hr, if_pos hb]
        rfl
      have hx : x ∉ woken := by
        rw [hmem]
        rintro ⟨hblocked, -⟩
        change (s.setStatus x .ready).status x = some .blocked at hblocked
        rw [status_setStatus, hst] at hblocked
        cases hblocked
      refine ⟨x :: woken, hstep ▸ hwakes.cons hr hx, fun t => ?_⟩
      by_cases htx : t = x
      · subst htx
        simp [hst]
      · have hsame : ((s.setStatus x .ready).pushReady r.thread x).status t = s.status t :=
          status_setStatus_other _ _ htx
        rw [List.mem_cons, List.mem_cons, hmem, hsame]
        simp only [htx, false_or]
    · obtain ⟨woken, hwakes, hmem⟩ := ih s
      have hstep : wakeAll s (x :: readers) = wakeAll s readers := by
        rw [wakeAll, List.foldl_cons, commitTask_other hst]
        rfl
      refine ⟨woken, hstep ▸ hwakes, fun t => ?_⟩
      rw [hmem, List.mem_cons]
      constructor
      · exact fun h => ⟨h.1, Or.inr h.2⟩
      · rintro ⟨hb, rfl | ht⟩
        · exact absurd hb hst
        · exact ⟨hb, ht⟩

/-- What a send to an open channel leaves. -/
structure Delivered (s : Schedule) (c : ChannelId) (msg : Ptr) (s' : Schedule) : Prop where
  live : (s'.channel c).isSome
  emptied : s'.readers c = []
  appended : s'.messages c = s.messages c ++ [msg]
  others : ∀ d, d ≠ c → s'.channel d = s.channel d
  wakes : ∃ woken, Wakes s s' woken ∧
    ∀ t, t ∈ woken ↔ s.status t = some .blocked ∧ t ∈ s.readers c

theorem send_delivered (h : Positive s) (hc : (s.channel c).isSome) (msg : Ptr) :
    ∃ s', scheduleSend s c msg = some s' ∧ Delivered s c msg s' := by
  rw [← isSome_find] at hc
  obtain ⟨ch, hch⟩ := Option.isSome_iff_exists.mp hc
  obtain ⟨rest, hempty, hsend⟩ := scheduleSend_eq h hch msg
  obtain ⟨woken, hwakes, hmem⟩ := wakeAll_wakes ch.reader.contents s
  refine ⟨_, hsend, ?_⟩
  let f : Channel → Channel := fun ch => ⟨ch.mq.push msg, rest⟩
  obtain ⟨-, -, hr, hm, hr', hm'⟩ := find_modified s
    { wakeAll s ch.reader.contents with channel := s.channel.modify c f } rfl hch
  constructor
  · exact (isSome_modify _ f c c).trans (isSome_find _ ▸ hc)
  · exact hr'.trans hempty
  · rw [hm]
    exact hm'.trans (push_contents ch.mq msg)
  · exact fun d hd => modify_other _ f hd
  · refine ⟨woken, ⟨hwakes.threads, hwakes.current, hwakes.nodup, hwakes.ready, hwakes.other,
      hwakes.queued⟩, ?_⟩
    rw [hr]
    exact hmem

/-- A send ends. To an open channel it wakes the tasks that wait there, each once; to any other
handle it does nothing. A live task is one in the task map: a send that meets the id of a task
that ended, or that a growth of the map lost, drops it. -/
theorem send_wakes_waiting {threads : ℕ} (h : Reachable (callSystem threads) (some s))
    (c : ChannelId) (msg : Ptr) :
    ∃ s', scheduleSend s c msg = some s' ∧
      ((s.channel c).isSome → Delivered s c msg s') ∧ (s.channel c = none → s' = s) := by
  have hp := (reachable_balanced h).1.positive
  cases hc : s.channel c with
  | none =>
    have hfind : s.channel.find c = none := by simp [RefMap.find, hc]
    refine ⟨s, by simp only [scheduleSend, hfind], fun hsome => ?_, fun _ => rfl⟩
    cases hsome
  | some e =>
    have hopen : (s.channel c).isSome := by rw [hc]; rfl
    obtain ⟨s', hsend, hdelivered⟩ := send_delivered hp hopen msg
    exact ⟨s', hsend, fun _ => hdelivered, fun hnone => by cases hnone⟩

/-- The reader queue holds a blocked task twice and one that has ended. -/
def staleCalls : List Call :=
  [.opentask 101 1, .opentask 102 2, .newchannel 1, .grabtask 0, .select 1 [1, 1],
    .releasetask 1, .grabtask 1, .select 2 [1], .closetask 2]

def staleRun : Schedule :=
  (runTrace (callSystem 2) (some (scheduleCreate 2)) staleCalls).getD (scheduleCreate 2)

theorem send_wakes_waiting_staleRun : staleRun.readers 1 = [1, 1, 2] ∧
    ∃ s', scheduleSend staleRun 1 9 = some s' ∧ Delivered staleRun 1 9 s' :=
  have hrun : Reachable (callSystem 2)
      (runTrace (callSystem 2) (some (scheduleCreate 2)) staleCalls) :=
    .run (.start ⟨by decide, rfl⟩) (by decide +kernel)
  have ⟨s', hsend, hdelivered, _⟩ := send_wakes_waiting (s := staleRun) hrun 1 9
  ⟨by decide +kernel, s', hsend, hdelivered (by decide +kernel)⟩

end LtaskSend
