import Grt.LtaskSelect
import Grt.LtaskSend
import Grt.LtaskGrabtask

/-! Blocked tasks and the channels that can wake them. A send takes the readers of its channel
and wakes them, so a blocked task stays registered until it is woken; but closing a channel
throws its reader queue away, and a select whose channels are all closed registers nowhere. -/
namespace LtaskWakeable

open LtaskQueue RefCountedMap LtaskSchedule LtaskReferences LtaskSelect LtaskSend
  LtaskGrabtask TransitionSystem

variable {s s' s'' : Schedule} {t id : TaskId} {c d : ChannelId} {status : TaskStatus}

/-- The task is in the reader queue of an open channel. -/
def Waits (s : Schedule) (t : TaskId) : Prop := ∃ c, (s.channel c).isSome ∧ t ∈ s.readers c

def Wakeable (s : Schedule) : Prop := ∀ t, s.status t = some .blocked → Waits s t

/-- The readers of `c` that are blocked are registered with another open channel. -/
def Elsewhere (s : Schedule) (c : ChannelId) : Prop :=
  ∀ t ∈ s.readers c, s.status t = some .blocked →
    ∃ d, d ≠ c ∧ (s.channel d).isSome ∧ t ∈ s.readers d

/-- A close leaves every blocked reader another channel, as does a growth that loses the
handle; a select that finds no message has an open channel, or its task is registered. -/
def KeepsWakeable (s : Schedule) : Call → Prop
  | .closechannel c => Elsewhere s c
  | .growChannels lost => Elsewhere s lost
  | .select t channels => (s.task t).isSome → (∀ c ∈ channels, s.messages c = []) →
      (∃ c ∈ channels, (s.channel c).isSome) ∨ Waits s t
  | _ => True

/-- No task becomes blocked, and those that stay so keep their registrations. -/
structure Calms (s s' : Schedule) : Prop where
  blocked : ∀ t, s'.status t = some .blocked → s.status t = some .blocked
  waits : ∀ t, s'.status t = some .blocked → Waits s t → Waits s' t

theorem Calms.refl (s : Schedule) : Calms s s := ⟨fun _ ht => ht, fun _ _ hw => hw⟩

theorem Calms.wakeable (h : Calms s s') (hs : Wakeable s) : Wakeable s' := fun t ht =>
  h.waits t ht (hs t (h.blocked t ht))

theorem readers_congr (h : s'.channel c = s.channel c) : s'.readers c = s.readers c := by
  unfold Schedule.readers RefMap.find
  rw [h]

theorem waits_congr (h : s'.channel = s.channel) : Waits s' t ↔ Waits s t := by
  unfold Waits
  simp only [h, readers_congr (congrFun h _)]

/-- A call that leaves the channels alone. -/
theorem calms_tasks (hst : ∀ t, s'.status t = some .blocked → s.status t = some .blocked)
    (hchannel : s'.channel = s.channel) : Calms s s' :=
  ⟨hst, fun _ _ => (waits_congr hchannel).mpr⟩

/-- A call that leaves the tasks alone. -/
theorem calms_channels (htask : s'.task = s.task)
    (hwaits : ∀ c, (s.channel c).isSome → (s'.channel c).isSome ∧ s'.readers c = s.readers c) :
    Calms s s' := by
  constructor
  · intro t ht
    rwa [Schedule.status, htask] at ht
  · rintro t - ⟨c, hc, hmem⟩
    obtain ⟨hc', hr⟩ := hwaits c hc
    exact ⟨c, hc', hr ▸ hmem⟩

theorem commitTask_blocked (h : (commitTask s t status).status id = some .blocked) :
    s.status id = some .blocked := by
  unfold commitTask at h
  split at h
  · split at h
    · rcases setStatus_cases s h with ⟨hold, -⟩ | ⟨-, hready⟩
      · exact hold
      · cases hready
    · exact h
  · exact h

theorem commitTask_channel_eq : (commitTask s t status).channel = s.channel := by
  unfold commitTask
  split
  · split <;> rfl
  · rfl

theorem calms_opentask (ud : Ptr) (id : TaskId) : Calms s (scheduleOpentask s ud id) := by
  apply calms_tasks
  · intro t ht
    have hmiddle := commitTask_blocked ht
    change ({ s with task := s.task.register id ⟨ud, .init, s.current⟩ } : Schedule).status t = _
      at hmiddle
    rw [status_register] at hmiddle
    split at hmiddle
    · cases hmiddle
    · exact hmiddle
  · exact commitTask_channel_eq

/-- Ids of tasks that are gone leave the queues, and the task that is taken runs. -/
theorem grabLoop_calms {thread fuel : ℕ} {r : Option (TaskId × Ptr)}
    (h : grabLoop thread fuel s = some (r, s')) :
    (∀ t, s'.status t = some .blocked → s.status t = some .blocked) ∧ s'.channel = s.channel := by
  induction fuel generalizing s with
  | zero => cases h
  | succ fuel ih =>
    simp only [grabLoop] at h
    rcases @popReady_scan s thread s.threads le_rfl with ⟨hnone, -⟩ | ⟨id, j, q, -, -, hpop, -, -⟩
    · rw [hnone] at h
      cases h
      exact ⟨fun _ ht => ht, rfl⟩
    · rw [hpop] at h
      cases hfind : s.task.find id with
      | none =>
        simp only [hfind] at h
        obtain ⟨hst, hchannel⟩ := ih h
        exact ⟨hst, hchannel⟩
      | some t =>
        simp only [hfind] at h
        split at h
        · cases h
        · cases h
          refine ⟨fun x hx => ?_, rfl⟩
          have hset := status_releaseTask _ hx
          rw [status_setRunning] at hset
          rcases setStatus_cases _ hset with ⟨hold, -⟩ | ⟨-, hrun⟩
          · rwa [status_grabTask] at hold
          · cases hrun

theorem calms_releasetask (h : scheduleReleasetask s id = some s') : Calms s s' := by
  rcases scheduleReleasetask_cases h with rfl | rfl | rfl
  · exact .refl s'
  · exact calms_tasks (fun t ht => by simpa using status_releaseTask _ ht) rfl
  · exact calms_tasks (fun t ht => by simpa using commitTask_blocked (status_releaseTask _ ht))
      commitTask_channel_eq

/-- A woken task is not blocked, and one that stays blocked was not among the readers. -/
theorem calms_send {msg : Ptr} (h : Delivered s c msg s') : Calms s s' := by
  obtain ⟨woken, hwakes, hmem⟩ := h.wakes
  have hblocked : ∀ t, s'.status t = some .blocked → t ∉ woken := by
    intro t ht hw
    rw [Schedule.status, hwakes.ready t hw, Option.map_map, Option.map_eq_some_iff] at ht
    obtain ⟨r, -, hready⟩ := ht
    cases hready
  have hsame : ∀ t, s'.status t = some .blocked → s.status t = some .blocked := by
    intro t ht
    rwa [Schedule.status, hwakes.other t (hblocked t ht)] at ht
  refine ⟨hsame, fun t ht => ?_⟩
  rintro ⟨d, hd, hr⟩
  have hdc : d ≠ c := by
    rintro rfl
    exact hblocked t ht ((hmem t).mpr ⟨hsame t ht, hr⟩)
  refine ⟨d, ?_, ?_⟩
  · rwa [h.others d hdc]
  · rwa [readers_congr (h.others d hdc)]

theorem calms_recv (h : Positive s) : Calms s (scheduleRecv s c).2 := by
  unfold scheduleRecv
  split
  · rename_i ch hch
    dsimp only
    split
    · rename_i msg mq hpop
      let f : Channel → Channel := fun ch => { ch with mq := mq }
      have hs' : releaseChannel ((s.grabChannel c).setMq c mq) c =
          { s with channel := s.channel.modify c f } := release_write h hch f
      dsimp only
      rw [hs']
      obtain ⟨-, hother, hr, -, hr', -⟩ :=
        find_modified s { s with channel := s.channel.modify c f } rfl hch
      apply calms_channels
      · rfl
      · intro d hd
        refine ⟨(isSome_modify ..).trans hd, ?_⟩
        by_cases hdc : d = c
        · subst hdc
          rw [hr, hr']
        · exact (hother d hdc).1
    · dsimp only
      rw [releaseChannel_grab h hch]
      exact .refl s
  · exact .refl s

theorem calms_newchannel (h : s.channel id = none) : Calms s (scheduleNewchannel s id) := by
  apply calms_channels
  · rfl
  · intro c hc
    have hne : c ≠ id := by
      rintro rfl
      rw [h] at hc
      cases hc
    have hsame : (scheduleNewchannel s id).channel c = s.channel c := register_other _ _ hne
    refine ⟨?_, readers_congr hsame⟩
    rwa [hsame]

/-- A channel that goes takes its reader queue with it. -/
theorem wakeable_without (htask : s'.task = s.task) (hgone : s'.channel c = none)
    (hother : ∀ d, d ≠ c → s'.channel d = s.channel d) (hs : Wakeable s) :
    Wakeable s' ↔ Elsewhere s c := by
  have hst : ∀ t, s'.status t = s.status t := fun t => by
    rw [Schedule.status, htask, Schedule.status]
  constructor
  · intro h t _ hb
    obtain ⟨d, hd, hr⟩ := h t ((hst t).trans hb)
    have hdc : d ≠ c := by
      rintro rfl
      rw [hgone] at hd
      cases hd
    rw [hother d hdc] at hd
    rw [readers_congr (hother d hdc)] at hr
    exact ⟨d, hdc, hd, hr⟩
  · intro h t hb
    have hb : s.status t = some .blocked := (hst t).symm.trans hb
    have hmoved : ∃ d, d ≠ c ∧ (s.channel d).isSome ∧ t ∈ s.readers d := by
      obtain ⟨d, hd, hr⟩ := hs t hb
      by_cases hdc : d = c
      · subst hdc
        exact h t hr hb
      · exact ⟨d, hdc, hd, hr⟩
    obtain ⟨d, hdc, hd, hr⟩ := hmoved
    refine ⟨d, ?_, ?_⟩
    · rwa [hother d hdc]
    · rwa [readers_congr (hother d hdc)]

theorem close_gone (h : Balanced s) (c : ChannelId) :
    (scheduleClosechannel s c).channel c = none := by
  change s.channel.release c c = none
  cases hc : s.channel c with
  | none => simp [hc]
  | some r =>
    have hone := h.channel c r.2 (by simp [RefMap.refs, hc])
    simp [hc, hone]

theorem block_waits {channels : List ChannelId} : Waits (block s t channels) id ↔
    Waits s id ∨ id = t ∧ ∃ c ∈ channels, (s.channel c).isSome := by
  have hopen : ∀ c, ((block s t channels).channel c).isSome = (s.channel c).isSome :=
    isSome_registerReaders channels s.channel
  have hreaders : ∀ c, (s.channel c).isSome → (block s t channels).readers c =
      s.readers c ++ List.replicate (channels.count c) t := fun c hc =>
    readers_registerReaders channels (s.setStatus t .blocked) hc
  constructor
  · rintro ⟨c, hc, hr⟩
    rw [hopen] at hc
    rw [hreaders c hc, List.mem_append, List.mem_replicate] at hr
    rcases hr with hr | ⟨hcount, rfl⟩
    · exact Or.inl ⟨c, hc, hr⟩
    · exact Or.inr ⟨rfl, c, List.count_pos_iff.mp (Nat.pos_of_ne_zero hcount), hc⟩
  · rintro (⟨c, hc, hr⟩ | ⟨rfl, c, hmem, hc⟩)
    · refine ⟨c, (hopen c).trans hc, ?_⟩
      rw [hreaders c hc]
      exact List.mem_append_left _ hr
    · refine ⟨c, (hopen c).trans hc, ?_⟩
      rw [hreaders c hc, List.mem_append, List.mem_replicate]
      exact Or.inr ⟨(List.count_pos_iff.mpr hmem).ne', rfl⟩

theorem wakeable_block (ht : (s.task t).isSome) (hs : Wakeable s) (channels : List ChannelId) :
    Wakeable (block s t channels) ↔ (∃ c ∈ channels, (s.channel c).isSome) ∨ Waits s t := by
  constructor
  · intro h
    rcases block_waits.mp (h t (block_announces ht channels).1) with hw | ⟨-, hc⟩
    · exact Or.inr hw
    · exact Or.inl hc
  · intro h x hx
    rw [block_waits]
    change (s.setStatus t .blocked).status x = some .blocked at hx
    rcases setStatus_cases s hx with ⟨hold, -⟩ | ⟨rfl, -⟩
    · exact Or.inl (hs x hold)
    · rcases h with hc | hw
      · exact Or.inr ⟨rfl, hc⟩
      · exact Or.inl hw

theorem wakeable_select (hp : Positive s) (hs : Wakeable s) (channels : List ChannelId) :
    Wakeable (scheduleSelect s t channels).2 ↔ KeepsWakeable s (.select t channels) := by
  cases ht : s.task t with
  | none =>
    rw [scheduleSelect_absent ht]
    refine ⟨fun _ hlive => ?_, fun _ => hs⟩
    rw [ht] at hlive
    cases hlive
  | some r =>
    have hlive : (s.task t).isSome := by rw [ht]; rfl
    rw [scheduleSelect_eq hp hlive]
    cases hfind : channels.find? fun c => s.messages c ≠ [] with
    | none =>
      have hempty : ∀ c ∈ channels, s.messages c = [] := by simpa using hfind
      rw [show KeepsWakeable s (.select t channels) ↔ _ from
        ⟨fun h => h hlive hempty, fun h _ _ => h⟩]
      exact wakeable_block hlive hs channels
    | some c =>
      have hc : s.messages c ≠ [] := by simpa using List.find?_some hfind
      refine ⟨fun _ _ hempty => ?_, fun _ => hs⟩
      exact absurd (hempty c (List.mem_of_find?_eq_some hfind)) hc

/-- A call on a state whose blocked tasks are wakeable leaves one exactly if it meets the
condition. -/
theorem call_wakeable {e : Call} (hb : Balanced s) (hs : Wakeable s) (he : CallEnabled s e)
    (h : call s e = some s') : Wakeable s' ↔ KeepsWakeable s e := by
  have hp := hb.positive
  have keeps : Calms s s' → KeepsWakeable s e → (Wakeable s' ↔ KeepsWakeable s e) :=
    fun hcalms hk => ⟨fun _ => hk, fun _ => hcalms.wakeable hs⟩
  cases e with
  | opentask ud id =>
    cases h
    exact keeps (calms_opentask ud id) trivial
  | closetask t =>
    cases h
    exact keeps (calms_tasks (fun _ => status_releaseTask s) rfl) trivial
  | grabtask thread =>
    obtain ⟨⟨r, s₁⟩, hgrab, rfl⟩ := Option.map_eq_some_iff.mp h
    obtain ⟨hst, hchannel⟩ := grabLoop_calms hgrab
    exact keeps (calms_tasks hst hchannel) trivial
  | releasetask t => exact keeps (calms_releasetask h) trivial
  | select t channels =>
    cases h
    exact wakeable_select hp hs channels
  | newchannel id =>
    cases h
    exact keeps (calms_newchannel (Option.isNone_iff_eq_none.mp he.2)) trivial
  | closechannel c =>
    cases h
    exact wakeable_without rfl (close_gone hb c) (fun d hd => release_other _ hd) hs
  | isclosed c =>
    cases h
    rw [scheduleIsclosed_eq hp]
    exact ⟨fun _ => trivial, fun _ => hs⟩
  | recv c =>
    cases h
    exact keeps (calms_recv hp) trivial
  | send c msg =>
    cases hc : s.channel c with
    | none =>
      have hfind : s.channel.find c = none := by simp [RefMap.find, hc]
      simp only [call, scheduleSend, hfind] at h
      cases h
      exact keeps (.refl s) trivial
    | some r =>
      have hopen : (s.channel c).isSome := by rw [hc]; rfl
      obtain ⟨s₁, hsend, hdelivered⟩ := send_delivered hp hopen msg
      obtain rfl := Option.some.inj (hsend.symm.trans h)
      exact keeps (calms_send hdelivered) trivial
  | growTasks lost =>
    cases h
    refine keeps (calms_tasks (fun t ht => ?_) rfl) trivial
    by_cases htl : t = lost
    · subst htl
      simp [Schedule.status] at ht
    · simpa [Schedule.status, Function.update_of_ne htl] using ht
  | growChannels lost =>
    cases h
    exact wakeable_without rfl (Function.update_self ..)
      (fun d hd => Function.update_of_ne hd ..) hs

/-- The runs whose calls all meet the condition. -/
def wakeableSystem (threads : ℕ) : System (Option Schedule) Call :=
  (callSystem threads).when fun r e => r.elim True fun s => KeepsWakeable s e

/-- In these runs every blocked task can be woken between two calls, and the next call keeps
this exactly if it meets the condition too. The tasks are those in the task map: one that a growth
of the map lost has no status that a call could see. -/
theorem blocked_tasks_wakeable {threads : ℕ} (h : Reachable (wakeableSystem threads) (some s)) :
    Wakeable s ∧ ∀ e s', CallEnabled s e → call s e = some s' →
      (Wakeable s' ↔ KeepsWakeable s e) := by
  have hbalanced : Reachable (callSystem threads) (some s) := h.of_when
  have hwakeable : Wakeable s := by
    have := h.invariant (I := fun r => ∀ s, r = some s → Wakeable s) ?_ ?_
    · exact this s rfl
    · rintro r ⟨-, rfl⟩ s hs t ht
      obtain rfl := Option.some.inj hs
      cases ht
    · intro r e hr ih he s hs
      cases r with
      | none => cases hs
      | some sched =>
        have hb := (reachable_balanced hr.of_when).1
        exact (call_wakeable hb (ih sched rfl) he.1 hs).mpr he.2
  exact ⟨hwakeable, fun e s' he hcall =>
    call_wakeable (reachable_balanced hbalanced).1 hwakeable he hcall⟩

/-- A task waits for two channels, and one of them is closed. -/
def twoChannelCalls : List Call :=
  [.opentask 101 1, .newchannel 1, .newchannel 2, .grabtask 0, .select 1 [1, 2]]

def twoChannelRun : Schedule :=
  (runTrace (callSystem 1) (some (scheduleCreate 1)) twoChannelCalls).getD (scheduleCreate 1)

theorem blocked_tasks_wakeable_twoChannelRun :
    Wakeable twoChannelRun ∧ Wakeable (scheduleClosechannel twoChannelRun 1) := by
  have hrun : Reachable (wakeableSystem 1)
      (runTrace (wakeableSystem 1) (some (scheduleCreate 1)) twoChannelCalls) := by
    apply Reachable.run
    · exact .start ⟨by decide, rfl⟩
    · have hselect : KeepsWakeable
          ((runTrace (callSystem 1) (some (scheduleCreate 1)) (twoChannelCalls.take 4)).getD
            (scheduleCreate 1)) (.select 1 [1, 2]) := fun _ _ =>
        Or.inl ⟨1, List.mem_cons_self, by decide +kernel⟩
      exact ⟨⟨by decide, trivial⟩, ⟨by decide, trivial⟩, ⟨by decide, trivial⟩,
        ⟨by decide, trivial⟩, ⟨trivial, hselect⟩, trivial⟩
  obtain ⟨hw, hnext⟩ := blocked_tasks_wakeable (s := twoChannelRun) hrun
  refine ⟨hw, (hnext (.closechannel 1) _ trivial rfl).mpr fun t ht _ => ?_⟩
  have hreaders : twoChannelRun.readers 1 = [1] := by decide +kernel
  rw [hreaders, List.mem_singleton] at ht
  subst ht
  exact ⟨2, by decide, by decide +kernel, by decide +kernel⟩

/-- A select of a channel that is not there leaves its task blocked for good, and so does the
close of the only channel a task waits for. -/
theorem blocked_for_good :
    (∃ s, Reachable (callSystem 1) (some s) ∧ ¬ Wakeable s) ∧
      ∃ s, Reachable (callSystem 1) (some s) ∧ ¬ Wakeable (scheduleClosechannel s 1) := by
  have hrun : ∀ es, ValidTrace (callSystem 1) (some (scheduleCreate 1)) es →
      Reachable (callSystem 1) (runTrace (callSystem 1) (some (scheduleCreate 1)) es) :=
    fun es => .run (.start ⟨by decide, rfl⟩)
  constructor
  · have hselect := hrun [.opentask 101 1, .grabtask 0, .select 1 [7]] (by decide +kernel)
    refine ⟨_, hselect, fun h => ?_⟩
    obtain ⟨c, hc, -⟩ := h 1 (by decide +kernel)
    cases hc
  · have hclose := hrun [.opentask 101 1, .newchannel 1, .grabtask 0, .select 1 [1]]
      (by decide +kernel)
    refine ⟨_, hclose, fun h => ?_⟩
    obtain ⟨c, hc, -⟩ := h 1 (by decide +kernel)
    rcases c with _ | _ | c <;> cases hc

end LtaskWakeable
