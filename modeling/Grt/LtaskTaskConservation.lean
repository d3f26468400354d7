import Grt.LtaskTaskPlaces
import Grt.TransitionSystem

/-! Runs of the scheduler with `threads = 1`. The main thread makes its calls and then waits
for the one worker, which grabs a task, runs a slice of it and releases it. A task whose select
returned no channel makes no further call in its slice. -/
namespace LtaskTaskConservation

open LtaskReferences LtaskSchedule LtaskSingleWorker LtaskTaskPlaces TransitionSystem

/-- `failed` is a failed assertion or a loop that did not end. -/
inductive Mode where
  | setup
  | idle
  | slice (t : TaskId)
  | stop (t : TaskId)
  | failed
  deriving DecidableEq

/-- `waits` are the channels of the last select of a task that have been open since. -/
structure Run extends Schedule where
  mode : Mode
  waits : TaskId → List ChannelId

inductive Call where
  | send (c : ChannelId) (msg : Ptr)
  | recv (c : ChannelId)
  | isclosed (c : ChannelId)
  | opentask (ud : Ptr) (id : TaskId)
  | newchannel (id : ChannelId)
  | closechannel (c : ChannelId)

inductive Event where
  | run
  | grab
  | call (c : Call)
  | select (t : TaskId) (channels : List ChannelId)
  | yield (t : TaskId)
  | finish (t : TaskId)

def Run.put (s : Run) (mode : Mode) : Option Schedule → Run
  | some sched => { s with toSchedule := sched, mode := mode }
  | none => { s with mode := .failed }

def callStep (s : Run) : Call → Run
  | .send c msg => s.put s.mode (scheduleSend s.toSchedule c msg)
  | .recv c => { s with toSchedule := (scheduleRecv s.toSchedule c).2 }
  | .isclosed c => { s with toSchedule := (scheduleIsclosed s.toSchedule c).2 }
  | .opentask ud id => { s with toSchedule := scheduleOpentask s.toSchedule ud id }
  | .newchannel id => { s with toSchedule := scheduleNewchannel s.toSchedule id }
  | .closechannel c =>
    { s with
      toSchedule := scheduleClosechannel s.toSchedule c
      waits := fun t => (s.waits t).filter (· ≠ c) }

def next (s : Run) : Event → Run
  | .run => { s with mode := .idle }
  | .grab =>
    match scheduleGrabtask s.toSchedule 0 with
    | some (some (id, _), sched) => s.put (.slice id) (some sched)
    | some (none, sched) => s.put .idle (some sched)
    | none => s.put .failed none
  | .call c => callStep s c
  | .select t channels =>
    let (c, sched) := scheduleSelect s.toSchedule t channels
    { s with
      toSchedule := sched
      mode := if c = 0 then .stop t else .slice t
      waits := Function.update s.waits t (channels.filter fun c => (s.channel c).isSome) }
  | .yield t => s.put .idle (scheduleReleasetask s.toSchedule t)
  | .finish t => s.put .idle (scheduleReleasetask (scheduleClosetask s.toSchedule t) t)

/-- The handle maps are correct: a new handle is not 0 and not live. -/
def CallEnabled (s : Run) : Call → Prop
  | .send _ msg => msg ≠ 0
  | .opentask _ id => id ≠ 0 ∧ s.task id = none
  | .newchannel id => id ≠ 0 ∧ s.channel id = none
  | _ => True

def Mode.calls : Mode → Prop
  | .setup | .slice _ => True
  | _ => False

def Enabled (s : Run) : Event → Prop
  | .run => s.mode = .setup
  | .grab => s.mode = .idle
  | .call c => s.mode.calls ∧ CallEnabled s c
  | .select t _ => s.mode = .slice t
  | .yield t | .finish t => s.mode = .slice t ∨ s.mode = .stop t

instance (m : Mode) : Decidable m.calls := by
  cases m <;> simp only [Mode.calls] <;> infer_instance

instance (s : Run) (c : Call) : Decidable (CallEnabled s c) := by
  cases c <;> simp only [CallEnabled] <;> infer_instance

instance (s : Run) (e : Event) : Decidable (Enabled s e) := by
  cases e <;> simp only [Enabled] <;> infer_instance

def initial : Run := ⟨scheduleCreate 1, .setup, fun _ => []⟩

def workerSystem : System Run Event := ⟨fun s => s = initial, Enabled, next⟩

instance (s : Run) (e : Event) : Decidable (workerSystem.enabled s e) :=
  inferInstanceAs (Decidable (Enabled s e))

def Mode.running : Mode → Option TaskId
  | .slice t => some t
  | _ => none

structure Invariant (s : Run) : Prop where
  conserved : Conserved s.toSchedule s.mode.running s.waits none
  stopped : ∀ t, s.mode = .stop t → s.status t = some .blocked
  ok : s.mode ≠ .failed

variable {s : Run} {e : Event} {t : TaskId}

theorem initial_invariant : Invariant initial := by
  refine ⟨⟨⟨rfl, rfl, rfl, nofun, nofun, nofun⟩, List.nodup_nil, fun t => ?_, nofun, nofun, nofun,
    nofun⟩, nofun, nofun⟩
  simp [initial, scheduleCreate, Schedule.status, RefCountedMap.RefMap.empty]

/-- A call other than a select leaves the caller where it is. -/
theorem callStep_invariant (h : Invariant s) (hmode : s.mode.calls) {c : Call}
    (hc : CallEnabled s c) : Invariant (callStep s c) := by
  have hstop : ∀ t, s.mode ≠ .stop t := by
    intro t hst
    rw [hst] at hmode
    exact hmode
  have hkeep {sched : Schedule} {waits : TaskId → List ChannelId}
      (hsched : Conserved sched s.mode.running waits none) :
      Invariant { s with toSchedule := sched, waits := waits } :=
    ⟨hsched, fun t hst => absurd hst (hstop t), h.ok⟩
  cases c with
  | send c msg =>
    obtain ⟨sched, heq, hsched⟩ := h.conserved.send c msg
    simp only [callStep, heq]
    exact hkeep hsched
  | recv c => exact hkeep (h.conserved.recv c)
  | isclosed c =>
    apply hkeep
    rw [scheduleIsclosed_eq h.conserved.toAlone.positive]
    exact h.conserved
  | opentask ud id => exact hkeep (conserved_opentask h.conserved ud hc.2)
  | newchannel id => exact hkeep (h.conserved.newchannel hc.2 hc.1)
  | closechannel c => exact hkeep (h.conserved.closechannel c)

theorem idle_invariant {sched : Schedule} (h : Conserved sched none s.waits none) :
    Invariant (s.put .idle (some sched)) := ⟨h, nofun, nofun⟩

theorem grab_invariant (h : Invariant s) (hidle : s.mode = .idle) : Invariant (next s .grab) := by
  have hcons := h.conserved
  rw [hidle] at hcons
  rcases conserved_grabtask hcons with heq | ⟨id, ud, sched, heq, hsched⟩
  · simp only [next, heq]
    exact idle_invariant hcons
  · simp only [next, heq]
    exact ⟨hsched, nofun, nofun⟩

theorem select_invariant (h : Invariant s) (hslice : s.mode = .slice t)
    (channels : List ChannelId) : Invariant (next s (.select t channels)) := by
  have hcons := h.conserved
  rw [hslice] at hcons
  rcases conserved_select hcons channels with ⟨c, hlive, heq⟩ | ⟨sched, heq, hst, hsched⟩
  · have hc : c ≠ 0 := by
      rintro rfl
      rw [hcons.zero] at hlive
      cases hlive
    simp only [next, heq, if_neg hc]
    exact ⟨conserved_awaits hcons fun c hc => (List.mem_filter.mp hc).2, nofun, nofun⟩
  · simp only [next, heq, if_pos]
    refine ⟨hsched, fun x hx => ?_, nofun⟩
    obtain rfl := Mode.stop.inj hx
    exact hst

/-- A task whose slice is over is not ready, and it is not running if it has blocked. -/
theorem slice_over (h : Invariant s) (hmode : s.mode = .slice t ∨ s.mode = .stop t) :
    s.status t ≠ some .ready ∧ ∀ x, s.mode.running = some x → x = t := by
  rcases hmode with hm | hm
  · have hst := h.conserved.runs t (by rw [hm]; rfl)
    refine ⟨fun hr => ?_, fun x hx => ?_⟩
    · rw [hr] at hst
      cases hst
    · rw [hm] at hx
      exact (Option.some.inj hx).symm
  · have hst := h.stopped t hm
    refine ⟨fun hr => ?_, fun x hx => ?_⟩
    · rw [hr] at hst
      cases hst
    · rw [hm] at hx
      cases hx

theorem yield_invariant (h : Invariant s) (hmode : s.mode = .slice t ∨ s.mode = .stop t) :
    Invariant (next s (.yield t)) := by
  have hcons := h.conserved
  rcases hmode with hm | hm
  · rw [hm] at hcons
    obtain ⟨sched, heq, hsched⟩ := conserved_releasetask hcons
    simp only [next, heq]
    exact idle_invariant hsched
  · rw [hm] at hcons
    simp only [next, scheduleReleasetask_blocked hcons.toAlone (h.stopped t hm)]
    exact idle_invariant hcons

theorem step_preserves_invariant (h : Invariant s) (he : Enabled s e) : Invariant (next s e) := by
  cases e with
  | run =>
    have hsetup : s.mode = .setup := he
    have hcons := h.conserved
    rw [hsetup] at hcons
    exact ⟨hcons, nofun, nofun⟩
  | grab => exact grab_invariant h he
  | call c => exact callStep_invariant h he.1 he.2
  | select t channels => exact select_invariant h he channels
  | yield t => exact yield_invariant h he
  | finish t =>
    obtain ⟨hready, hrun⟩ := slice_over h he
    obtain ⟨heq, hsched⟩ := conserved_closetask h.conserved hready hrun
    simp only [next, heq]
    exact idle_invariant hsched

theorem reachable_invariant (h : Reachable workerSystem s) : Invariant s := by
  apply h.invariant
  · rintro s rfl
    exact initial_invariant
  · intro s e _ ih he
    exact step_preserves_invariant ih he

/-- No assertion fails and every loop ends, and between slices each live task is ready and
queued once, or it is blocked and not queued, and then the channels it waits for are empty and
have it in their reader queues. -/
theorem task_conservation (h : Reachable workerSystem s) :
    s.mode ≠ .failed ∧ (s.mode = .setup ∨ s.mode = .idle → ∀ t, (s.task t).isSome →
      s.status t = some .ready ∧ (s.q 0).contents.count t = 1 ∨
      s.status t = some .blocked ∧ t ∉ (s.q 0).contents ∧
        ∀ c ∈ s.waits t, s.messages c = [] ∧ t ∈ s.readers c) := by
  have hinv := reachable_invariant h
  have hcons := hinv.conserved
  refine ⟨hinv.ok, fun hmode t hlive => ?_⟩
  have hrun : s.mode.running = none := by rcases hmode with hm | hm <;> rw [hm] <;> rfl
  rw [← status_isSome] at hlive
  obtain ⟨st, hst⟩ := Option.isSome_iff_exists.mp hlive
  rcases hcons.places t st hst with rfl | rfl | ⟨-, hr⟩
  · exact Or.inl ⟨hst, List.count_eq_one_of_mem hcons.nodup ((hcons.queued t).mpr hst)⟩
  · refine Or.inr ⟨hst, fun hq => ?_, fun c hc => ?_⟩
    · rw [hcons.queued, hst] at hq
      cases hq
    · obtain ⟨hm, hreader⟩ := hcons.asleep t c hst hc
      exact ⟨hm.resolve_right nofun, hreader⟩
  · rw [hrun] at hr
    cases hr

/-- Task 1 blocks on channels 1 and 2, is woken through channel 1, takes the message and blocks
on channel 1, with its id still in the reader queue of channel 2. Task 2 has yielded. -/
def sampleRun : Run :=
  runTrace workerSystem initial [.call (.newchannel 1), .call (.newchannel 2),
    .call (.opentask 101 1), .call (.opentask 102 2), .run, .grab, .select 1 [1, 2], .yield 1,
    .grab, .call (.send 1 9), .yield 2, .grab, .select 1 [1, 2], .call (.recv 1), .select 1 [1],
    .yield 1, .grab, .yield 2]

set_option maxRecDepth 100000 in
theorem task_conservation_sampleRun :
    sampleRun.status 1 = some .blocked ∧ sampleRun.status 2 = some .ready ∧
      sampleRun.mode ≠ .failed ∧ ∀ t, (sampleRun.task t).isSome →
        sampleRun.status t = some .ready ∧ (sampleRun.q 0).contents.count t = 1 ∨
        sampleRun.status t = some .blocked ∧ t ∉ (sampleRun.q 0).contents ∧
          ∀ c ∈ sampleRun.waits t, sampleRun.messages c = [] ∧ t ∈ sampleRun.readers c :=
  have h : Reachable workerSystem sampleRun := .run (.start rfl) (by decide +kernel)
  ⟨by decide +kernel, by decide +kernel, (task_conservation h).1,
    (task_conservation h).2 (Or.inr (by decide +kernel))⟩

end LtaskTaskConservation
