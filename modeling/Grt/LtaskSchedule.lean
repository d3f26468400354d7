import Grt.LtaskQueue
import Grt.RefCountedMap

/-! The scheduler of `schedule.c`, its calls executed one at a time. The two handle maps are
reference-counted maps whose values are the records the handles lead to; a record leaves its
map with the last reference and is freed then. `handlemap_new` is left to the map: the calls
that register a record take the handle it gets. -/
namespace LtaskSchedule

open LtaskQueue RefCountedMap

abbrev TaskId := ℕ
abbrev ChannelId := ℕ

/-- A message or another `void *` that the scheduler only passes on. -/
abbrev Ptr := ℕ

inductive TaskStatus where
  | running
  | ready
  | blocked
  | dead
  | init
  deriving DecidableEq

/-- `struct task` less its `id`, which is the handle it is stored under. -/
structure Task where
  ud : Ptr
  status : TaskStatus
  thread : ℕ

structure Channel where
  mq : Queue Ptr
  reader : Queue TaskId

structure Schedule where
  threads : ℕ
  current : ℕ
  q : ℕ → Queue TaskId
  channel : RefMap Channel
  task : RefMap Task

namespace Schedule

variable (s : Schedule)

def setStatus (id : TaskId) (status : TaskStatus) : Schedule :=
  { s with task := s.task.modify id fun t => { t with status := status } }

def setRunning (id : TaskId) (thread : ℕ) : Schedule :=
  { s with task := s.task.modify id fun t => { t with status := .running, thread := thread } }

def pushReady (thread : ℕ) (id : TaskId) : Schedule :=
  { s with q := Function.update s.q thread ((s.q thread).push id) }

def pushMessage (id : ChannelId) (msg : Ptr) : Schedule :=
  { s with channel := s.channel.modify id fun c => { c with mq := c.mq.push msg } }

def pushReader (id : ChannelId) (t : TaskId) : Schedule :=
  { s with channel := s.channel.modify id fun c => { c with reader := c.reader.push t } }

def setMq (id : ChannelId) (mq : Queue Ptr) : Schedule :=
  { s with channel := s.channel.modify id fun c => { c with mq := mq } }

def setReader (id : ChannelId) (reader : Queue TaskId) : Schedule :=
  { s with channel := s.channel.modify id fun c => { c with reader := reader } }

def grabTask (id : TaskId) : Schedule := { s with task := s.task.grab id }

def grabChannel (id : ChannelId) : Schedule := { s with channel := s.channel.grab id }

/-- The status of a task that is in the map. -/
def status (id : TaskId) : Option TaskStatus := (s.task id).map fun r => r.1.status

/-- The messages waiting in an open channel. -/
def messages (c : ChannelId) : List Ptr :=
  ((s.channel.find c).map fun ch => ch.mq.contents).getD []

def readers (c : ChannelId) : List TaskId :=
  ((s.channel.find c).map fun ch => ch.reader.contents).getD []

end Schedule

def scheduleCreate (threads : ℕ) : Schedule :=
  ⟨threads, 0, fun _ => Queue.create, RefMap.empty, RefMap.empty⟩

/-- The status `TASK_DEAD` goes to a record that is out of the map and freed next. -/
def releaseTask (s : Schedule) (id : TaskId) : Schedule :=
  { s with task := s.task.release id }

/-- The task is one the caller has a reference to. -/
def commitTask (s : Schedule) (id : TaskId) (status : TaskStatus) : Schedule :=
  match s.task.find id with
  | some t =>
    if t.status = status then (s.setStatus id .ready).pushReady t.thread id else s
  | none => s

def scheduleOpentask (s : Schedule) (ud : Ptr) (id : TaskId) : Schedule :=
  let c := s.current
  let next := if c + 1 ≥ s.threads then 0 else c + 1
  let t : Task := ⟨ud, .init, c⟩
  commitTask { s with current := next, task := s.task.register id t } id .init

def scheduleClosetask (s : Schedule) (t : TaskId) : Schedule := releaseTask s t

/-- The last `k` queues of a scan by `thread`, which starts at its own queue. -/
def popReady (s : Schedule) (thread : ℕ) : ℕ → Option (TaskId × Schedule)
  | 0 => none
  | k + 1 =>
    let t := (thread + (s.threads - (k + 1))) % s.threads
    match (s.q t).pop with
    | some (id, q) => some (id, { s with q := Function.update s.q t q })
    | none => popReady s thread k

/-- `none` when the assertion fails or `fuel` turns are not enough. -/
def grabLoop (thread : ℕ) : ℕ → Schedule → Option (Option (TaskId × Ptr) × Schedule)
  | 0, _ => none
  | fuel + 1, s =>
    match popReady s thread s.threads with
    | none => some (none, s)
    | some (id, s) =>
      match s.task.find id with
      | none => grabLoop thread fuel s
      | some t =>
        if t.status = .running then none
        else
          some (some (id, t.ud), releaseTask ((s.grabTask id).setRunning id thread) id)

def readyCount (s : Schedule) : ℕ := ((List.range s.threads).map fun i => (s.q i).length).sum

/-- Each turn takes an entry off a ready queue. The `ltask` behind the returned `ud` knows
the id. -/
def scheduleGrabtask (s : Schedule) (thread : ℕ) : Option (Option (TaskId × Ptr) × Schedule) :=
  grabLoop thread (readyCount s + 1) s

/-- `none` when the assertion fails. -/
def scheduleReleasetask (s : Schedule) (id : TaskId) : Option Schedule :=
  match s.task.find id with
  | none => some s
  | some t =>
    let s := s.grabTask id
    if t.status = .ready then none
    else
      let s := if t.status = .running then commitTask s id .running else s
      some (releaseTask s id)

def releaseChannel (s : Schedule) (id : ChannelId) : Schedule :=
  { s with channel := s.channel.release id }

/-- The first loop of `schedule_select`. -/
def selectCheck (s : Schedule) : List ChannelId → Option ChannelId × Schedule
  | [] => (none, s)
  | id :: channels =>
    match s.channel.find id with
    | some c =>
      let s := s.grabChannel id
      if queueEmpty c.mq.toCells then selectCheck (releaseChannel s id) channels
      else (some id, releaseChannel s id)
    | none => selectCheck s channels

/-- The second loop of `schedule_select`. -/
def selectRegister (s : Schedule) (t : TaskId) : List ChannelId → Schedule
  | [] => s
  | id :: channels =>
    match s.channel.find id with
    | some _ =>
      selectRegister (releaseChannel ((s.grabChannel id).pushReader id t) id) t channels
    | none => selectRegister s t channels

def scheduleSelect (s : Schedule) (id : TaskId) (channels : List ChannelId) :
    ChannelId × Schedule :=
  match s.task.find id with
  | none => (0, s)
  | some _ =>
    match selectCheck (s.grabTask id) channels with
    | (some c, s) => (c, releaseTask s id)
    | (none, s) => (0, releaseTask (selectRegister (s.setStatus id .blocked) id channels) id)

def scheduleNewchannel (s : Schedule) (id : ChannelId) : Schedule :=
  { s with channel := s.channel.register id ⟨Queue.create, Queue.create⟩ }

def scheduleClosechannel (s : Schedule) (id : ChannelId) : Schedule := releaseChannel s id

def scheduleIsclosed (s : Schedule) (id : ChannelId) : Bool × Schedule :=
  match s.channel.find id with
  | some _ => (false, releaseChannel (s.grabChannel id) id)
  | none => (true, s)

def scheduleRecv (s : Schedule) (id : ChannelId) : Option Ptr × Schedule :=
  match s.channel.find id with
  | some c =>
    let s := s.grabChannel id
    match c.mq.pop with
    | some (msg, mq) => (some msg, releaseChannel (s.setMq id mq) id)
    | none => (none, releaseChannel s id)
  | none => (none, s)

/-- A task popped from a reader queue becomes ready if it is blocked. -/
def wakeReader (s : Schedule) (id : TaskId) : Schedule :=
  match s.task.find id with
  | some t =>
    let s := s.grabTask id
    releaseTask (if t.status = .blocked then commitTask s id .blocked else s) id
  | none => s

/-- The loop of `schedule_send`; `none` when `fuel` turns are not enough. -/
def wakeLoop (c : ChannelId) : ℕ → Schedule → Option Schedule
  | 0, _ => none
  | fuel + 1, s =>
    match s.channel.find c with
    | none => none
    | some ch =>
      match ch.reader.pop with
      | none => some s
      | some (id, reader) => wakeLoop c fuel (wakeReader (s.setReader c reader) id)

/-- Each turn of the loop takes an entry off the reader queue. -/
def scheduleSend (s : Schedule) (id : ChannelId) (msg : Ptr) : Option Schedule :=
  match s.channel.find id with
  | some c =>
    let s := (s.grabChannel id).pushMessage id msg
    (wakeLoop id (c.reader.length + 1) s).map fun s => releaseChannel s id
  | none => some s

variable (s : Schedule) {id t : TaskId} {status st : TaskStatus}

@[simp] theorem status_grabTask (t id : TaskId) : (s.grabTask t).status id = s.status id := by
  by_cases h : id = t
  · subst h
    simp [Schedule.grabTask, Schedule.status, Function.comp_def]
  · simp [Schedule.grabTask, Schedule.status, grab_other _ h]

theorem status_releaseTask (h : (releaseTask s t).status id = some st) :
    s.status id = some st := by
  by_cases hid : id = t
  · subst hid
    cases hA : s.task id with
    | none => simp [releaseTask, Schedule.status, hA] at h
    | some r =>
      simp only [releaseTask, Schedule.status, release_same, hA, Option.bind_some] at h ⊢
      split at h
      · cases h
      · exact h
  · simpa [releaseTask, Schedule.status, release_other _ hid] using h

@[simp] theorem status_setStatus (t : TaskId) (status : TaskStatus) :
    (s.setStatus t status).status t = (s.status t).map fun _ => status := by
  simp [Schedule.setStatus, Schedule.status, Function.comp_def]

theorem status_setStatus_other (status : TaskStatus) (h : id ≠ t) :
    (s.setStatus t status).status id = s.status id := by
  simp [Schedule.setStatus, Schedule.status, modify_other _ _ h]

/-- After a write that changes the status of `t` to `new`. -/
theorem setStatus_cases {new : TaskStatus} (h : (s.setStatus t new).status id = some st) :
    s.status id = some st ∧ id ≠ t ∨ id = t ∧ st = new := by
  by_cases hid : id = t
  · subst hid
    rw [status_setStatus, Option.map_eq_some_iff] at h
    obtain ⟨-, -, rfl⟩ := h
    exact Or.inr ⟨rfl, rfl⟩
  · rw [status_setStatus_other _ _ hid] at h
    exact Or.inl ⟨h, hid⟩

/-- The status does not depend on which worker the task is given to. -/
theorem status_setRunning (t id : TaskId) (thread : ℕ) :
    (s.setRunning t thread).status id = (s.setStatus t .running).status id := by
  by_cases hid : id = t
  · subst hid
    simp [Schedule.setRunning, Schedule.setStatus, Schedule.status, Function.comp_def]
  · simp [Schedule.setRunning, Schedule.setStatus, Schedule.status, modify_other _ _ hid]

theorem status_register (t id : TaskId) (r : Task) :
    ({ s with task := s.task.register t r } : Schedule).status id =
      if id = t then some r.status else s.status id := by
  by_cases hid : id = t
  · subst hid
    simp [Schedule.status]
  · simp [Schedule.status, register_other _ _ hid, hid]

theorem status_isSome (id : TaskId) : (s.status id).isSome = (s.task id).isSome := by
  simp [Schedule.status]

theorem find_status {r : Task} (h : s.task.find id = some r) : s.status id = some r.status := by
  obtain ⟨⟨r', n⟩, hr, rfl⟩ := Option.map_eq_some_iff.mp h
  simp [Schedule.status, hr]

theorem channel_found {c : ChannelId} {ch : Channel} (h : s.channel.find c = some ch) :
    (s.channel c).isSome ∧ s.readers c = ch.reader.contents ∧ s.messages c = ch.mq.contents := by
  refine ⟨?_, by simp [Schedule.readers, h], by simp [Schedule.messages, h]⟩
  rw [← isSome_find, h]
  rfl

/-- The channel that a step writes to, and the others. -/
theorem find_modified (s' : Schedule) {i : ChannelId} {f : Channel → Channel} {ch : Channel}
    (h : s'.channel = s.channel.modify i f) (hch : s.channel.find i = some ch) :
    (∀ c, (s'.channel c).isSome → (s.channel c).isSome) ∧
      (∀ c, c ≠ i → s'.readers c = s.readers c ∧ s'.messages c = s.messages c) ∧
      s.readers i = ch.reader.contents ∧ s.messages i = ch.mq.contents ∧
      s'.readers i = (f ch).reader.contents ∧ s'.messages i = (f ch).mq.contents := by
  have hfind : s'.channel.find i = some (f ch) := by
    rw [h, RefMap.find, modify_same, Option.map_map]
    obtain ⟨r, hr, rfl⟩ := Option.map_eq_some_iff.mp hch
    simp [hr]
  have hother : ∀ c, c ≠ i → s'.channel c = s.channel c := fun c hc => by
    rw [h, modify_other _ _ hc]
  refine ⟨fun c hc => ?_, fun c hc => ?_, ?_⟩
  · by_cases hci : c = i
    · subst hci
      exact (channel_found s hch).1
    · rwa [hother c hci] at hc
  · simp [Schedule.readers, Schedule.messages, RefMap.find, hother c hc]
  · simp [Schedule.readers, Schedule.messages, hfind, hch]

/-- A wake-up leaves the channels alone. -/
theorem commitTask_channel {s : Schedule} (A : RefMap Channel) :
    commitTask { s with channel := A } t status = { commitTask s t status with channel := A } := by
  cases ht : s.task.find t with
  | none => simp only [commitTask, ht]
  | some r =>
    simp only [commitTask, ht]
    split <;> rfl

theorem wakeReader_channel {s : Schedule} (A : RefMap Channel) :
    wakeReader { s with channel := A } t = { wakeReader s t with channel := A } := by
  cases ht : s.task.find t with
  | none => simp only [wakeReader, ht]
  | some r =>
    simp only [wakeReader, ht]
    split
    · exact congrArg (releaseTask · t) (commitTask_channel (s := s.grabTask t) A)
    · rfl

end LtaskSchedule
