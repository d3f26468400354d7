import Mathlib.Data.Finset.Image
import Grt.LtaskSchedule
import Grt.TransitionSystem

/-! The scheduler run by several workers. A step is one handle map operation, one queue
operation, one access to a status, or one access to `s->current`; the program counter of an
agent says which one it makes next. The main thread makes its calls before `ltask.run` and
then waits for the workers. The handle maps are taken to keep every handle when they grow. -/
namespace LtaskInterleaving

open LtaskQueue RefCountedMap LtaskSchedule TransitionSystem

inductive Agent where
  | main
  | worker (w : ℕ)
  deriving DecidableEq

def agents (threads : ℕ) : Finset Agent := insert .main ((Finset.range threads).image .worker)

/-- `thread` in `schedule_grabtask`; the main thread never calls it. -/
def Agent.thread : Agent → ℕ
  | .main => 0
  | .worker w => w

/-- Inside a scheduler call of a running task. -/
inductive CallPc where
  | sendGrab (c : ChannelId) (msg : Ptr)
  | sendPush (c : ChannelId) (msg : Ptr)
  | sendPop (c : ChannelId)
  | wakeGrab (c : ChannelId) (id : TaskId)
  | wakeRead (c : ChannelId) (id : TaskId)
  | wakeCas (c : ChannelId) (id : TaskId)
  | wakePush (c : ChannelId) (id : TaskId)
  | wakeRelease (c : ChannelId) (id : TaskId)
  | sendRelease (c : ChannelId)
  | recvGrab (c : ChannelId)
  | recvPop (c : ChannelId)
  | recvRelease (c : ChannelId)
  | isclosedGrab (c : ChannelId)
  | isclosedRelease (c : ChannelId)
  | selectGrab (channels : List ChannelId)
  | checkGrab (channels : List ChannelId) (i : ℕ)
  | checkEmpty (channels : List ChannelId) (i : ℕ) (c : ChannelId)
  | checkRelease (channels : List ChannelId) (i : ℕ) (c : ChannelId)
  | hitRelease (channels : List ChannelId) (c : ChannelId)
  | hitReturn (channels : List ChannelId)
  | selectBlock (channels : List ChannelId)
  | regGrab (channels : List ChannelId) (i : ℕ)
  | regPush (channels : List ChannelId) (i : ℕ) (c : ChannelId)
  | regRelease (channels : List ChannelId) (i : ℕ) (c : ChannelId)
  | selectRelease (channels : List ChannelId)
  | openRead (ud : Ptr)
  | openWrite (ud : Ptr) (c : ℕ)
  | openNew (ud : Ptr) (c : ℕ)
  | openCas (id : TaskId)
  | openPush (id : TaskId)
  deriving DecidableEq

/-- A worker scans the ready queues, grabs a task, runs a slice of it and releases or closes
it. The main thread counts as the slice of a task 0 that no map holds. -/
inductive Pc where
  | idle
  | joined
  | scan (i : ℕ)
  | grab (id : TaskId)
  | grabAssert (id : TaskId)
  | grabRun (id : TaskId)
  | grabRelease (id : TaskId)
  | slice (t : TaskId)
  | call (t : TaskId) (at_ : CallPc)
  | close (t : TaskId)
  | relGrab (t : TaskId)
  | relAssert (t : TaskId)
  | relRead (t : TaskId)
  | relCas (t : TaskId)
  | relPush (t : TaskId)
  | relRelease (t : TaskId)
  deriving DecidableEq

/-- Besides the schedule and the agents: which handles were ever issued, which tasks had their
`lua_State` closed, which channels were closed, the channels that were open when a task called
`schedule_select` last, and per channel the messages pushed and popped so far. `aborted` is a
failed assertion, a `NULL` `lua_State` or an access to freed memory. -/
structure State extends Schedule where
  pc : Agent → Pc
  opened : TaskId → Bool
  created : ChannelId → Bool
  ended : TaskId → Bool
  closed : ChannelId → Bool
  awaited : TaskId → List ChannelId
  sent : ChannelId → List Ptr
  received : ChannelId → List Ptr
  aborted : Bool

namespace State

variable (s : State)

def goto (a : Agent) (pc : Pc) : State := { s with pc := Function.update s.pc a pc }

def put (sched : Schedule) : State := { s with toSchedule := sched }

def abort : State := { s with aborted := true }

/-- Access to the task record behind a handle the agent holds. -/
def withTask (id : TaskId) (k : Task → State) : State :=
  match s.task.find id with
  | some t => k t
  | none => s.abort

/-- Access to the channel record behind a handle the agent holds. -/
def withChannel (id : ChannelId) (k : Channel → State) : State :=
  match s.channel.find id with
  | some c => k c
  | none => s.abort

end State

/-- The next step of a call made by task `t`. -/
def callStep (s : State) (a : Agent) (t : TaskId) : CallPc → State
  | .sendGrab c msg =>
    if (s.channel c).isSome then (s.put (s.grabChannel c)).goto a (.call t (.sendPush c msg))
    else s.goto a (.slice t)
  | .sendPush c msg => s.withChannel c fun _ =>
    { (s.put (s.pushMessage c msg)).goto a (.call t (.sendPop c)) with
      sent := Function.update s.sent c (s.sent c ++ [msg]) }
  | .sendPop c => s.withChannel c fun ch =>
    match ch.reader.pop with
    | some (id, reader) => (s.put (s.setReader c reader)).goto a (.call t (.wakeGrab c id))
    | none => s.goto a (.call t (.sendRelease c))
  | .wakeGrab c id =>
    if (s.task id).isSome then (s.put (s.grabTask id)).goto a (.call t (.wakeRead c id))
    else s.goto a (.call t (.sendPop c))
  | .wakeRead c id => s.withTask id fun r =>
    s.goto a (.call t (if r.status = .blocked then .wakeCas c id else .wakeRelease c id))
  | .wakeCas c id => s.withTask id fun r =>
    if r.status = .blocked then (s.put (s.setStatus id .ready)).goto a (.call t (.wakePush c id))
    else s.goto a (.call t (.wakeRelease c id))
  | .wakePush c id => s.withTask id fun r =>
    (s.put (s.pushReady r.thread id)).goto a (.call t (.wakeRelease c id))
  | .wakeRelease c id => (s.put (releaseTask s.toSchedule id)).goto a (.call t (.sendPop c))
  | .sendRelease c => (s.put (releaseChannel s.toSchedule c)).goto a (.slice t)
  | .recvGrab c =>
    if (s.channel c).isSome then (s.put (s.grabChannel c)).goto a (.call t (.recvPop c))
    else s.goto a (.slice t)
  | .recvPop c => s.withChannel c fun ch =>
    match ch.mq.pop with
    | some (msg, mq) =>
      { (s.put (s.setMq c mq)).goto a (.call t (.recvRelease c)) with
        received := Function.update s.received c (s.received c ++ [msg]) }
    | none => s.goto a (.call t (.recvRelease c))
  | .recvRelease c => (s.put (releaseChannel s.toSchedule c)).goto a (.slice t)
  | .isclosedGrab c =>
    if (s.channel c).isSome then (s.put (s.grabChannel c)).goto a (.call t (.isclosedRelease c))
    else s.goto a (.slice t)
  | .isclosedRelease c => (s.put (releaseChannel s.toSchedule c)).goto a (.slice t)
  | .selectGrab channels =>
    if (s.task t).isSome then (s.put (s.grabTask t)).goto a (.call t (.checkGrab channels 0))
    else s.goto a (.slice t)
  | .checkGrab channels i =>
    match channels[i]? with
    | none => s.goto a (.call t (.selectBlock channels))
    | some c =>
      if (s.channel c).isSome then
        (s.put (s.grabChannel c)).goto a (.call t (.checkEmpty channels i c))
      else s.goto a (.call t (.checkGrab channels (i + 1)))
  | .checkEmpty channels i c => s.withChannel c fun ch =>
    s.goto a (.call t (if queueEmpty ch.mq.toCells then .checkRelease channels i c
      else .hitRelease channels c))
  | .checkRelease channels i c =>
    (s.put (releaseChannel s.toSchedule c)).goto a (.call t (.checkGrab channels (i + 1)))
  | .hitRelease channels c =>
    (s.put (releaseChannel s.toSchedule c)).goto a (.call t (.hitReturn channels))
  | .hitReturn _ => (s.put (releaseTask s.toSchedule t)).goto a (.slice t)
  | .selectBlock channels => s.withTask t fun _ =>
    (s.put (s.setStatus t .blocked)).goto a (.call t (.regGrab channels 0))
  | .regGrab channels i =>
    match channels[i]? with
    | none => s.goto a (.call t (.selectRelease channels))
    | some c =>
      if (s.channel c).isSome then
        (s.put (s.grabChannel c)).goto a (.call t (.regPush channels i c))
      else s.goto a (.call t (.regGrab channels (i + 1)))
  | .regPush channels i c => s.withChannel c fun _ =>
    (s.put (s.pushReader c t)).goto a (.call t (.regRelease channels i c))
  | .regRelease channels i c =>
    (s.put (releaseChannel s.toSchedule c)).goto a (.call t (.regGrab channels (i + 1)))
  | .selectRelease _ => (s.put (releaseTask s.toSchedule t)).goto a (.slice t)
  | .openRead ud => s.goto a (.call t (.openWrite ud s.current))
  | .openWrite ud c =>
    (s.put { s.toSchedule with current := if c + 1 ≥ s.threads then 0 else c + 1 }).goto a
      (.call t (.openNew ud c))
  | .openNew _ _ => s
  | .openCas id => s.withTask id fun r =>
    if r.status = .init then (s.put (s.setStatus id .ready)).goto a (.call t (.openPush id))
    else s.goto a (.slice t)
  | .openPush id => s.withTask id fun r => (s.put (s.pushReady r.thread id)).goto a (.slice t)

/-- The next step of an agent. A worker that finds nothing scans again some time later. -/
def agentStep (s : State) (a : Agent) : Pc → State
  | .idle => s
  | .joined => s
  | .scan i =>
    let t := (a.thread + i) % s.threads
    match (s.q t).pop with
    | some (id, q) =>
      (s.put { s.toSchedule with q := Function.update s.q t q }).goto a (.grab id)
    | none => s.goto a (.scan (if i + 1 < s.threads then i + 1 else 0))
  | .grab id =>
    if (s.task id).isSome then (s.put (s.grabTask id)).goto a (.grabAssert id)
    else s.goto a (.scan 0)
  | .grabAssert id => s.withTask id fun r =>
    if r.status = .running then s.abort else s.goto a (.grabRun id)
  | .grabRun id => s.withTask id fun _ =>
    (s.put (s.setRunning id a.thread)).goto a (.grabRelease id)
  | .grabRelease id => (s.put (releaseTask s.toSchedule id)).goto a (.slice id)
  | .slice t => if s.ended t then s.abort else s
  | .call t pc => callStep s a t pc
  | .close t => (s.put (scheduleClosetask s.toSchedule t)).goto a (.relGrab t)
  | .relGrab t =>
    if (s.task t).isSome then (s.put (s.grabTask t)).goto a (.relAssert t)
    else s.goto a (.scan 0)
  | .relAssert t => s.withTask t fun r =>
    if r.status = .ready then s.abort else s.goto a (.relRead t)
  | .relRead t => s.withTask t fun r =>
    s.goto a (if r.status = .running then .relCas t else .relRelease t)
  | .relCas t => s.withTask t fun r =>
    if r.status = .running then (s.put (s.setStatus t .ready)).goto a (.relPush t)
    else s.goto a (.relRelease t)
  | .relPush t => s.withTask t fun r => (s.put (s.pushReady r.thread t)).goto a (.relRelease t)
  | .relRelease t => (s.put (releaseTask s.toSchedule t)).goto a (.scan 0)

inductive Op where
  | send (c : ChannelId) (msg : Ptr)
  | recv (c : ChannelId)
  | isclosed (c : ChannelId)
  | select (channels : List ChannelId)
  | opentask (ud : Ptr)
  | newchannel (id : ChannelId)
  | closechannel (c : ChannelId)
  deriving DecidableEq

/-- A task calls the scheduler; `ltask.channel` and `ltask.close` are one step. -/
def callOp (s : State) (a : Agent) (t : TaskId) : Op → State
  | .send c msg => s.goto a (.call t (.sendGrab c msg))
  | .recv c => s.goto a (.call t (.recvGrab c))
  | .isclosed c => s.goto a (.call t (.isclosedGrab c))
  | .select channels =>
    { s.goto a (.call t (.selectGrab channels)) with
      awaited := Function.update s.awaited t (channels.filter fun c => (s.channel c).isSome) }
  | .opentask ud => s.goto a (.call t (.openRead ud))
  | .newchannel id =>
    { s.put (scheduleNewchannel s.toSchedule id) with
      created := Function.update s.created id true
      closed := Function.update s.closed id false
      sent := Function.update s.sent id []
      received := Function.update s.received id [] }
  | .closechannel c =>
    { s.put (scheduleClosechannel s.toSchedule c) with
      closed := Function.update s.closed c true }

/-- `issue` is the `handlemap_new` of `schedule_opentask`, with the handle it gets; `yield` and
`finish` are the two ways a slice ends, and `run` starts the workers. -/
inductive Event where
  | step (a : Agent)
  | issue (a : Agent) (t : TaskId) (ud : Ptr) (c : ℕ) (id : TaskId)
  | call (a : Agent) (t : TaskId) (op : Op)
  | yield (a : Agent) (t : TaskId)
  | finish (a : Agent) (t : TaskId)
  | run
  deriving DecidableEq

def next (s : State) : Event → State
  | .step a => agentStep s a (s.pc a)
  | .issue a t ud c id =>
    { (s.put { s.toSchedule with task := s.task.register id ⟨ud, .init, c⟩ }).goto a
        (.call t (.openCas id)) with
      opened := Function.update s.opened id true
      ended := Function.update s.ended id false }
  | .call a t op => callOp s a t op
  | .yield a t => s.goto a (.relGrab t)
  | .finish a t => { s.goto a (.close t) with ended := Function.update s.ended t true }
  | .run =>
    { s with pc := fun a => match a with
        | .main => .joined
        | .worker w => if w < s.threads then .scan 0 else .idle }

/-- The channel an agent holds a reference to. -/
def CallPc.channelRef : CallPc → Option ChannelId
  | .sendPush c _ | .sendPop c | .wakeGrab c _ | .wakeRead c _ | .wakeCas c _ | .wakePush c _
  | .wakeRelease c _ | .sendRelease c | .recvPop c | .recvRelease c | .isclosedRelease c
  | .checkEmpty _ _ c | .checkRelease _ _ c | .hitRelease _ c | .regPush _ _ c
  | .regRelease _ _ c => some c
  | _ => none

def Pc.channelRef : Pc → Option ChannelId
  | .call _ pc => pc.channelRef
  | _ => none

/-- The handle maps are correct: a new handle is not live, nor is it still held by a call that
outlived the channel. -/
def OpEnabled (s : State) (t : TaskId) : Op → Prop
  | .send _ msg => msg ≠ 0
  | .select _ => t ≠ 0
  | .newchannel id => id ≠ 0 ∧ (s.channel id).isNone ∧
      ∀ b ∈ agents s.threads, (s.pc b).channelRef ≠ some id
  | _ => True

def Enabled (s : State) (e : Event) : Prop :=
  s.aborted = false ∧
    match e with
    | .step _ => True
    | .issue a t ud c id => s.pc a = .call t (.openNew ud c) ∧ id ≠ 0 ∧ (s.task id).isNone
    | .call a t op => s.pc a = .slice t ∧ s.ended t = false ∧ OpEnabled s t op
    | .yield a t => s.pc a = .slice t ∧ s.ended t = false ∧ t ≠ 0
    | .finish a t => s.pc a = .slice t ∧ s.ended t = false ∧ t ≠ 0
    | .run => s.pc .main = .slice 0

instance (s : State) (t : TaskId) (op : Op) : Decidable (OpEnabled s t op) := by
  cases op <;> simp only [OpEnabled] <;> infer_instance

instance (s : State) (e : Event) : Decidable (Enabled s e) := by
  cases e <;> simp only [Enabled] <;> infer_instance

def initial (threads : ℕ) : State where
  toSchedule := scheduleCreate threads
  pc a := if a = .main then .slice 0 else .idle
  opened _ := false
  created _ := false
  ended _ := false
  closed _ := false
  awaited _ := []
  sent _ := []
  received _ := []
  aborted := false

def ltaskSystem (threads : ℕ) : System State Event where
  start s := 0 < threads ∧ s = initial threads
  enabled := Enabled
  next := next

instance (threads : ℕ) (s : State) (e : Event) : Decidable ((ltaskSystem threads).enabled s e) :=
  inferInstanceAs (Decidable (Enabled s e))

/-- `n` steps of one agent, in a trace. -/
def steps (a : Agent) (n : ℕ) : List Event := List.replicate n (.step a)

/-- The main thread opens task `id` on worker `c`. -/
def mainOpens (ud : Ptr) (c : ℕ) (id : TaskId) : List Event :=
  [.call .main 0 (.opentask ud)] ++ steps .main 2 ++ [.issue .main 0 ud c id] ++ steps .main 2

variable {s : State} {a b : Agent} {e : Event} {threads : ℕ}

@[simp] theorem goto_pc (sched : Schedule) (pc : Pc) : ((s.put sched).goto a pc).pc a = pc :=
  Function.update_self ..

/-- What holds of the record behind a handle, and of the state if there is none. -/
theorem withTask_cases {P : State → Prop} {id : TaskId} {k : Task → State} (habort : P s.abort)
    (h : ∀ r, s.task.find id = some r → P (k r)) : P (s.withTask id k) := by
  unfold State.withTask
  split
  · exact h _ (by assumption)
  · exact habort

theorem withChannel_cases {P : State → Prop} {c : ChannelId} {k : Channel → State}
    (habort : P s.abort) (h : ∀ ch, s.channel.find c = some ch → P (k ch)) :
    P (s.withChannel c k) := by
  unfold State.withChannel
  split
  · exact h _ (by assumption)
  · exact habort

/-- The number of workers is fixed and an event moves one agent. -/
structure Frame (s : State) (a : Agent) (s' : State) : Prop where
  threads : s'.threads = s.threads
  others : ∀ b, b ≠ a → s'.pc b = s.pc b

/-- Handles are issued, tasks end and channels are closed by events of their own. -/
structure StepFrame (s : State) (a : Agent) (s' : State) : Prop extends Frame s a s' where
  opened : s'.opened = s.opened
  created : s'.created = s.created
  ended : s'.ended = s.ended
  closed : s'.closed = s.closed
  awaited : s'.awaited = s.awaited

theorem frame_refl : Frame s a s := ⟨rfl, fun _ _ => rfl⟩

theorem frame_of {s' : State} {pc : Pc} (hth : s'.threads = s.threads)
    (hpc : s'.pc = Function.update s.pc a pc) : Frame s a s' :=
  ⟨hth, fun b hb => by rw [hpc, Function.update_of_ne hb]⟩

theorem step_refl : StepFrame s a s := ⟨frame_refl, rfl, rfl, rfl, rfl, rfl⟩

theorem step_abort : StepFrame s a s.abort := ⟨⟨rfl, fun _ _ => rfl⟩, rfl, rfl, rfl, rfl, rfl⟩

theorem step_goto {sched : Schedule} {pc : Pc} (h : sched.threads = s.threads) :
    StepFrame s a ((s.put sched).goto a pc) := ⟨frame_of h rfl, rfl, rfl, rfl, rfl, rfl⟩

theorem step_withTask {id : TaskId} {k : Task → State} (h : ∀ r, StepFrame s a (k r)) :
    StepFrame s a (s.withTask id k) := withTask_cases step_abort fun r _ => h r

theorem step_withChannel {c : ChannelId} {k : Channel → State}
    (h : ∀ ch, StepFrame s a (k ch)) : StepFrame s a (s.withChannel c k) :=
  withChannel_cases step_abort fun ch _ => h ch

theorem callStep_frame (t : TaskId) (pc : CallPc) : StepFrame s a (callStep s a t pc) := by
  cases pc with
  | sendPush =>
    exact step_withChannel fun _ => ⟨frame_of rfl rfl, rfl, rfl, rfl, rfl, rfl⟩
  | recvPop =>
    refine step_withChannel fun _ => ?_
    split
    · exact ⟨frame_of rfl rfl, rfl, rfl, rfl, rfl, rfl⟩
    · exact step_goto rfl
  | checkEmpty | regPush => exact step_withChannel fun _ => step_goto rfl
  | sendPop =>
    refine step_withChannel fun _ => ?_
    split <;> exact step_goto rfl
  | wakeRead | wakePush | selectBlock | openPush => exact step_withTask fun _ => step_goto rfl
  | wakeCas | openCas =>
    refine step_withTask fun _ => ?_
    split <;> exact step_goto rfl
  | openNew => exact step_refl
  | _ =>
    simp only [callStep]
    repeat' split
    all_goals exact step_goto rfl

theorem agentStep_frame (pc : Pc) : StepFrame s a (agentStep s a pc) := by
  cases pc with
  | idle | joined => exact step_refl
  | call t pc => exact callStep_frame t pc
  | slice t =>
    simp only [agentStep]
    split
    · exact step_abort
    · exact step_refl
  | grabAssert | relAssert =>
    refine step_withTask fun _ => ?_
    split
    · exact step_abort
    · exact step_goto rfl
  | grabRun | relRead | relPush => exact step_withTask fun _ => step_goto rfl
  | relCas =>
    refine step_withTask fun _ => ?_
    split <;> exact step_goto rfl
  | _ =>
    simp only [agentStep]
    repeat' split
    all_goals exact step_goto rfl

def Event.actor : Event → Agent
  | .step a | .issue a _ _ _ _ | .call a _ _ | .yield a _ | .finish a _ => a
  | .run => .main

theorem next_frame (hrun : e ≠ .run) : Frame s e.actor (next s e) := by
  cases e with
  | step a => exact (agentStep_frame (s.pc a)).toFrame
  | issue | yield | finish => exact frame_of rfl rfl
  | call a t op =>
    cases op with
    | newchannel | closechannel => exact ⟨rfl, fun _ _ => rfl⟩
    | _ => exact frame_of rfl rfl
  | run => exact absurd rfl hrun

theorem next_threads : (next s e).threads = s.threads := by
  by_cases hrun : e = .run
  · subst hrun; rfl
  · exact (next_frame hrun).threads

theorem reachable_threads (h : Reachable (ltaskSystem threads) s) :
    0 < threads ∧ s.threads = threads := by
  apply h.invariant
  · rintro s ⟨hpos, rfl⟩
    exact ⟨hpos, rfl⟩
  · intro s e _ ih _
    exact ⟨ih.1, next_threads.trans ih.2⟩

theorem mem_agents : b ∈ agents threads ↔ b = .main ∨ ∃ w < threads, b = .worker w := by
  simp [agents, eq_comm]

/-- A thread that is not started, or waits for the others, stays where it is. -/
theorem next_rests (he : Enabled s e) (hrun : e ≠ .run)
    (hb : s.pc b = .idle ∨ s.pc b = .joined) : (next s e).pc b = s.pc b := by
  by_cases hact : b = e.actor
  · cases e with
    | step a =>
      obtain rfl : b = a := hact
      rcases hb with hb | hb <;> simp only [next, hb, agentStep]
    | run => exact absurd rfl hrun
    | issue | yield | finish | call =>
      obtain rfl := hact
      have hpc := he.2.1
      rcases hb with hb | hb <;> rw [hpc] at hb <;> cases hb
  · exact (next_frame hrun).others b hact

/-- Threads that `ltask.run` does not create do nothing. -/
theorem reachable_outside (h : Reachable (ltaskSystem threads) s) (hb : b ∉ agents s.threads) :
    s.pc b = .idle := by
  revert hb
  apply h.invariant
  · rintro s ⟨-, rfl⟩ hb
    exact if_neg fun hm => hb (mem_agents.mpr (Or.inl hm))
  · intro s e _ ih he hb
    change b ∉ agents (next s e).threads at hb
    change (next s e).pc b = .idle
    rw [next_threads] at hb
    by_cases hrun : e = .run
    · subst hrun
      rcases b with _ | w
      · exact absurd (mem_agents.mpr (Or.inl rfl)) hb
      · exact if_neg fun hw => hb (mem_agents.mpr (Or.inr ⟨w, hw, rfl⟩))
    · rw [next_rests he hrun (Or.inl (ih hb)), ih hb]

/-- The workers do nothing before the main thread waits for them. -/
theorem reachable_started (h : Reachable (ltaskSystem threads) s) :
    s.pc .main = .joined ∨ ∀ w, s.pc (.worker w) = .idle := by
  apply h.invariant
  · rintro s ⟨-, rfl⟩
    exact Or.inr fun w => rfl
  · intro s e _ ih he
    change (next s e).pc .main = .joined ∨ ∀ w, (next s e).pc (.worker w) = .idle
    by_cases hrun : e = .run
    · exact Or.inl (hrun ▸ rfl)
    · refine ih.imp (fun hmain => ?_) fun hidle w => ?_
      · rw [next_rests he hrun (Or.inr hmain), hmain]
      · rw [next_rests he hrun (Or.inl (hidle w)), hidle w]

end LtaskInterleaving
