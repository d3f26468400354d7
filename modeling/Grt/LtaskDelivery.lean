import Grt.LtaskInterleaving

/-! Channels deliver every message once and in order: what was popped from the message queue
of a channel and what is still in it is what was pushed, for as long as nobody closes the
channel, and an operation on one channel leaves the others alone. -/
namespace LtaskDelivery

open LtaskQueue RefCountedMap LtaskSchedule LtaskInterleaving TransitionSystem

/-- The channel whose handle or record the next step of a call uses. -/
def target : CallPc → Option ChannelId
  | .sendGrab c _ | .sendPush c _ | .sendPop c | .wakeGrab c _ | .wakeRead c _ | .wakeCas c _
  | .wakePush c _ | .wakeRelease c _ | .sendRelease c | .recvGrab c | .recvPop c | .recvRelease c
  | .isclosedGrab c | .isclosedRelease c | .checkEmpty _ _ c | .checkRelease _ _ c
  | .hitRelease _ c | .regPush _ _ c | .regRelease _ _ c => some c
  | .checkGrab channels i | .regGrab channels i => channels[i]?
  | _ => none

/-- The channel that an event operates on. -/
def operates (s : State) : Event → Option ChannelId
  | .step a =>
    match s.pc a with
    | .call _ pc => target pc
    | _ => none
  | .call _ _ (.newchannel id) => some id
  | .call _ _ (.closechannel c) => some c
  | _ => none

/-- What a step does to the channels, their logs and the references the agents hold. -/
inductive ChannelStep (s : State) : Event → State → Prop where
  | keep {e s'} (refs : ∀ b c, (s'.pc b).channelRef = some c → (s.pc b).channelRef = some c)
      (channels : s'.channel = s.channel) (sent : s'.sent = s.sent)
      (received : s'.received = s.received) : ChannelStep s e s'
  | grab {s'} (a c) (op : operates s (.step a) = some c) (live : (s.channel c).isSome)
      (before : (s.pc a).channelRef = none) (after : (s'.pc a).channelRef = some c)
      (others : ∀ b, b ≠ a → s'.pc b = s.pc b) (channels : s'.channel = s.channel.grab c)
      (sent : s'.sent = s.sent) (received : s'.received = s.received) :
      ChannelStep s (.step a) s'
  | release {s'} (a c) (op : operates s (.step a) = some c)
      (before : (s.pc a).channelRef = some c) (after : (s'.pc a).channelRef = none)
      (others : ∀ b, b ≠ a → s'.pc b = s.pc b) (channels : s'.channel = s.channel.release c)
      (sent : s'.sent = s.sent) (received : s'.received = s.received) :
      ChannelStep s (.step a) s'
  | push {s'} (a c msg) (op : operates s (.step a) = some c)
      (refs : ∀ b c, (s'.pc b).channelRef = some c → (s.pc b).channelRef = some c)
      (channels : s'.channel = s.channel.modify c fun ch => { ch with mq := ch.mq.push msg })
      (sent : s'.sent = Function.update s.sent c (s.sent c ++ [msg]))
      (received : s'.received = s.received) : ChannelStep s (.step a) s'
  | pop {s'} (a c msg ch mq) (op : operates s (.step a) = some c)
      (refs : ∀ b c, (s'.pc b).channelRef = some c → (s.pc b).channelRef = some c)
      (found : s.channel.find c = some ch) (popped : ch.mq.pop = some (msg, mq))
      (channels : s'.channel = s.channel.modify c fun ch => { ch with mq := mq })
      (sent : s'.sent = s.sent)
      (received : s'.received = Function.update s.received c (s.received c ++ [msg])) :
      ChannelStep s (.step a) s'
  | readers {s'} (a c) (f : Channel → Queue TaskId) (op : operates s (.step a) = some c)
      (refs : ∀ b c, (s'.pc b).channelRef = some c → (s.pc b).channelRef = some c)
      (channels : s'.channel = s.channel.modify c fun ch => { ch with reader := f ch })
      (sent : s'.sent = s.sent) (received : s'.received = s.received) :
      ChannelStep s (.step a) s'
  | create {s'} (a t c) (pcs : s'.pc = s.pc)
      (channels : s'.channel = s.channel.register c ⟨Queue.create, Queue.create⟩)
      (sent : s'.sent = Function.update s.sent c [])
      (received : s'.received = Function.update s.received c []) :
      ChannelStep s (.call a t (.newchannel c)) s'
  | close {s'} (a t c) (pcs : s'.pc = s.pc) (channels : s'.channel = s.channel.release c)
      (sent : s'.sent = s.sent) (received : s'.received = s.received) :
      ChannelStep s (.call a t (.closechannel c)) s'

variable {s s' : State} {a : Agent} {p : Pc} {e : Event} {c : ChannelId}

theorem refs_update (hpc : s'.pc = Function.update s.pc a p)
    (hp : p.channelRef = (s.pc a).channelRef) (b : Agent) (c : ChannelId)
    (h : (s'.pc b).channelRef = some c) : (s.pc b).channelRef = some c := by
  by_cases hb : b = a
  · subst hb
    rwa [hpc, Function.update_self, hp] at h
  · rwa [hpc, Function.update_of_ne hb] at h

theorem keep_of (hpc : s'.pc = Function.update s.pc a p)
    (hp : p.channelRef = (s.pc a).channelRef) (hch : s'.channel = s.channel)
    (hs : s'.sent = s.sent) (hr : s'.received = s.received) : ChannelStep s e s' :=
  .keep (refs_update hpc hp) hch hs hr

theorem keep_refl : ChannelStep s e s := .keep (fun _ _ h => h) rfl rfl rfl

theorem keep_abort : ChannelStep s e s.abort := .keep (fun _ _ h => h) rfl rfl rfl

theorem grab_of {t : TaskId} {pc pc' : CallPc} (hpc : s.pc a = .call t pc)
    (hop : target pc = some c) (hlive : (s.channel c).isSome) (hb : pc.channelRef = none)
    (ha : pc'.channelRef = some c) :
    ChannelStep s (.step a) ((s.put (s.grabChannel c)).goto a (.call t pc')) := by
  refine .grab a c ?_ hlive ?_ ?_ (fun b hb => Function.update_of_ne hb ..) rfl rfl rfl
  · simp [operates, hpc, hop]
  · rwa [hpc]
  · rw [goto_pc]
    exact ha

theorem release_of {t : TaskId} {pc : CallPc} (hpc : s.pc a = .call t pc)
    (hop : target pc = some c) (hb : pc.channelRef = some c) (hp : p.channelRef = none) :
    ChannelStep s (.step a) ((s.put (releaseChannel s.toSchedule c)).goto a p) := by
  refine .release a c ?_ ?_ ?_ (fun b hb => Function.update_of_ne hb ..) rfl rfl rfl
  · simp [operates, hpc, hop]
  · rwa [hpc]
  · rwa [goto_pc]

theorem callStep_channels {t : TaskId} {pc : CallPc} (hpc : s.pc a = .call t pc) :
    ChannelStep s (.step a) (callStep s a t pc) := by
  have hop : ∀ {c}, target pc = some c → operates s (.step a) = some c := fun h => by
    simp [operates, hpc, h]
  cases pc with
  | sendGrab c | recvGrab c | isclosedGrab c =>
    simp only [callStep]
    split
    · exact grab_of hpc rfl (by assumption) rfl rfl
    · exact keep_of rfl (by rw [hpc]; rfl) rfl rfl rfl
  | checkGrab channels i | regGrab channels i =>
    simp only [callStep]
    split
    · exact keep_of rfl (by rw [hpc]; rfl) rfl rfl rfl
    · split
      · exact grab_of hpc (by assumption) (by assumption) rfl rfl
      · exact keep_of rfl (by rw [hpc]; rfl) rfl rfl rfl
  | sendPush c msg =>
    refine withChannel_cases keep_abort fun ch hch => ?_
    exact .push a c msg (hop rfl) (refs_update rfl (by rw [hpc]; rfl)) rfl
        rfl rfl
  | recvPop c =>
    refine withChannel_cases keep_abort fun ch hch => ?_
    split
    · rename_i msg mq hpop
      exact .pop a c msg ch mq (hop rfl) (refs_update rfl (by rw [hpc]; rfl)) hch hpop rfl rfl rfl
    · exact keep_of rfl (by rw [hpc]; rfl) rfl rfl rfl
  | sendPop c =>
    refine withChannel_cases keep_abort fun ch hch => ?_
    split
    · rename_i id reader _
      exact .readers a c (fun _ => reader) (hop rfl) (refs_update rfl (by rw [hpc]; rfl)) rfl
        rfl rfl
    · exact keep_of rfl (by rw [hpc]; rfl) rfl rfl rfl
  | regPush channels i c =>
    refine withChannel_cases keep_abort fun ch hch => ?_
    exact .readers a c (fun ch => ch.reader.push t) (hop rfl) (refs_update rfl (by rw [hpc]; rfl))
      rfl rfl rfl
  | checkEmpty channels i c =>
    refine withChannel_cases keep_abort fun ch hch => keep_of rfl ?_ rfl rfl rfl
    rw [hpc]
    split <;> rfl
  | sendRelease c | recvRelease c | isclosedRelease c => exact release_of hpc rfl rfl rfl
  | checkRelease channels i c | hitRelease channels c | regRelease channels i c =>
    exact release_of hpc rfl rfl rfl
  | wakeRead c id =>
    refine withTask_cases keep_abort fun r _ => keep_of rfl ?_ rfl rfl rfl
    rw [hpc]
    split <;> rfl
  | wakePush | selectBlock | openPush =>
    exact withTask_cases keep_abort fun r _ => keep_of rfl (by rw [hpc]; rfl) rfl rfl rfl
  | wakeCas | openCas =>
    refine withTask_cases keep_abort fun r _ => ?_
    split <;> exact keep_of rfl (by rw [hpc]; rfl) rfl rfl rfl
  | wakeGrab | selectGrab =>
    simp only [callStep]
    split <;> exact keep_of rfl (by rw [hpc]; rfl) rfl rfl rfl
  | openNew => exact keep_refl
  | wakeRelease | hitReturn | selectRelease | openRead | openWrite =>
    exact keep_of rfl (by rw [hpc]; rfl) rfl rfl rfl

theorem agentStep_channels {pc : Pc} (hpc : s.pc a = pc) :
    ChannelStep s (.step a) (agentStep s a pc) := by
  have goes : ∀ {sched : Schedule} {p : Pc}, sched.channel = s.channel → p.channelRef = none →
      pc.channelRef = none → ChannelStep s (.step a) ((s.put sched).goto a p) :=
    fun hch hp hold => keep_of rfl (by rw [hpc, hp, hold]) hch rfl rfl
  cases pc with
  | idle | joined => exact keep_refl
  | slice t =>
    simp only [agentStep]
    split
    · exact keep_abort
    · exact keep_refl
  | call t pc => exact callStep_channels hpc
  | grabAssert | relAssert =>
    refine withTask_cases keep_abort fun r _ => ?_
    split
    · exact keep_abort
    · exact goes rfl rfl rfl
  | grabRun | relPush => exact withTask_cases keep_abort fun r _ => goes rfl rfl rfl
  | relRead =>
    refine withTask_cases keep_abort fun r _ => goes rfl ?_ rfl
    split <;> rfl
  | relCas =>
    refine withTask_cases keep_abort fun r _ => ?_
    split <;> exact goes rfl rfl rfl
  | scan | grab | relGrab =>
    simp only [agentStep]
    split <;> exact goes rfl rfl rfl
  | grabRelease | close | relRelease => exact goes rfl rfl rfl

theorem next_channels (he : Enabled s e) : ChannelStep s e (next s e) := by
  cases e with
  | step a => exact agentStep_channels rfl
  | issue a t ud c id =>
    obtain ⟨-, hpc, -⟩ := he
    exact keep_of rfl (by rw [hpc]; rfl) rfl rfl rfl
  | call a t op =>
    obtain ⟨-, hpc, -⟩ := he
    cases op with
    | newchannel id => exact .create a t id rfl rfl rfl rfl
    | closechannel c => exact .close a t c rfl rfl rfl rfl
    | _ => exact keep_of rfl (by rw [hpc]; rfl) rfl rfl rfl
  | yield a t | finish a t =>
    obtain ⟨-, hpc, -⟩ := he
    exact keep_of rfl (by rw [hpc]; rfl) rfl rfl rfl
  | run =>
    refine .keep ?_ rfl rfl rfl
    rintro (_ | w) c h
    · cases h
    · simp only [next] at h
      split at h <;> cases h

/-- What was received and what is waiting is what was sent; and a channel that nobody closed
is in the map, with a reference for its creator and one for every call that uses it. -/
structure Invariant (s : State) : Prop where
  delivered : ∀ c ch, s.channel.find c = some ch → s.received c ++ ch.mq.contents = s.sent c
  counted : ∀ c, s.created c = true → s.closed c = false →
    holders (agents s.threads) (fun b => (s.pc b).channelRef) c < s.channel.count c

theorem initial_invariant {threads : ℕ} : Invariant (initial threads) where
  delivered c ch h := by cases h
  counted c h := by cases h

/-- Which channels exist and are open changes when one is created or closed. -/
theorem next_created (hn : ∀ a t, e ≠ .call a t (.newchannel c))
    (h : (next s e).created c = true) : s.created c = true := by
  cases e with
  | step a => rwa [next, (agentStep_frame (s.pc a)).created] at h
  | call a t op =>
    cases op with
    | newchannel id =>
      by_cases hid : c = id
      · exact absurd rfl (hid ▸ hn a t)
      · simpa [next, callOp, hid] using h
    | _ => exact h
  | issue | yield | finish | run => exact h

theorem next_open (hn : ∀ a t, e ≠ .call a t (.newchannel c))
    (h : (next s e).closed c = false) : s.closed c = false := by
  cases e with
  | step a => rwa [next, (agentStep_frame (s.pc a)).closed] at h
  | call a t op =>
    cases op with
    | newchannel id =>
      by_cases hid : c = id
      · exact absurd rfl (hid ▸ hn a t)
      · simpa [next, callOp, hid] using h
    | closechannel id =>
      by_cases hid : c = id
      · subst hid
        simp [next, callOp] at h
      · simpa [next, callOp, hid] using h
    | _ => exact h
  | issue | yield | finish | run => exact h

theorem step_delivered (h : Invariant s) (hstep : ChannelStep s e s') :
    ∀ c ch, s'.channel.find c = some ch → s'.received c ++ ch.mq.contents = s'.sent c := by
  intro i ch hc
  cases hstep with
  | keep _ channels sent received =>
    rw [sent, received]
    exact h.delivered i ch (channels ▸ hc)
  | grab _ _ _ _ _ _ _ channels sent received =>
    rw [channels, find_grab] at hc
    rw [sent, received]
    exact h.delivered i ch hc
  | release _ _ _ _ _ _ channels sent received | close _ _ _ _ channels sent received =>
    rw [channels] at hc
    rw [sent, received]
    exact h.delivered i ch (find_release _ hc)
  | push a c msg _ _ channels sent received =>
    rw [channels] at hc
    rw [sent, received]
    rcases find_modify _ hc with ⟨hne, hold⟩ | ⟨rfl, old, hold, rfl⟩
    · rw [Function.update_of_ne hne]
      exact h.delivered i ch hold
    · rw [Function.update_self, push_contents, ← List.append_assoc, h.delivered i old hold]
  | pop a c msg old mq _ _ found popped channels sent received =>
    rw [channels] at hc
    rw [sent, received]
    rcases find_modify _ hc with ⟨hne, hold⟩ | ⟨rfl, old', hold, rfl⟩
    · rw [Function.update_of_ne hne]
      exact h.delivered i ch hold
    · rw [Function.update_self, ← h.delivered i old found, pop_some popped]
      simp
  | readers a c f _ _ channels sent received =>
    rw [channels] at hc
    rw [sent, received]
    rcases find_modify _ hc with ⟨-, hold⟩ | ⟨rfl, old, hold, rfl⟩
    · exact h.delivered i ch hold
    · exact h.delivered i old hold
  | create a t c _ channels sent received =>
    rw [channels] at hc
    rw [sent, received]
    rcases find_register _ hc with ⟨rfl, rfl⟩ | ⟨hne, hold⟩
    · simp
    · rw [Function.update_of_ne hne, Function.update_of_ne hne]
      exact h.delivered i ch hold

theorem operates_agent (hout : ∀ b, b ∉ agents s.threads → s.pc b = .idle)
    (h : operates s (.step a) = some c) : a ∈ agents s.threads := by
  by_contra ha
  rw [operates, hout a ha] at h
  cases h

/-- A new channel has its creator's reference and no other. -/
theorem newchannel_counted (h : Invariant s) {t : TaskId} {i : ChannelId}
    (he : Enabled s (.call a t (.newchannel i)))
    (hcreated : (next s (.call a t (.newchannel i))).created c = true)
    (hopen : (next s (.call a t (.newchannel i))).closed c = false) :
    holders (agents s.threads) (fun b => (s.pc b).channelRef) c <
      (s.channel.register i ⟨Queue.create, Queue.create⟩).count c := by
  obtain ⟨-, -, -, -, -, hheld⟩ := he
  by_cases hi : c = i
  · subst hi
    have hnone : holders (agents s.threads) (fun b => (s.pc b).channelRef) c = 0 := by
      rw [holders, Finset.card_eq_zero, Finset.filter_eq_empty_iff]
      exact fun b hb => hheld b hb
    rw [hnone]
    simp [RefMap.count]
  · rw [count_register_other _ _ hi]
    have hn : ∀ b x, Event.call a t (.newchannel i) ≠ .call b x (.newchannel c) := by
      simp [Ne.symm hi]
    exact h.counted c (next_created hn hcreated) (next_open hn hopen)

theorem step_counted (h : Invariant s) (hout : ∀ b, b ∉ agents s.threads → s.pc b = .idle)
    (he : Enabled s e) (hcreated : (next s e).created c = true)
    (hopen : (next s e).closed c = false) :
    holders (agents s.threads) (fun b => ((next s e).pc b).channelRef) c <
      (next s e).channel.count c := by
  by_cases hnew : ∃ a t i, e = .call a t (.newchannel i)
  · obtain ⟨a, t, i, rfl⟩ := hnew
    exact newchannel_counted h he hcreated hopen
  have hn : ∀ a t, e ≠ .call a t (.newchannel c) := fun a t hx => hnew ⟨a, t, c, hx⟩
  have hold : holders (agents s.threads) (fun b => (s.pc b).channelRef) c < s.channel.count c :=
    h.counted c (next_created hn hcreated) (next_open hn hopen)
  have hstep := next_channels he
  generalize hs : next s e = s' at hstep hopen ⊢
  -- the step takes no reference to `c`
  have mono (hrefs : ∀ b, (s'.pc b).channelRef = some c → (s.pc b).channelRef = some c) :
      holders (agents s.threads) (fun b => (s'.pc b).channelRef) c < s.channel.count c :=
    (holders_mono hrefs).trans_lt hold
  have moved {a : Agent} (others : ∀ b, b ≠ a → s'.pc b = s.pc b)
      (after : (s'.pc a).channelRef ≠ some c) (b : Agent)
      (hb : (s'.pc b).channelRef = some c) : (s.pc b).channelRef = some c := by
    by_cases hba : b = a
    · subst hba
      exact absurd hb after
    · rwa [← others b hba]
  cases hstep with
  | keep refs channels =>
    rw [channels]
    exact mono fun b => refs b c
  | push _ _ _ _ refs channels | pop _ _ _ _ _ _ refs _ _ channels
  | readers _ _ _ _ refs channels =>
    rw [channels, count_modify]
    exact mono fun b => refs b c
  | grab a i op live before after others channels =>
    rw [channels]
    by_cases hi : c = i
    · subst hi
      have hne : (s.pc a).channelRef ≠ some c := by simp [before]
      have hgrab := holders_grab (f := fun b => (s.pc b).channelRef)
        (g := fun b => (s'.pc b).channelRef) (operates_agent hout op) hne after
        fun b hb => by rw [others b hb]
      rw [count_grab _ live]
      omega
    · rw [count_grab_other _ hi]
      exact mono (moved others (by simp [after, Ne.symm hi]))
  | release a i op before after others channels =>
    rw [channels]
    by_cases hi : c = i
    · subst hi
      have hrel := holders_release (f := fun b => (s.pc b).channelRef)
        (g := fun b => (s'.pc b).channelRef) (operates_agent hout op) before (by simp [after])
        fun b hb => by rw [others b hb]
      rw [count_release]
      omega
    · rw [count_release_other _ hi]
      exact mono (moved others (by simp [after]))
  | create a t i => exact absurd ⟨a, t, i, rfl⟩ hnew
  | close a t i pcs channels =>
    have hi : c ≠ i := fun hi => by
      subst hi
      rw [← hs] at hopen
      simp [next, callOp] at hopen
    rw [channels, count_release_other _ hi]
    exact mono fun b hb => by rwa [← pcs]

theorem reachable_invariant {threads : ℕ} (h : Reachable (ltaskSystem threads) s) :
    Invariant s := by
  apply h.invariant
  · rintro s ⟨-, rfl⟩
    exact initial_invariant
  · intro s e hr ih he
    refine ⟨step_delivered ih (next_channels he), fun c hc ho => ?_⟩
    have := step_counted ih (fun b => reachable_outside hr) he hc ho
    rwa [← next_threads (e := e)] at this

/-- Two messages are sent to a channel and one is received by another task. -/
def sampleRun : State :=
  runTrace (ltaskSystem 2) (initial 2)
    ([.call .main 0 (.newchannel 1), .call .main 0 (.send 1 7)] ++ steps .main 4 ++
      [.call .main 0 (.send 1 8)] ++ steps .main 4 ++ mainOpens 101 0 1 ++ [.run] ++
      steps (.worker 0) 5 ++ [.call (.worker 0) 1 (.recv 1)] ++ steps (.worker 0) 3)

end LtaskDelivery
