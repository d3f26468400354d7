import Grt.LtaskInterleaving

/-! What it takes that a task waiting in `schedule_select` is woken by the next message: it is in
the reader queue of every channel it waits for, and the channel is empty or a sender has still
to look at the readers. A select that registers after the send is over breaks this. -/
namespace LtaskWakeup

open LtaskQueue RefCountedMap LtaskSchedule LtaskInterleaving TransitionSystem

/-- The list of a `schedule_select` in progress. -/
def selectList : CallPc → Option (List ChannelId)
  | .selectGrab l | .checkGrab l _ | .checkEmpty l _ _ | .checkRelease l _ _ | .hitRelease l _
  | .hitReturn l | .selectBlock l | .regGrab l _ | .regPush l _ _ | .regRelease l _ _
  | .selectRelease l => some l
  | _ => none

/-- The task that is in `schedule_select`. -/
def selecting : Pc → Option TaskId
  | .call t pc => if (selectList pc).isSome then some t else none
  | _ => none

/-- The channel a sender has pushed to and whose readers it is still waking. -/
def draining : Pc → Option ChannelId
  | .call _ (.sendPop c) | .call _ (.wakeGrab c _) | .call _ (.wakeRead c _)
  | .call _ (.wakeCas c _) | .call _ (.wakePush c _) | .call _ (.wakeRelease c _) => some c
  | _ => none

/-- The reader a sender has popped and is about to wake. -/
def waking : Pc → Option TaskId
  | .call _ (.wakeGrab _ id) | .call _ (.wakeRead _ id) | .call _ (.wakeCas _ id) => some id
  | _ => none

/-- The select has been through `c` in its registration loop. -/
def Registered (c : ChannelId) : Pc → Prop
  | .call _ (.regGrab l i) | .call _ (.regPush l i _) => c ∈ l.take i
  | .call _ (.regRelease l i _) => c ∈ l.take (i + 1)
  | .call _ (.selectRelease _) => True
  | _ => False

/-- Inside a `schedule_send` call, from its first step to its last. -/
def sending : Pc → Bool
  | .call _ (.sendGrab _ _) | .call _ (.sendPush _ _) | .call _ (.sendRelease _) => true
  | pc => (draining pc).isSome

/-- The select that is about to push its task to the readers of a channel. -/
def registering : Pc → Option (TaskId × ChannelId)
  | .call t (.regPush _ _ c) => some (t, c)
  | _ => none

/-- The select that is about to look whether a channel has a message. -/
def checking : Pc → Option (TaskId × ChannelId)
  | .call t (.checkEmpty _ _ c) => some (t, c)
  | _ => none

/-- The channel is empty, or a sender is still to look at its readers. -/
def Awaitable (s : State) (c : ChannelId) : Prop :=
  s.messages c = [] ∨ ∃ b ∈ agents s.threads, draining (s.pc b) = some c

instance (s : State) (c : ChannelId) : Decidable (Awaitable s c) :=
  inferInstanceAs (Decidable (_ ∨ _))

/-- A blocked task registers with a channel that is empty or whose sender will still look at the
readers, and a select that finds a message is not made by a task that is blocked already. -/
def TimelyStep (s : State) (p : Pc) : Prop :=
  (∀ x ∈ registering p, s.status x.1 = some .blocked → Awaitable s x.2) ∧
    ∀ x ∈ checking p, s.messages x.2 ≠ [] → s.status x.1 ≠ some .blocked

instance (s : State) (p : Pc) : Decidable (TimelyStep s p) :=
  inferInstanceAs (Decidable (_ ∧ _))

/-- The steps that do not lose a wake-up; a task is in one select, and channel handles are not
reissued. -/
def Timely (s : State) : Event → Prop
  | .step a => TimelyStep s (s.pc a)
  | .call _ t (.select _) => ∀ b ∈ agents s.threads, selecting (s.pc b) ≠ some t
  | .call _ _ (.newchannel id) => s.created id = false
  | _ => True

instance (s : State) (e : Event) : Decidable (Timely s e) :=
  match e with
  | .step a => inferInstanceAs (Decidable (TimelyStep s (s.pc a)))
  | .call _ t (.select _) =>
    inferInstanceAs (Decidable (∀ b ∈ agents s.threads, selecting (s.pc b) ≠ some t))
  | .call _ _ (.newchannel id) => inferInstanceAs (Decidable (s.created id = false))
  | .call _ _ (.send ..) | .call _ _ (.recv ..) | .call _ _ (.isclosed ..)
  | .call _ _ (.opentask ..) | .call _ _ (.closechannel ..) => isTrue trivial
  | .issue .. | .yield .. | .finish .. | .run => isTrue trivial

instance (threads : ℕ) (s : State) (e : Event) :
    Decidable (((ltaskSystem threads).when Timely).enabled s e) :=
  inferInstanceAs (Decidable (Enabled s e ∧ Timely s e))

def Draining (s : State) (c : ChannelId) : Prop := ∃ a, draining (s.pc a) = some c

def Waking (s : State) (t : TaskId) : Prop := ∃ a, waking (s.pc a) = some t

/-- The task will be woken if there is a message: it is registered and the channel is empty or
its sender still looks at the readers, or a sender is about to wake it. -/
def Covered (s : State) (t : TaskId) (c : ChannelId) : Prop :=
  t ∈ s.readers c ∧ (s.messages c = [] ∨ Draining s c) ∨ Waking s t

/-- No select of the task has still to register with the channel. -/
def Settled (s : State) (t : TaskId) (c : ChannelId) : Prop :=
  ∀ a, selecting (s.pc a) = some t → Registered c (s.pc a)

/-- A select that has found a message and returns. -/
def hit : CallPc → Bool
  | .hitRelease _ _ | .hitReturn _ => true
  | _ => false

/-- The channel at hand is the one the registration loop has come to. -/
def Indexed : CallPc → Prop
  | .regPush l i c | .regRelease l i c => l[i]? = some c
  | _ => True

/-- What a select in progress knows. -/
structure SelectOk (s : State) (t : TaskId) (pc : CallPc) : Prop where
  listed : ∀ l, selectList pc = some l → ∀ d ∈ s.awaited t, d ∈ l
  indexed : Indexed pc
  found : hit pc = true → s.status t ≠ some .blocked

theorem SelectOk.unhit {s : State} {t : TaskId} {pc : CallPc}
    (hlisted : ∀ l, selectList pc = some l → ∀ d ∈ s.awaited t, d ∈ l) (hidx : Indexed pc)
    (hhit : hit pc = false) : SelectOk s t pc :=
  ⟨hlisted, hidx, fun h => by rw [hhit] at h; cases h⟩

structure Invariant (s : State) : Prop where
  waiting : ∀ t c, s.status t = some .blocked → c ∈ s.awaited t → (s.channel c).isSome →
    Settled s t c → Covered s t c
  selects : ∀ a b t, selecting (s.pc a) = some t → selecting (s.pc b) = some t → a = b
  ok : ∀ a t pc, s.pc a = .call t pc → SelectOk s t pc
  known : ∀ c, (s.channel c).isSome → s.created c = true
  awaited : ∀ t c, c ∈ s.awaited t → s.created c = true

/-- A step of one agent that loses no wake-up. -/
structure Calm (s : State) (a : Agent) (p : Pc) (s' : State) : Prop where
  pc : s'.pc = Function.update s.pc a p
  awaited : s'.awaited = s.awaited
  created : s'.created = s.created
  live : ∀ c, (s'.channel c).isSome → (s.channel c).isSome
  selects : ∀ t, selecting p = some t → selecting (s.pc a) = some t
  ok : ∀ t pc, p = .call t pc → SelectOk s' t pc
  statuses : ∀ t, s'.status t = some .blocked →
    s.status t = some .blocked ∨ selecting p = some t ∧ ∀ c, ¬ Registered c p
  readers : ∀ c, (s'.channel c).isSome → ∀ t ∈ s.readers c, t ∈ s'.readers c ∨ waking p = some t
  messages : ∀ c, (s'.channel c).isSome → s.messages c = [] →
    s'.messages c = [] ∨ draining p = some c
  registers : ∀ t c, s'.status t = some .blocked → c ∈ s.awaited t → (s'.channel c).isSome →
    selecting (s.pc a) = some t → (selecting p = some t → Registered c p) →
    Registered c (s.pc a) ∨ Covered s' t c
  drains : ∀ c, draining (s.pc a) = some c → draining p = some c ∨ s.readers c = []
  wakes : ∀ t, s'.status t = some .blocked → waking (s.pc a) = some t → waking p = some t

variable {threads : ℕ} {s s' : State} {a : Agent} {p : Pc} {e : Event} {t : TaskId}
  {c : ChannelId}

theorem Calm.waiting (h : Invariant s) (hc : Calm s a p s') :
    ∀ t c, s'.status t = some .blocked → c ∈ s'.awaited t → (s'.channel c).isSome →
      Settled s' t c → Covered s' t c := by
  intro t c hst haw hlive hset
  have hself : selecting p = some t → Registered c p := by
    have := hset a
    rwa [hc.pc, Function.update_self] at this
  have hother : ∀ b, b ≠ a → s'.pc b = s.pc b := fun b hb => by
    rw [hc.pc, Function.update_of_ne hb]
  rw [hc.awaited] at haw
  rcases hc.statuses t hst with hold | ⟨hsel, hnone⟩
  swap
  · exact absurd (hself hsel) (hnone c)
  by_cases hcov : Covered s' t c
  · exact hcov
  have hsettled : Settled s t c := by
    intro b hb
    by_cases hba : b = a
    · subst hba
      exact (hc.registers t c hst haw hlive hb hself).resolve_right hcov
    · have := hset b
      rw [hother b hba] at this
      exact this hb
  rcases h.waiting t c hold haw (hc.live c hlive) hsettled with ⟨hr, hm⟩ | ⟨b, hb⟩
  · rcases hc.readers c hlive t hr with hr' | hw
    · refine Or.inl ⟨hr', ?_⟩
      rcases hm with hm | ⟨b, hb⟩
      · exact (hc.messages c hlive hm).imp id fun hd => ⟨a, by rwa [hc.pc, Function.update_self]⟩
      · by_cases hba : b = a
        · subst hba
          rcases hc.drains c hb with hd | hempty
          · exact Or.inr ⟨b, by rwa [hc.pc, Function.update_self]⟩
          · rw [hempty] at hr
            cases hr
        · exact Or.inr ⟨b, by rwa [hother b hba]⟩
    · exact Or.inr ⟨a, by rwa [hc.pc, Function.update_self]⟩
  · by_cases hba : b = a
    · subst hba
      exact Or.inr ⟨b, by rw [hc.pc, Function.update_self]; exact hc.wakes t hst hb⟩
    · exact Or.inr ⟨b, by rwa [hother b hba]⟩

theorem Calm.invariant (h : Invariant s) (hc : Calm s a p s') : Invariant s' := by
  have hold : ∀ b t, selecting (s'.pc b) = some t → selecting (s.pc b) = some t := by
    intro b t hb
    by_cases hba : b = a
    · subst hba
      rw [hc.pc, Function.update_self] at hb
      exact hc.selects t hb
    · rwa [hc.pc, Function.update_of_ne hba] at hb
  refine ⟨hc.waiting h, fun b d t hb hd => h.selects b d t (hold b t hb) (hold d t hd), fun b => ?_,
    fun c hlive => ?_, fun t c hcm => ?_⟩
  · by_cases hba : b = a
    · subst hba
      rw [hc.pc, Function.update_self]
      exact hc.ok
    · rw [hc.pc, Function.update_of_ne hba]
      -- the only status that becomes blocked is that of the task in the select of `a`
      have hstat : ∀ x, selecting (s.pc b) = some x → s.status x ≠ some .blocked →
          s'.status x ≠ some .blocked := by
        intro x hx hne hst
        rcases hc.statuses x hst with hs | ⟨hsel, -⟩
        · exact hne hs
        · exact hba (h.selects b a x hx (hc.selects x hsel))
      intro x pc hpc
      have hok := h.ok b x pc hpc
      refine ⟨fun l hl => ?_, hok.indexed, fun hhit => hstat x ?_ (hok.found hhit)⟩
      · rw [hc.awaited]
        exact hok.listed l hl
      · rw [hpc]
        cases pc <;> first | rfl | cases hhit
  · rw [hc.created]
    exact h.known c (hc.live c hlive)
  · rw [hc.awaited] at hcm
    rw [hc.created]
    exact h.awaited t c hcm

/-- The open channels hold what they held. -/
def SameChannels (s s' : State) : Prop :=
  ∀ c, (s'.channel c).isSome →
    (s.channel c).isSome ∧ s'.readers c = s.readers c ∧ s'.messages c = s.messages c

theorem same_of_eq (h : s'.channel = s.channel) : SameChannels s s' := by
  intro c hc
  rw [h] at hc
  simp [Schedule.readers, Schedule.messages, h, hc]

theorem same_of_find (hlive : ∀ c, (s'.channel c).isSome → (s.channel c).isSome)
    (h : ∀ c ch, s'.channel.find c = some ch → s.channel.find c = some ch) : SameChannels s s' := by
  intro c hc
  obtain ⟨r, hr⟩ := Option.isSome_iff_exists.mp hc
  have hfind : s'.channel.find c = some r.1 := by simp [RefMap.find, hr]
  have hold := h c r.1 hfind
  simp [Schedule.readers, Schedule.messages, hfind, hold, hlive c hc]

theorem same_grab {i : ChannelId} (h : s'.channel = s.channel.grab i) : SameChannels s s' := by
  apply same_of_find
  · intro c hc
    rwa [h, isSome_grab] at hc
  · intro c ch hc
    rwa [h, find_grab] at hc

theorem same_release {i : ChannelId} (h : s'.channel = s.channel.release i) :
    SameChannels s s' := by
  apply same_of_find
  · intro c hc
    rw [h] at hc
    exact isSome_release _ hc
  · intro c ch hc
    rw [h] at hc
    exact find_release _ hc

theorem ok_of_none {pc : CallPc} (h : selectList pc = none) : SelectOk s t pc := by
  cases pc with
  | selectGrab | checkGrab | checkEmpty | checkRelease | hitRelease | hitReturn | selectBlock
  | regGrab | regPush | regRelease | selectRelease => cases h
  | _ => exact ⟨nofun, trivial, nofun⟩

/-- A step that changes no queue of a channel. -/
theorem calm_of (hpc : s'.pc = Function.update s.pc a p) (hch : SameChannels s s')
    (haw : s'.awaited = s.awaited) (hcr : s'.created = s.created)
    (hst : ∀ x, s'.status x = some .blocked →
      s.status x = some .blocked ∨ selecting p = some x ∧ ∀ c, ¬ Registered c p)
    (hsel : ∀ x, selecting p = some x → selecting (s.pc a) = some x)
    (hok : ∀ x pc, p = .call x pc → SelectOk s' x pc)
    (hreg : ∀ x c, s'.status x = some .blocked → c ∈ s.awaited x → (s'.channel c).isSome →
      selecting (s.pc a) = some x → (selecting p = some x → Registered c p) →
      Registered c (s.pc a))
    (hdr : ∀ c, draining (s.pc a) = some c → draining p = some c ∨ s.readers c = [])
    (hwk : ∀ x, s'.status x = some .blocked → waking (s.pc a) = some x → waking p = some x) :
    Calm s a p s' where
  pc := hpc
  awaited := haw
  created := hcr
  live c hc := (hch c hc).1
  selects := hsel
  ok := hok
  statuses := hst
  readers c hc _ hx := Or.inl ((hch c hc).2.1 ▸ hx)
  messages c hc hm := Or.inl ((hch c hc).2.2 ▸ hm)
  registers x c hx hcm hc hs hr := Or.inl (hreg x c hx hcm hc hs hr)
  drains := hdr
  wakes := hwk

theorem selectList_of_selecting {pc : CallPc} (h : selecting (.call t pc) = none) :
    selectList pc = none := by
  cases hl : selectList pc with
  | none => rfl
  | some l =>
    simp only [selecting, hl] at h
    cases h

/-- Neither selecting nor waking before, nor selecting after. -/
theorem calm_quiet (hpc : s'.pc = Function.update s.pc a p) (hch : SameChannels s s')
    (haw : s'.awaited = s.awaited) (hcr : s'.created = s.created)
    (hst : ∀ t, s'.status t = some .blocked → s.status t = some .blocked)
    (hs : selecting (s.pc a) = none) (hd : draining (s.pc a) = none)
    (hw : waking (s.pc a) = none) (hp : selecting p = none) : Calm s a p s' := by
  refine calm_of hpc hch haw hcr (fun x hx => Or.inl (hst x hx)) ?_ ?_ ?_ ?_ ?_
  · intro t hx
    rw [hp] at hx
    cases hx
  · rintro t pc rfl
    exact ok_of_none (selectList_of_selecting hp)
  · intro t c _ _ _ hx
    rw [hs] at hx
    cases hx
  · intro c hx
    rw [hd] at hx
    cases hx
  · intro t _ hx
    rw [hw] at hx
    cases hx

/-- From one point of a send to another, with its readers still to be looked at. -/
theorem calm_send {pc pc' : CallPc} (hold : s.pc a = .call t pc)
    (hpc : s'.pc = Function.update s.pc a (.call t pc')) (hch : SameChannels s s')
    (haw : s'.awaited = s.awaited) (hcr : s'.created = s.created)
    (hst : ∀ t, s'.status t = some .blocked → s.status t = some .blocked)
    (hs : selectList pc = none) (hs' : selectList pc' = none)
    (hd : draining (.call t pc') = draining (.call t pc))
    (hw : ∀ x, s'.status x = some .blocked → waking (.call t pc) = some x →
      waking (.call t pc') = some x) : Calm s a (.call t pc') s' := by
  refine calm_of hpc hch haw hcr (fun x hx => Or.inl (hst x hx)) ?_ ?_ ?_ ?_ ?_
  · intro x hx
    simp [selecting, hs'] at hx
  · intro x pc'' hx
    cases hx
    exact ok_of_none hs'
  · intro x c _ _ _ hx
    simp [hold, selecting, hs] at hx
  · intro c hx
    rw [hd, ← hold]
    exact Or.inl hx
  · intro x hx
    rw [hold]
    exact hw x hx

/-- From one point of a select to another that has registered with no more channels. -/
theorem calm_select {pc pc' : CallPc} (hold : s.pc a = .call t pc)
    (hpc : s'.pc = Function.update s.pc a (.call t pc')) (hch : SameChannels s s')
    (haw : s'.awaited = s.awaited) (hcr : s'.created = s.created)
    (hst : ∀ t, s'.status t = some .blocked → s.status t = some .blocked)
    (hs : (selectList pc).isSome) (hd : draining (.call t pc) = none)
    (hw : waking (.call t pc) = none) (hs' : (selectList pc').isSome)
    (hok : SelectOk s' t pc')
    (hreg : ∀ c, c ∈ s.awaited t → (s'.channel c).isSome → Registered c (.call t pc') →
      Registered c (.call t pc)) : Calm s a (.call t pc') s' := by
  have hnew : selecting (.call t pc') = some t := by rw [selecting, if_pos hs']
  refine calm_of hpc hch haw hcr (fun x hx => Or.inl (hst x hx)) ?_ ?_ ?_ ?_ ?_
  · intro x hx
    rw [hold, selecting, if_pos hs]
    rwa [hnew] at hx
  · intro x pc'' hx
    cases hx
    exact hok
  · intro x c _ hcm hc hx hr
    rw [hold] at hx ⊢
    rw [selecting, if_pos hs] at hx
    obtain rfl := Option.some.inj hx
    exact hreg c hcm hc (hr hnew)
  · intro c hx
    rw [hold, hd] at hx
    cases hx
  · intro x _ hx
    rw [hold, hw] at hx
    cases hx

theorem invariant_abort (h : Invariant s) : Invariant s.abort where
  waiting := h.waiting
  selects := h.selects
  ok b t pc hpc := ⟨(h.ok b t pc hpc).listed, (h.ok b t pc hpc).indexed, (h.ok b t pc hpc).found⟩
  known := h.known
  awaited := h.awaited

/-- Out of a select, all registered or without being blocked. -/
theorem calm_leave {pc : CallPc} (hold : s.pc a = .call t pc)
    (hpc : s'.pc = Function.update s.pc a (.slice t)) (hch : SameChannels s s')
    (haw : s'.awaited = s.awaited) (hcr : s'.created = s.created)
    (hst : ∀ x, s'.status x = some .blocked → s.status x = some .blocked)
    (hs : (selectList pc).isSome) (hd : draining (.call t pc) = none)
    (hw : waking (.call t pc) = none)
    (hreg : s'.status t = some .blocked → ∀ c, Registered c (.call t pc)) :
    Calm s a (.slice t) s' := by
  refine calm_of hpc hch haw hcr (fun x hx => Or.inl (hst x hx)) nofun nofun ?_ ?_ ?_
  · intro x c hx _ _ hsel _
    rw [hold] at hsel ⊢
    rw [selecting, if_pos hs] at hsel
    obtain rfl := Option.some.inj hsel
    exact hreg hx c
  · intro c hx
    rw [hold, hd] at hx
    cases hx
  · intro x _ hx
    rw [hold, hw] at hx
    cases hx

/-- A send or a receive changes the queues of a channel: a reader that leaves is about to be
woken, and a message that comes has a sender that will look at the readers. -/
theorem calm_write {ch : Channel} {f : Channel → Channel} {pc pc' : CallPc}
    (hold : s.pc a = .call t pc) (hpc : s'.pc = Function.update s.pc a (.call t pc'))
    (hch : s.channel.find c = some ch) (hmod : s'.channel = s.channel.modify c f)
    (haw : s'.awaited = s.awaited) (hcr : s'.created = s.created)
    (htask : s'.status = s.status) (hs : selectList pc = none) (hs' : selectList pc' = none)
    (hreaders : ∀ x ∈ ch.reader.contents,
      x ∈ (f ch).reader.contents ∨ waking (.call t pc') = some x)
    (hmessages : ch.mq.contents = [] →
      (f ch).mq.contents = [] ∨ draining (.call t pc') = some c)
    (hdrains : ∀ d, draining (.call t pc) = some d → draining (.call t pc') = some d)
    (hwakes : waking (.call t pc) = none) : Calm s a (.call t pc') s' := by
  obtain ⟨hlive, hother, hr, hm, hr', hm'⟩ := find_modified s.toSchedule s'.toSchedule hmod hch
  refine ⟨hpc, haw, hcr, hlive, fun x hx => ?_, fun x q hx => ?_, fun x hx => Or.inl (htask ▸ hx),
    fun d hd x hx => ?_, fun d hd hmd => ?_, fun x d _ _ _ hx => ?_, fun d hx => Or.inl ?_,
    fun x _ hx => ?_⟩
  · simp [selecting, hs'] at hx
  · cases hx
    exact ok_of_none hs'
  · by_cases hdc : d = c
    · subst hdc
      rw [hr']
      exact hreaders x (hr ▸ hx)
    · rw [(hother d hdc).1]
      exact Or.inl hx
  · by_cases hdc : d = c
    · subst hdc
      rw [hm']
      exact hmessages (hm ▸ hmd)
    · rw [(hother d hdc).2]
      exact Or.inl hmd
  · simp [hold, selecting, hs] at hx
  · rw [hold] at hx
    exact hdrains d hx
  · rw [hold, hwakes] at hx
    cases hx

/-- The task enters the reader queue, in time for every message. -/
theorem regPush_calm {l : List ChannelId} {i : ℕ} {ch : Channel}
    (hold : s.pc a = .call t (.regPush l i c))
    (hpc : s'.pc = Function.update s.pc a (.call t (.regRelease l i c)))
    (hch : s.channel.find c = some ch)
    (hmod : s'.channel = s.channel.modify c fun ch => { ch with reader := ch.reader.push t })
    (haw : s'.awaited = s.awaited) (hcr : s'.created = s.created) (htask : s'.status = s.status)
    (hok : SelectOk s t (.regPush l i c))
    (hearly : s.status t = some .blocked → s.messages c = [] ∨ Draining s c) :
    Calm s a (.call t (.regRelease l i c)) s' := by
  obtain ⟨hlive, hother, hr, hm, hr', hm'⟩ := find_modified s.toSchedule s'.toSchedule hmod hch
  have hdrain : ∀ d, Draining s d → Draining s' d := by
    rintro d ⟨b, hb⟩
    refine ⟨b, ?_⟩
    by_cases hba : b = a
    · subst hba
      rw [hold] at hb
      cases hb
    · rwa [hpc, Function.update_of_ne hba]
  refine ⟨hpc, haw, hcr, hlive, fun x hx => ?_, fun x q hx => ?_, fun x hx => Or.inl (htask ▸ hx),
    fun d hd x hx => Or.inl ?_, fun d hd hmd => Or.inl ?_, fun x d hst _ hd hx hreg => ?_,
    fun d hx => ?_, fun x _ hx => ?_⟩
  · rwa [hold]
  · cases hx
    exact ⟨fun l' hl' => haw ▸ hok.listed l' hl', hok.indexed, nofun⟩
  · by_cases hdc : d = c
    · subst hdc
      rw [hr', push_contents]
      exact List.mem_append_left _ (hr ▸ hx)
    · rwa [(hother d hdc).1]
  · by_cases hdc : d = c
    · subst hdc
      rw [hm']
      exact hm ▸ hmd
    · rwa [(hother d hdc).2]
  · rw [hold] at hx ⊢
    obtain rfl : t = x := Option.some.inj hx
    have hmem : d ∈ l.take (i + 1) := hreg rfl
    rw [List.take_add_one, List.mem_append] at hmem
    rcases hmem with hmem | hmem
    · exact Or.inl hmem
    · have hidx : l[i]? = some c := hok.indexed
      obtain rfl : d = c := by simpa [hidx] using hmem
      refine Or.inr (Or.inl ⟨?_, ?_⟩)
      · rw [hr', push_contents]
        simp
      · rw [hm', ← hm]
        exact (hearly (htask ▸ hst)).imp id (hdrain d)
  · rw [hold] at hx
    cases hx
  · rw [hold] at hx
    cases hx

/-- The tasks that are blocked were blocked before. -/
def NoneBlocks (s : State) (sched : Schedule) : Prop :=
  ∀ t, sched.status t = some .blocked → s.status t = some .blocked

theorem noneBlocks_same : NoneBlocks s s.toSchedule := fun _ h => h

theorem noneBlocks_release (id : TaskId) : NoneBlocks s (releaseTask s.toSchedule id) :=
  fun _ h => status_releaseTask s.toSchedule h

theorem noneBlocks_grab (id : TaskId) : NoneBlocks s (s.grabTask id) :=
  fun t h => status_grabTask s.toSchedule id t ▸ h

theorem noneBlocks_setStatus {id : TaskId} {new : TaskStatus} (hne : new ≠ .blocked) :
    NoneBlocks s (s.setStatus id new) := fun _ h =>
  ((setStatus_cases s.toSchedule h).resolve_right fun hx => hne hx.2.symm).1

variable {sched : Schedule} {pc pc' : CallPc}

/-- A step outside `schedule_select` and the wake-up loop. -/
theorem Invariant.quiet {p₀ : Pc} (h : Invariant s) (hpc : s.pc a = p₀)
    (hch : SameChannels s ((s.put sched).goto a p)) (hst : NoneBlocks s sched)
    (hs : selecting p₀ = none) (hd : draining p₀ = none) (hw : waking p₀ = none)
    (hp : selecting p = none) : Invariant ((s.put sched).goto a p) := by
  subst hpc
  exact (calm_quiet rfl hch rfl rfl hst hs hd hw hp).invariant h

/-- A step of the wake-up loop. -/
theorem Invariant.send (h : Invariant s) (hpc : s.pc a = .call t pc)
    (hch : SameChannels s ((s.put sched).goto a (.call t pc'))) (hst : NoneBlocks s sched)
    (hs : selectList pc = none) (hs' : selectList pc' = none)
    (hd : draining (.call t pc') = draining (.call t pc))
    (hw : ∀ x, sched.status x = some .blocked → waking (.call t pc) = some x →
      waking (.call t pc') = some x) : Invariant ((s.put sched).goto a (.call t pc')) :=
  (calm_send hpc rfl hch rfl rfl hst hs hs' hd hw).invariant h

/-- A step inside `schedule_select`. -/
theorem Invariant.select (h : Invariant s) (hpc : s.pc a = .call t pc)
    (hch : SameChannels s ((s.put sched).goto a (.call t pc'))) (hst : NoneBlocks s sched)
    (hs : (selectList pc).isSome) (hd : draining (.call t pc) = none)
    (hw : waking (.call t pc) = none) (hs' : (selectList pc').isSome)
    (hok : SelectOk ((s.put sched).goto a (.call t pc')) t pc')
    (hreg : ∀ c, c ∈ s.awaited t → (sched.channel c).isSome → Registered c (.call t pc') →
      Registered c (.call t pc)) : Invariant ((s.put sched).goto a (.call t pc')) :=
  (calm_select hpc rfl hch rfl rfl hst hs hd hw hs' hok hreg).invariant h

end LtaskWakeup
