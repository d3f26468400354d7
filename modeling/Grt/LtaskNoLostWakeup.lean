import Grt.LtaskWakeup

/-! Every step that is in time keeps the wake-ups, so a run of such steps loses none: when no
send and no select is in progress, a blocked task waits for empty channels only. -/
namespace LtaskNoLostWakeup

open LtaskQueue RefCountedMap LtaskSchedule LtaskInterleaving LtaskWakeup TransitionSystem

variable {threads : ℕ} {s : State} {a : Agent} {e : Event} {t : TaskId} {c : ChannelId}

theorem status_live {id : TaskId} {st : TaskStatus} (h : s.status id = some st) :
    (s.task id).isSome := by
  rw [← status_isSome, h]
  rfl

theorem blocked_of_found {id : TaskId} {r : Task} (hr : s.task.find id = some r)
    (hst : s.status id = some .blocked) : r.status = .blocked :=
  Option.some.inj ((find_status s.toSchedule hr).symm.trans hst)

theorem sendStep_invariant (h : Invariant s) {pc : CallPc} (hpc : s.pc a = .call t pc)
    (hsend : sending (.call t pc) = true) : Invariant (callStep s a t pc) := by
  cases pc with
  | sendGrab c =>
    simp only [callStep]
    split
    · exact h.quiet hpc (same_grab rfl) noneBlocks_same rfl rfl rfl rfl
    · exact h.quiet hpc (same_of_eq rfl) noneBlocks_same rfl rfl rfl rfl
  | sendPush c msg =>
    refine withChannel_cases (invariant_abort h) fun ch hch => ?_
    refine Calm.invariant (a := a) (p := .call t (.sendPop c)) h ?_
    exact calm_write (f := fun ch => { ch with mq := ch.mq.push msg }) hpc rfl hch rfl rfl rfl rfl
      rfl rfl (fun x hx => Or.inl hx) (fun _ => Or.inr rfl) (fun _ hd => by cases hd) rfl
  | sendPop c =>
    refine withChannel_cases (invariant_abort h) fun ch hch => ?_
    split
    · rename_i id reader hpop
      refine Calm.invariant (a := a) (p := .call t (.wakeGrab c id)) h ?_
      refine calm_write (f := fun ch => { ch with reader := reader }) hpc rfl hch rfl rfl rfl rfl
        rfl rfl (fun x hx => ?_) Or.inl (fun _ hd => hd) rfl
      rw [pop_some hpop] at hx
      exact (List.mem_cons.mp hx).symm.imp (fun hx => hx) fun hx => by rw [hx]; rfl
    · rename_i hpop
      refine Calm.invariant (a := a) (p := .call t (.sendRelease c)) h ?_
      refine calm_of rfl (same_of_eq rfl) rfl rfl (fun x hx => Or.inl hx) ?_ ?_ ?_ ?_ ?_
      · intro x hx
        cases hx
      · intro x pc hx
        cases hx
        exact ok_of_none rfl
      · intro x d _ _ _ hx
        rw [hpc] at hx
        cases hx
      · intro d hx
        rw [hpc] at hx
        obtain rfl : c = d := Option.some.inj hx
        exact Or.inr ((channel_found s.toSchedule hch).2.1.trans (pop_none hpop))
      · intro x _ hx
        rw [hpc] at hx
        cases hx
  | wakeGrab c id =>
    simp only [callStep]
    split
    · exact h.send hpc (same_of_eq rfl) (noneBlocks_grab id) rfl rfl rfl fun x _ hx => hx
    · rename_i hgone
      refine h.send hpc (same_of_eq rfl) noneBlocks_same rfl rfl rfl fun x hst hx => ?_
      obtain rfl := Option.some.inj hx
      exact absurd (status_live hst) hgone
  | wakeRead c id =>
    refine withTask_cases (invariant_abort h) fun r hr => ?_
    split
    · exact h.send hpc (same_of_eq rfl) noneBlocks_same rfl rfl rfl fun x _ hx => hx
    · rename_i hne
      refine h.send hpc (same_of_eq rfl) noneBlocks_same rfl rfl rfl fun x hst hx => ?_
      obtain rfl := Option.some.inj hx
      exact absurd (blocked_of_found hr hst) hne
  | wakeCas c id =>
    refine withTask_cases (invariant_abort h) fun r hr => ?_
    split
    · refine h.send hpc (same_of_eq rfl) (noneBlocks_setStatus (by decide)) rfl rfl rfl
        fun x hst hx => ?_
      obtain rfl := Option.some.inj hx
      rcases setStatus_cases s.toSchedule hst with ⟨-, hne⟩ | ⟨-, hst⟩
      · exact absurd rfl hne
      · cases hst
    · rename_i hne
      refine h.send hpc (same_of_eq rfl) noneBlocks_same rfl rfl rfl fun x hst hx => ?_
      obtain rfl := Option.some.inj hx
      exact absurd (blocked_of_found hr hst) hne
  | wakePush c id =>
    refine withTask_cases (invariant_abort h) fun r hr => ?_
    exact h.send hpc (same_of_eq rfl) noneBlocks_same rfl rfl rfl fun _ _ hx => hx
  | wakeRelease c id =>
    exact h.send hpc (same_of_eq rfl) (noneBlocks_release id) rfl rfl rfl fun _ _ hx => hx
  | sendRelease c => exact h.quiet hpc (same_release rfl) noneBlocks_same rfl rfl rfl rfl
  | _ => cases hsend

theorem selectStep_invariant (h : Invariant s) {pc : CallPc} (hpc : s.pc a = .call t pc)
    (hsel : (selectList pc).isSome)
    (hearly : ∀ l i c, pc = .regPush l i c → s.status t = some .blocked →
      s.messages c = [] ∨ Draining s c)
    (hhit : ∀ l i c, pc = .checkEmpty l i c → s.messages c ≠ [] → s.status t ≠ some .blocked) :
    Invariant (callStep s a t pc) := by
  have hok := h.ok a t pc hpc
  cases pc with
  | selectGrab l =>
    simp only [callStep]
    split
    · exact h.select hpc (same_of_eq rfl) (noneBlocks_grab t) rfl rfl rfl rfl
        (.unhit hok.listed trivial rfl) fun _ _ _ hr => hr
    · rename_i hgone
      refine Calm.invariant (a := a) (p := .slice t) h ?_
      exact calm_leave hpc rfl (same_of_eq rfl) rfl rfl noneBlocks_same rfl rfl rfl fun hx =>
        absurd (status_live hx) hgone
  | checkGrab l i =>
    simp only [callStep]
    split
    · exact h.select hpc (same_of_eq rfl) noneBlocks_same rfl rfl rfl rfl
        (.unhit hok.listed trivial rfl) fun _ _ _ hr => hr
    · split
      · exact h.select hpc (same_grab rfl) noneBlocks_same rfl rfl rfl rfl
          (.unhit hok.listed trivial rfl) fun _ _ _ hr => hr
      · exact h.select hpc (same_of_eq rfl) noneBlocks_same rfl rfl rfl rfl
          (.unhit hok.listed trivial rfl) fun _ _ _ hr => hr
  | checkEmpty l i c =>
    refine withChannel_cases (invariant_abort h) fun ch hch => ?_
    split
    · exact h.select hpc (same_of_eq rfl) noneBlocks_same rfl rfl rfl rfl
        (.unhit hok.listed trivial rfl) fun _ _ _ hr => hr
    · rename_i hne
      refine h.select hpc (same_of_eq rfl) noneBlocks_same rfl rfl rfl rfl
        ⟨hok.listed, trivial, fun _ => hhit l i c rfl ?_⟩ fun _ _ _ hr => hr
      rw [(channel_found s.toSchedule hch).2.2]
      exact fun hm => hne ((queueEmpty_iff ch.mq).mpr hm)
  | checkRelease l i c =>
    exact h.select hpc (same_release rfl) noneBlocks_same rfl rfl rfl rfl
      (.unhit hok.listed trivial rfl) fun _ _ _ hr => hr
  | hitRelease l c =>
    exact h.select hpc (same_release rfl) noneBlocks_same rfl rfl rfl rfl
      ⟨hok.listed, trivial, fun _ => hok.found rfl⟩ fun _ _ _ hr => hr
  | hitReturn l =>
    refine Calm.invariant (a := a) (p := .slice t) h ?_
    exact calm_leave hpc rfl (same_of_eq rfl) rfl rfl (noneBlocks_release t) rfl rfl rfl fun hx =>
      absurd (noneBlocks_release t t hx) (hok.found rfl)
  | selectBlock l =>
    refine withTask_cases (invariant_abort h) fun r hr => ?_
    refine Calm.invariant (a := a) (p := .call t (.regGrab l 0)) h ?_
    refine calm_of rfl (same_of_eq rfl) rfl rfl (fun x hx => ?_) ?_ ?_ ?_ ?_ ?_
    · rcases setStatus_cases s.toSchedule hx with ⟨hs, -⟩ | ⟨rfl, -⟩
      · exact Or.inl hs
      · exact Or.inr ⟨rfl, fun c hc => by cases hc⟩
    · intro x hx
      rwa [hpc]
    · intro x pc hx
      cases hx
      exact .unhit hok.listed trivial rfl
    · intro x c _ _ _ hx hreg
      rw [hpc] at hx
      cases hreg hx
    · intro c hx
      rw [hpc] at hx
      cases hx
    · intro x _ hx
      rw [hpc] at hx
      cases hx
  | regGrab l i =>
    simp only [callStep]
    split
    · rename_i hend
      refine h.select hpc (same_of_eq rfl) noneBlocks_same rfl rfl rfl rfl
        (.unhit hok.listed trivial rfl) fun c hc _ _ => ?_
      have hle : l.length ≤ i := List.getElem?_eq_none_iff.mp hend
      change c ∈ l.take i
      rw [List.take_of_length_le hle]
      exact hok.listed l rfl c hc
    · rename_i c hidx
      split
      · exact h.select hpc (same_grab rfl) noneBlocks_same rfl rfl rfl rfl
          (.unhit hok.listed hidx rfl) fun c _ _ hr => hr
      · rename_i hgone
        refine h.select hpc (same_of_eq rfl) noneBlocks_same rfl rfl rfl rfl
          (.unhit hok.listed trivial rfl) fun d hd hlive hr => ?_
        change d ∈ l.take (i + 1) at hr
        rw [List.take_add_one, hidx, List.mem_append] at hr
        rcases hr with hr | hr
        · exact hr
        · obtain rfl : d = c := by simpa using hr
          exact absurd hlive hgone
  | regPush l i c =>
    refine withChannel_cases (invariant_abort h) fun ch hch => ?_
    refine Calm.invariant (a := a) (p := .call t (.regRelease l i c)) h ?_
    exact regPush_calm hpc rfl hch rfl rfl rfl rfl hok (hearly l i c rfl)
  | regRelease l i c =>
    exact h.select hpc (same_release rfl) noneBlocks_same rfl rfl rfl rfl
      (.unhit hok.listed trivial rfl) fun c _ _ hr => hr
  | selectRelease l =>
    refine Calm.invariant (a := a) (p := .slice t) h ?_
    exact calm_leave hpc rfl (same_of_eq rfl) rfl rfl (noneBlocks_release t) rfl rfl rfl
      fun _ _ => trivial
  | _ => cases hsel

theorem callStep_invariant (h : Invariant s) {pc : CallPc} (hpc : s.pc a = .call t pc)
    (hearly : ∀ l i c, pc = .regPush l i c → s.status t = some .blocked →
      s.messages c = [] ∨ Draining s c)
    (hhit : ∀ l i c, pc = .checkEmpty l i c → s.messages c ≠ [] → s.status t ≠ some .blocked) :
    Invariant (callStep s a t pc) := by
  cases pc with
  | sendGrab | sendPush | sendPop | wakeGrab | wakeRead | wakeCas | wakePush | wakeRelease
  | sendRelease => exact sendStep_invariant h hpc rfl
  | selectGrab | checkGrab | checkEmpty | checkRelease | hitRelease | hitReturn | selectBlock
  | regGrab | regPush | regRelease | selectRelease =>
    exact selectStep_invariant h hpc rfl hearly hhit
  | recvGrab c | isclosedGrab c =>
    simp only [callStep]
    split
    · exact h.quiet hpc (same_grab rfl) noneBlocks_same rfl rfl rfl rfl
    · exact h.quiet hpc (same_of_eq rfl) noneBlocks_same rfl rfl rfl rfl
  | recvRelease c | isclosedRelease c =>
    exact h.quiet hpc (same_release rfl) noneBlocks_same rfl rfl rfl rfl
  | recvPop c =>
    refine withChannel_cases (invariant_abort h) fun ch hch => ?_
    split
    · rename_i msg mq hpop
      refine Calm.invariant (a := a) (p := .call t (.recvRelease c)) h ?_
      refine calm_write (f := fun ch => { ch with mq := mq }) hpc rfl hch rfl rfl rfl rfl rfl rfl
        (fun x hx => Or.inl hx) (fun hm => ?_) (fun _ hd => by cases hd) rfl
      rw [pop_some hpop] at hm
      cases hm
    · exact h.quiet hpc (same_of_eq rfl) noneBlocks_same rfl rfl rfl rfl
  | openRead | openWrite => exact h.quiet hpc (same_of_eq rfl) noneBlocks_same rfl rfl rfl rfl
  | openNew => exact h
  | openCas id =>
    refine withTask_cases (invariant_abort h) fun r hr => ?_
    split
    · exact h.quiet hpc (same_of_eq rfl) (noneBlocks_setStatus (by decide)) rfl rfl rfl rfl
    · exact h.quiet hpc (same_of_eq rfl) noneBlocks_same rfl rfl rfl rfl
  | openPush id =>
    refine withTask_cases (invariant_abort h) fun r hr => ?_
    exact h.quiet hpc (same_of_eq rfl) noneBlocks_same rfl rfl rfl rfl

theorem agentStep_invariant (h : Invariant s) {pc : Pc} (hpc : s.pc a = pc)
    (hcall : ∀ t pc', pc = .call t pc' → Invariant (callStep s a t pc')) :
    Invariant (agentStep s a pc) := by
  cases pc with
  | idle | joined => exact h
  | slice t =>
    simp only [agentStep]
    split
    · exact invariant_abort h
    · exact h
  | call t pc => exact hcall t pc rfl
  | scan =>
    simp only [agentStep]
    split <;> exact h.quiet hpc (same_of_eq rfl) noneBlocks_same rfl rfl rfl rfl
  | grab id | relGrab id =>
    simp only [agentStep]
    split
    · exact h.quiet hpc (same_of_eq rfl) (noneBlocks_grab id) rfl rfl rfl rfl
    · exact h.quiet hpc (same_of_eq rfl) noneBlocks_same rfl rfl rfl rfl
  | grabAssert id | relAssert id =>
    refine withTask_cases (invariant_abort h) fun r hr => ?_
    split
    · exact invariant_abort h
    · exact h.quiet hpc (same_of_eq rfl) noneBlocks_same rfl rfl rfl rfl
  | grabRun id =>
    refine withTask_cases (invariant_abort h) fun r hr => ?_
    refine h.quiet hpc (same_of_eq rfl) (fun t ht => ?_) rfl rfl rfl rfl
    rw [status_setRunning] at ht
    exact noneBlocks_setStatus (by decide) t ht
  | relRead t =>
    refine withTask_cases (invariant_abort h) fun r hr => ?_
    refine h.quiet hpc (same_of_eq rfl) noneBlocks_same rfl rfl rfl ?_
    split <;> rfl
  | relCas t =>
    refine withTask_cases (invariant_abort h) fun r hr => ?_
    split
    · exact h.quiet hpc (same_of_eq rfl) (noneBlocks_setStatus (by decide)) rfl rfl rfl rfl
    · exact h.quiet hpc (same_of_eq rfl) noneBlocks_same rfl rfl rfl rfl
  | relPush t =>
    refine withTask_cases (invariant_abort h) fun r hr => ?_
    exact h.quiet hpc (same_of_eq rfl) noneBlocks_same rfl rfl rfl rfl
  | grabRelease id | close id | relRelease id =>
    exact h.quiet hpc (same_of_eq rfl) (noneBlocks_release id) rfl rfl rfl rfl

/-- Channels are created empty, under handles that no task waits for. -/
theorem newchannel_invariant (h : Invariant s) {i : ChannelId} (hfresh : s.created i = false) :
    Invariant (callOp s a t (.newchannel i)) := by
  have hother : ∀ c, c ≠ i → (callOp s a t (.newchannel i)).channel c = s.channel c :=
    fun c hc => register_other _ _ hc
  have hne : ∀ x c, c ∈ s.awaited x → c ≠ i := fun x c hc hci => by
    have := h.awaited x c hc
    rw [hci, hfresh] at this
    cases this
  refine ⟨fun x c hst hcm hlive hset => ?_, h.selects, fun b x pc hpc => ?_, fun c hlive => ?_,
    fun x c hcm => ?_⟩
  · have hci := hne x c hcm
    rw [hother c hci] at hlive
    have hcov := h.waiting x c hst hcm hlive hset
    unfold Covered Schedule.readers Schedule.messages RefMap.find at hcov ⊢
    rwa [hother c hci]
  · have hok := h.ok b x pc hpc
    exact ⟨hok.listed, hok.indexed, hok.found⟩
  · by_cases hci : c = i
    · subst hci
      simp [callOp]
    · rw [hother c hci] at hlive
      simpa [callOp, hci] using h.known c hlive
  · simpa [callOp, hne x c hcm] using h.awaited x c hcm

/-- A select begins: what it waits for is what is open now. -/
theorem select_invariant (h : Invariant s) {l : List ChannelId} (hpc : s.pc a = .slice t)
    (halone : ∀ b, selecting (s.pc b) ≠ some t) : Invariant (callOp s a t (.select l)) := by
  have hself : (callOp s a t (.select l)).pc a = .call t (.selectGrab l) := Function.update_self ..
  have hother : ∀ b, b ≠ a → (callOp s a t (.select l)).pc b = s.pc b := fun b hb =>
    Function.update_of_ne hb ..
  have hawaited : ∀ x, x ≠ t → (callOp s a t (.select l)).awaited x = s.awaited x := fun x hx =>
    Function.update_of_ne hx ..
  have hlist : (callOp s a t (.select l)).awaited t = l.filter fun c => (s.channel c).isSome :=
    Function.update_self ..
  have hmoved : ∀ b x, waking (s.pc b) = some x → b ≠ a := by
    rintro b x hb rfl
    rw [hpc] at hb
    cases hb
  refine ⟨fun x c hst hcm hlive hset => ?_, fun b d x hb hd => ?_, fun b x pc hb => ?_, h.known,
    fun x c hcm => ?_⟩
  · by_cases hxt : x = t
    · subst hxt
      have hreg := hset a
      rw [hself] at hreg
      exact absurd (hreg rfl) id
    · rw [hawaited x hxt] at hcm
      have hsettled : Settled s x c := by
        intro b hb
        have hba : b ≠ a := by
          rintro rfl
          rw [hpc] at hb
          cases hb
        have hreg := hset b
        rw [hother b hba] at hreg
        exact hreg hb
      rcases h.waiting x c hst hcm hlive hsettled with ⟨hr, hm⟩ | ⟨b, hb⟩
      · refine Or.inl ⟨hr, hm.imp id ?_⟩
        rintro ⟨b, hb⟩
        have hba : b ≠ a := by
          rintro rfl
          rw [hpc] at hb
          cases hb
        exact ⟨b, by rwa [hother b hba]⟩
      · exact Or.inr ⟨b, by rwa [hother b (hmoved b x hb)]⟩
  · have hsame : ∀ b, selecting ((callOp s a t (.select l)).pc b) = some x → b ≠ a →
        x ≠ t := by
      rintro b hb hba rfl
      rw [hother b hba] at hb
      exact halone b hb
    have hmine : ∀ b, selecting ((callOp s a t (.select l)).pc b) = some x → b = a → x = t := by
      rintro b hb rfl
      rw [hself] at hb
      exact (Option.some.inj hb).symm
    by_cases hba : b = a <;> by_cases hda : d = a
    · rw [hba, hda]
    · exact absurd (hmine b hb hba) (hsame d hd hda)
    · exact absurd (hmine d hd hda) (hsame b hb hba)
    · rw [hother b hba] at hb
      rw [hother d hda] at hd
      exact h.selects b d x hb hd
  · by_cases hba : b = a
    · subst hba
      rw [hself] at hb
      cases hb
      refine ⟨fun l' hl' d hd => ?_, trivial, nofun⟩
      cases hl'
      rw [hlist] at hd
      exact (List.mem_filter.mp hd).1
    · rw [hother b hba] at hb
      have hok := h.ok b x pc hb
      refine ⟨fun l' hl' => ?_, hok.indexed, hok.found⟩
      have hxt : x ≠ t := by
        rintro rfl
        apply halone b
        rw [hb, selecting, hl']
        rfl
      rw [hawaited x hxt]
      exact hok.listed l' hl'
  · by_cases hxt : x = t
    · subst hxt
      rw [hlist] at hcm
      exact h.known c (List.mem_filter.mp hcm).2
    · rw [hawaited x hxt] at hcm
      exact h.awaited x c hcm

/-- While no send and no select is in progress there is nothing to register and nobody to wake. -/
theorem waiting_quiet (h : Invariant s) (hsel : ∀ b t, selecting (s.pc b) ≠ some t)
    (hdr : ∀ c, ¬ Draining s c) (hwk : ∀ t, ¬ Waking s t) (hst : s.status t = some .blocked)
    (hcm : c ∈ s.awaited t) (hlive : (s.channel c).isSome) :
    t ∈ s.readers c ∧ s.messages c = [] := by
  rcases h.waiting t c hst hcm hlive fun b hb => absurd hb (hsel b t) with ⟨hr, hm⟩ | hw
  · exact ⟨hr, hm.resolve_right (hdr c)⟩
  · exact absurd hw (hwk t)

/-- The main thread starts the workers. -/
theorem run_invariant (h : Invariant s) (hmain : s.pc .main = .slice 0)
    (hidle : ∀ w, s.pc (.worker w) = .idle) : Invariant (next s .run) := by
  have hold : ∀ b, s.pc b = .slice 0 ∨ s.pc b = .idle := by
    rintro (_ | w)
    · exact Or.inl hmain
    · exact Or.inr (hidle w)
  have hnew : ∀ b, (next s .run).pc b = .joined ∨ (next s .run).pc b = .scan 0 ∨
      (next s .run).pc b = .idle := by
    rintro (_ | w)
    · exact Or.inl rfl
    · by_cases hw : w < s.threads
      · exact Or.inr (Or.inl (if_pos hw))
      · exact Or.inr (Or.inr (if_neg hw))
  refine ⟨fun x c hst hcm hlive _ => ?_, fun b d x hb => ?_, fun b x pc hb => ?_, h.known,
    h.awaited⟩
  · have hsel : ∀ b t, selecting (s.pc b) ≠ some t := by
      intro b t hb
      rcases hold b with hp | hp <;> rw [hp] at hb <;> cases hb
    have hdr : ∀ c, ¬ Draining s c := by
      rintro c ⟨b, hb⟩
      rcases hold b with hp | hp <;> rw [hp] at hb <;> cases hb
    have hwk : ∀ t, ¬ Waking s t := by
      rintro t ⟨b, hb⟩
      rcases hold b with hp | hp <;> rw [hp] at hb <;> cases hb
    obtain ⟨hr, hm⟩ := waiting_quiet h hsel hdr hwk hst hcm hlive
    exact Or.inl ⟨hr, Or.inl hm⟩
  · rcases hnew b with hp | hp | hp <;> rw [hp] at hb <;> cases hb
  · rcases hnew b with hp | hp | hp <;> rw [hp] at hb <;> cases hb

theorem step_preserves_invariant (h : Invariant s)
    (hout : ∀ b, b ∉ agents s.threads → s.pc b = .idle)
    (hstart : s.pc .main = .joined ∨ ∀ w, s.pc (.worker w) = .idle)
    (he : Enabled s e) (htimely : Timely s e) : Invariant (next s e) := by
  cases e with
  | step a =>
    refine agentStep_invariant h rfl fun t pc hpc => callStep_invariant h hpc ?_ ?_
    · rintro l i c rfl
      simp only [Timely, hpc] at htimely
      intro hst
      rcases htimely.1 _ rfl hst with hm | ⟨b, -, hb⟩
      · exact Or.inl hm
      · exact Or.inr ⟨b, hb⟩
    · rintro l i c rfl
      simp only [Timely, hpc] at htimely
      exact htimely.2 _ rfl
  | issue a t ud c id =>
    have hpc := he.2.1
    refine Calm.invariant (a := a) (p := .call t (.openCas id)) h ?_
    refine calm_quiet rfl (same_of_eq rfl) rfl rfl (fun x hx => ?_) (by rw [hpc]; rfl)
      (by rw [hpc]; rfl) (by rw [hpc]; rfl) rfl
    change ({ s.toSchedule with task := _ } : Schedule).status x = _ at hx
    rw [status_register] at hx
    split at hx
    · cases hx
    · exact hx
  | call a t op =>
    have hpc := he.2.1
    cases op with
    | send | recv | isclosed | opentask =>
      exact h.quiet hpc (same_of_eq rfl) noneBlocks_same rfl rfl rfl rfl
    | select l =>
      refine select_invariant h hpc fun b hb => ?_
      by_cases hmem : b ∈ agents s.threads
      · exact htimely b hmem hb
      · rw [hout b hmem] at hb
        cases hb
    | newchannel i => exact newchannel_invariant (a := a) (t := t) h htimely
    | closechannel i =>
      refine Calm.invariant (a := a) (p := s.pc a) h ?_
      exact calm_quiet (Function.update_eq_self ..).symm (same_release rfl) rfl rfl noneBlocks_same
        (by rw [hpc]; rfl) (by rw [hpc]; rfl) (by rw [hpc]; rfl) (by rw [hpc]; rfl)
  | yield a t =>
    have hpc := he.2.1
    exact h.quiet hpc (same_of_eq rfl) noneBlocks_same rfl rfl rfl rfl
  | finish a t =>
    have hpc := he.2.1
    refine Calm.invariant (a := a) (p := .close t) h ?_
    exact calm_quiet rfl (same_of_eq rfl) rfl rfl noneBlocks_same (by rw [hpc]; rfl)
      (by rw [hpc]; rfl) (by rw [hpc]; rfl) rfl
  | run =>
    refine run_invariant h he.2 (hstart.resolve_left fun hj => ?_)
    rw [he.2] at hj
    cases hj

theorem initial_invariant : Invariant (initial threads) := by
  have hpc : ∀ b, (initial threads).pc b = .slice 0 ∨ (initial threads).pc b = .idle := by
    intro b
    by_cases hb : b = .main
    · exact Or.inl (if_pos hb)
    · exact Or.inr (if_neg hb)
  refine ⟨nofun, fun b d x hb => ?_, fun b x pc hb => ?_, nofun, nofun⟩
  · rcases hpc b with hp | hp <;> rw [hp] at hb <;> cases hb
  · rcases hpc b with hp | hp <;> rw [hp] at hb <;> cases hb

theorem reachable_invariant (h : Reachable ((ltaskSystem threads).when Timely) s) :
    Invariant s := by
  apply h.invariant
  · rintro s ⟨-, rfl⟩
    exact initial_invariant
  · intro s e hs ih he
    exact step_preserves_invariant ih (fun b => reachable_outside hs.of_when)
      (reachable_started hs.of_when) he.1 he.2

theorem sending_of_draining {p : Pc} (h : (draining p).isSome) : sending p = true := by
  cases p with
  | call t pc => cases pc <;> first | rfl | cases h
  | _ => cases h

theorem draining_of_waking {p : Pc} (h : (waking p).isSome) : (draining p).isSome := by
  cases p with
  | call t pc => cases pc <;> first | rfl | cases h
  | _ => cases h

/-- No wake-up is lost: with no send and no select in progress, the channels that a blocked task
waits for and that are still open have no message. Live tasks and open channels are those in the
handle maps, which lose no handle in this system. -/
theorem no_lost_wakeup (h : Reachable ((ltaskSystem threads).when Timely) s)
    (hquiet : ∀ b ∈ agents threads, selecting (s.pc b) = none ∧ sending (s.pc b) = false) :
    ∀ t c, s.status t = some .blocked → c ∈ s.awaited t → (s.channel c).isSome →
      s.messages c = [] := by
  intro t c hst hcm hlive
  have hall : ∀ b, selecting (s.pc b) = none ∧ sending (s.pc b) = false := by
    intro b
    by_cases hb : b ∈ agents s.threads
    · exact hquiet b ((reachable_threads h.of_when).2 ▸ hb)
    · rw [reachable_outside h.of_when hb]
      exact ⟨rfl, rfl⟩
  have hdr : ∀ b, draining (s.pc b) = none := by
    intro b
    by_contra hb
    have hsend := sending_of_draining (Option.isSome_iff_ne_none.mpr hb)
    rw [(hall b).2] at hsend
    cases hsend
  refine (waiting_quiet (reachable_invariant h) (fun b x hb => ?_) ?_ ?_ hst hcm hlive).2
  · rw [(hall b).1] at hb
    cases hb
  · rintro d ⟨b, hb⟩
    rw [hdr b] at hb
    cases hb
  · rintro x ⟨b, hb⟩
    have hd := draining_of_waking (Option.isSome_iff_exists.mpr ⟨x, hb⟩)
    rw [hdr b] at hd
    cases hd

/-- Task 1 is about to look for messages in channel 1, on worker 0, and task 2 runs on
worker 1. -/
def twoTasks : List Event :=
  [.call .main 0 (.newchannel 1)] ++ mainOpens 101 0 1 ++ mainOpens 102 1 2 ++ [.run] ++
    steps (.worker 0) 5 ++ steps (.worker 1) 5 ++ [.call (.worker 0) 1 (.select [1])]

/-- Task 1 blocks, is woken by a message, takes it, and blocks again. -/
def timelyRun : State :=
  runTrace ((ltaskSystem 2).when Timely) (initial 2) (twoTasks ++ steps (.worker 0) 11 ++
    [.yield (.worker 0) 1] ++ steps (.worker 0) 4 ++
    [.call (.worker 1) 2 (.send 1 9)] ++ steps (.worker 1) 10 ++ steps (.worker 0) 5 ++
    [.call (.worker 0) 1 (.recv 1)] ++ steps (.worker 0) 3 ++
    [.call (.worker 0) 1 (.select [1])] ++ steps (.worker 0) 11)

set_option maxRecDepth 100000 in
theorem no_lost_wakeup_timelyRun :
    timelyRun.status 1 = some .blocked ∧ timelyRun.messages 1 = [] :=
  have hblocked : timelyRun.status 1 = some .blocked := by decide +kernel
  ⟨hblocked, no_lost_wakeup (.run (.start ⟨by decide, rfl⟩) (by decide +kernel))
    (by decide +kernel) 1 1 hblocked (by decide +kernel) (by decide +kernel)⟩

/-- A whole send runs between the check of channel 1 and the registration with it. -/
def lostRun : State :=
  runTrace (ltaskSystem 2) (initial 2) (twoTasks ++ steps (.worker 0) 5 ++
    [.call (.worker 1) 2 (.send 1 9)] ++ steps (.worker 1) 4 ++ steps (.worker 0) 6)

set_option maxRecDepth 100000 in
/-- The task stays blocked with the message waiting. -/
theorem send_before_registration_is_lost :
    Reachable (ltaskSystem 2) lostRun ∧
      (∀ b ∈ agents 2, selecting (lostRun.pc b) = none ∧ sending (lostRun.pc b) = false) ∧
      lostRun.status 1 = some .blocked ∧ 1 ∈ lostRun.awaited 1 ∧ (lostRun.channel 1).isSome ∧
      lostRun.messages 1 = [9] :=
  ⟨.run (.start ⟨by decide, rfl⟩) (by decide +kernel), by decide +kernel, by decide +kernel,
    by decide +kernel, by decide +kernel, by decide +kernel⟩

end LtaskNoLostWakeup
