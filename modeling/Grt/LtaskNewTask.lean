import Grt.LtaskInterleaving
import Grt.LtaskReferences

/-! A task that `ltask()` creates is in a ready queue before the `id` of its record is set, and
a slice that ends first hands 0 to `schedule_releasetask` or `schedule_closetask`. The calls
of the scheduler are atomic here, and what is interleaved is the statements between them. -/
namespace LtaskNewTask

open LtaskQueue RefCountedMap LtaskSchedule LtaskReferences TransitionSystem
open LtaskInterleaving (Agent)

/-- Where a thread is in `ltask()` or `run_slice`: `building` has set `new->id` to 0, `opened`
has the result of `schedule_opentask`, and `closed` has called `schedule_closetask`. -/
inductive Pc where
  | idle
  | joined
  | scan
  | slice (t : Ptr)
  | building (t new : Ptr)
  | opened (t new : Ptr) (id : TaskId)
  | closed (t : Ptr)
  deriving DecidableEq

/-- `ids t` is `t->id`, and `handle t` what `schedule_opentask` returned for the record `t`.
`ended` are the records with `t->L` set to `NULL`. -/
structure State extends Schedule where
  pc : Agent → Pc
  ids : Ptr → TaskId
  handle : Ptr → Option TaskId
  made : Ptr → Bool
  ended : Ptr → Bool
  aborted : Bool

/-- `call` is another call of the scheduler by the code that `resume` runs. -/
inductive Event where
  | build (a : Agent) (t new : Ptr)
  | opentask (a : Agent) (t new : Ptr) (id : TaskId)
  | store (a : Agent) (t new : Ptr) (id : TaskId)
  | call (a : Agent) (t : Ptr) (c : Call)
  | grab (w : ℕ)
  | yield (w : ℕ) (t : Ptr)
  | close (w : ℕ) (t : Ptr)
  | release (w : ℕ) (t : Ptr)
  | run
  deriving DecidableEq

namespace State

variable (s : State)

def goto (a : Agent) (pc : Pc) : State := { s with pc := Function.update s.pc a pc }

def put (sched : Schedule) : State := { s with toSchedule := sched }

def abort : State := { s with aborted := true }

end State

/-- A worker calls `schedule_releasetask(s, t->id)` and goes on to its next slice. -/
def releasetask (s : State) (w : ℕ) (t : Ptr) : State :=
  match scheduleReleasetask s.toSchedule (s.ids t) with
  | some sched => (s.put sched).goto (.worker w) .scan
  | none => s.abort

def next (s : State) : Event → State
  | .build a t new =>
    { s.goto a (.building t new) with
      ids := Function.update s.ids new 0
      made := Function.update s.made new true }
  | .opentask a t new id =>
    { (s.put (scheduleOpentask s.toSchedule new id)).goto a (.opened t new id) with
      handle := Function.update s.handle new (some id) }
  | .store a t new id => { s.goto a (.slice t) with ids := Function.update s.ids new id }
  | .call _ _ c =>
    match call s.toSchedule c with
    | some sched => s.put sched
    | none => s.abort
  | .grab w =>
    match scheduleGrabtask s.toSchedule w with
    | some (some (_, ud), sched) =>
      if s.ended ud then s.abort else (s.put sched).goto (.worker w) (.slice ud)
    | some (none, sched) => s.put sched
    | none => s.abort
  | .yield w t => releasetask s w t
  | .close w t =>
    { (s.put (scheduleClosetask s.toSchedule (s.ids t))).goto (.worker w) (.closed t) with
      ended := Function.update s.ended t true }
  | .release w t => releasetask s w t
  | .run =>
    { s with pc := fun a => match a with
        | .main => .joined
        | .worker w => if w < s.threads then .scan else .idle }

/-- The calls left to the code of a task. -/
def inTask : Call → Prop
  | .opentask .. | .closetask _ | .grabtask _ | .releasetask _ => False
  | _ => True

/-- `malloc` returns a record that was not in use, `handlemap_new` a handle that is not live. -/
def Enabled (s : State) (e : Event) : Prop :=
  s.aborted = false ∧
    match e with
    | .build a t new => s.pc a = .slice t ∧ new ≠ 0 ∧ s.made new = false
    | .opentask a t new id => s.pc a = .building t new ∧ id ≠ 0 ∧ (s.task id).isNone
    | .store a t new id => s.pc a = .opened t new id
    | .call a t c => s.pc a = .slice t ∧ inTask c ∧ CallEnabled s.toSchedule c
    | .grab w => s.pc (.worker w) = .scan
    | .yield w t | .close w t => s.pc (.worker w) = .slice t
    | .release w t => s.pc (.worker w) = .closed t
    | .run => s.pc .main = .slice 0

instance (c : Call) : Decidable (inTask c) :=
  match c with
  | .opentask .. | .closetask _ | .grabtask _ | .releasetask _ => isFalse fun h => h
  | .select .. | .newchannel _ | .closechannel _ | .isclosed _ | .recv _ | .send ..
  | .growTasks _ | .growChannels _ => isTrue trivial

instance (s : State) (e : Event) : Decidable (Enabled s e) := by
  cases e <;> simp only [Enabled] <;> infer_instance

/-- The main thread counts as the slice of a record 0 that is in no map. -/
def initial (threads : ℕ) : State where
  toSchedule := scheduleCreate threads
  pc a := if a = .main then .slice 0 else .idle
  ids _ := 0
  handle _ := none
  made _ := false
  ended _ := false
  aborted := false

def newTaskSystem (threads : ℕ) : System State Event where
  start s := 0 < threads ∧ s = initial threads
  enabled := Enabled
  next := next

instance (threads : ℕ) (s : State) (e : Event) :
    Decidable ((newTaskSystem threads).enabled s e) :=
  inferInstanceAs (Decidable (Enabled s e))

/-- Every task in the map is under the handle that its record was opened with. -/
structure Registered (handle : Ptr → Option TaskId) (s : Schedule) : Prop where
  balanced : Balanced s
  current : s.current < s.threads
  record : ∀ id r, s.task.find id = some r → handle r.ud = some id ∧ r.thread < s.threads

variable {threads : ℕ} {handle : Ptr → Option TaskId} {sched sched' : Schedule} {s : State}
  {e : Event} {a : Agent} {p : Pc} {id : TaskId} {t new : Ptr} {w : ℕ}

theorem Registered.borrow (h : Registered handle sched) (hb : Borrow sched sched') :
    Registered handle sched' where
  balanced := hb.balanced h.balanced
  current := by
    rw [hb.current, hb.threads]
    exact h.current
  record i r' hr' := by
    obtain ⟨r, hr, hud, hth⟩ := hb.record i r' hr'
    obtain ⟨hhandle, hlt⟩ := h.record i r hr
    rw [hud, hb.threads]
    exact ⟨hhandle, hth hlt⟩

/-- Taking tasks out of the map. -/
theorem Registered.drop (h : Registered handle sched) {A : RefMap Task}
    (hone : ∀ i n, A.refs i = some n → n = 1)
    (hfind : ∀ i r, A.find i = some r → sched.task.find i = some r) :
    Registered handle { sched with task := A } where
  balanced := ⟨hone, h.balanced.channel⟩
  current := h.current
  record i r hr := h.record i r (hfind i r hr)

theorem Registered.closetask (h : Registered handle sched) (id : TaskId) :
    Registered handle (scheduleClosetask sched id) :=
  h.drop (refs_release_one h.balanced.task id) fun _ _ => find_release _

theorem Registered.channels (h : Registered handle sched) {A : RefMap Channel}
    (hone : ∀ i n, A.refs i = some n → n = 1) :
    Registered handle { sched with channel := A } :=
  ⟨⟨h.balanced.task, hone⟩, h.current, h.record⟩

theorem Registered.opentask (h : Registered handle sched) (hnew : handle new = none) :
    Registered (Function.update handle new (some id)) (scheduleOpentask sched new id) := by
  have hth := h.current
  refine Registered.borrow ?_ borrow_commit
  refine ⟨⟨refs_register_one h.balanced.task _ _, h.balanced.channel⟩, ?_, fun i r hr => ?_⟩
  · change (if sched.current + 1 ≥ sched.threads then 0 else sched.current + 1) < sched.threads
    split <;> omega
  · rcases find_register _ hr with ⟨rfl, rfl⟩ | ⟨-, hold⟩
    · exact ⟨Function.update_self .., hth⟩
    · obtain ⟨hhandle, hlt⟩ := h.record i r hold
      have hne : r.ud ≠ new := fun hx => by
        rw [hx, hnew] at hhandle
        cases hhandle
      exact ⟨by rwa [Function.update_of_ne hne], hlt⟩

theorem Registered.call (h : Registered handle sched) {c : Call} (hin : inTask c)
    (he : CallEnabled sched c) (hcall : call sched c = some sched') :
    Registered handle sched' := by
  cases c with
  | newchannel i =>
    cases hcall
    exact h.channels (refs_register_one h.balanced.channel i _)
  | closechannel i =>
    cases hcall
    exact h.channels (refs_release_one h.balanced.channel i)
  | growChannels i =>
    cases hcall
    exact h.channels (refs_lose_one h.balanced.channel i)
  | growTasks i =>
    cases hcall
    refine h.drop (refs_lose_one h.balanced.task i) fun j r hr => ?_
    by_cases hj : j = i
    · subst hj
      simp [RefMap.find] at hr
    · rwa [RefMap.find, Function.update_of_ne hj] at hr
  | select | isclosed | recv | send =>
    exact h.borrow (call_borrow h.balanced.positive (by trivial) he hcall)
  | _ => exact absurd hin id

/-- The id of a record is unset or the handle it was opened with, and a record that is not
opened yet is with one thread. -/
structure Invariant (s : State) : Prop where
  registered : Registered s.handle s.toSchedule
  stored : ∀ t, s.ids t = 0 ∨ s.handle t = some (s.ids t)
  positive : ∀ t id, s.handle t = some id → id ≠ 0
  fresh : ∀ t, s.made t = false → s.handle t = none
  building : ∀ a t new, s.pc a = .building t new → s.made new = true ∧ s.handle new = none
  unique : ∀ a b t t' new, s.pc a = .building t new → s.pc b = .building t' new → a = b
  opened : ∀ a t new id, s.pc a = .opened t new id → s.handle new = some id
  workers : ∀ w, s.pc (.worker w) ≠ .idle → w < s.threads

theorem initial_invariant (hpos : 0 < threads) : Invariant (initial threads) := by
  have hpc : ∀ a, (initial threads).pc a = .slice 0 ∨ (initial threads).pc a = .idle := by
    intro a
    by_cases ha : a = .main <;> simp [initial, ha]
  refine ⟨⟨create_balanced threads, hpos, fun id r hr => by cases hr⟩, fun t => Or.inl rfl,
    fun t id h => (by cases h), fun t _ => rfl, fun a t new h => ?_, fun a b t t' new h => ?_,
    fun a t new id h => ?_, fun w h => absurd rfl h⟩
  all_goals rcases hpc a with h' | h' <;> rw [h'] at h <;> cases h

/-- Where an agent is after a step of one agent. -/
theorem moved {s' : State} {b : Agent} {q : Pc} (hpc : s'.pc = Function.update s.pc a p)
    (hq : s'.pc b = q) : b = a ∧ q = p ∨ b ≠ a ∧ s.pc b = q := by
  rw [hpc] at hq
  by_cases hba : b = a
  · subst hba
    exact Or.inl ⟨rfl, hq.symm.trans (Function.update_self ..)⟩
  · exact Or.inr ⟨hba, (Function.update_of_ne hba ..).symm.trans hq⟩

theorem moved_other {s' : State} {b : Agent} {q : Pc} (hpc : s'.pc = Function.update s.pc a p)
    (hne : q ≠ p) (hq : s'.pc b = q) : s.pc b = q ∧ b ≠ a := by
  rcases moved hpc hq with ⟨-, hp⟩ | ⟨hba, hs⟩
  · exact absurd hp hne
  · exact ⟨hs, hba⟩

theorem moved_live {s' : State} {b : Agent} (hpc : s'.pc = Function.update s.pc a p)
    (hlive : s.pc a ≠ .idle) (hb : s'.pc b ≠ .idle) : s.pc b ≠ .idle := by
  by_cases hba : b = a
  · exact hba ▸ hlive
  · rwa [hpc, Function.update_of_ne hba] at hb

/-- An agent that goes on outside `ltask()`. -/
theorem Invariant.goto (h : Invariant s) (hreg : Registered s.handle sched)
    (hth : sched.threads = s.threads) (hlive : s.pc a ≠ .idle)
    (hb : ∀ t new, p ≠ .building t new) (ho : ∀ t new id, p ≠ .opened t new id) :
    Invariant ((s.put sched).goto a p) := by
  refine ⟨hreg, h.stored, h.positive, h.fresh, fun b t new hpc => ?_,
    fun b b' t t' new hpc hpc' => ?_, fun b t new id hpc => ?_, fun w hw => ?_⟩
  · exact h.building b t new (moved_other rfl (Ne.symm (hb t new)) hpc).1
  · exact h.unique b b' t t' new (moved_other rfl (Ne.symm (hb t new)) hpc).1
      (moved_other rfl (Ne.symm (hb t' new)) hpc').1
  · exact h.opened b t new id (moved_other rfl (Ne.symm (ho t new id)) hpc).1
  · exact (h.workers w (moved_live rfl hlive hw)).trans_eq hth.symm

theorem Invariant.put (h : Invariant s) (hreg : Registered s.handle sched)
    (hth : sched.threads = s.threads) : Invariant (s.put sched) :=
  ⟨hreg, h.stored, h.positive, h.fresh, h.building, h.unique, h.opened, fun w hw =>
    (h.workers w hw).trans_eq hth.symm⟩

theorem Invariant.abort (h : Invariant s) : Invariant s.abort :=
  ⟨h.registered, h.stored, h.positive, h.fresh, h.building, h.unique, h.opened, h.workers⟩

theorem releasetask_invariant (h : Invariant s) (hlive : s.pc (.worker w) ≠ .idle) :
    Invariant (releasetask s w t) := by
  unfold releasetask
  split
  · rename_i sched hrel
    have hb := releasetask_borrow h.registered.balanced.positive hrel
    exact h.goto (h.registered.borrow hb) hb.threads hlive (fun _ _ hp => by cases hp)
      fun _ _ _ hp => by cases hp
  · exact h.abort

theorem build_invariant (h : Invariant s) (hpc : s.pc a = .slice t) (hmade : s.made new = false) :
    Invariant (next s (.build a t new)) := by
  have hnone := h.fresh new hmade
  have hbuild : ∀ b t' new', (next s (.build a t new)).pc b = .building t' new' →
      b = a ∧ new' = new ∨ s.pc b = .building t' new' ∧ new' ≠ new := by
    intro b t' new' hb
    rcases moved rfl hb with ⟨rfl, hp⟩ | ⟨-, hs⟩
    · exact Or.inl ⟨rfl, (Pc.building.inj hp).2⟩
    · refine Or.inr ⟨hs, fun hne => ?_⟩
      have := (h.building b t' new' hs).1
      rw [hne, hmade] at this
      cases this
  refine ⟨h.registered, fun x => ?_, h.positive, fun x hx => ?_, fun b t' new' hb => ?_,
    fun b b' t' t'' new' hb hb' => ?_, fun b t' new' id hb => ?_, fun w hw => ?_⟩
  · by_cases hx : x = new
    · subst hx
      exact Or.inl (Function.update_self ..)
    · simpa [next, State.goto, hx] using h.stored x
  · by_cases hxn : x = new
    · subst hxn
      exact hnone
    · exact h.fresh x (by simpa [next, State.goto, hxn] using hx)
  · rcases hbuild b t' new' hb with ⟨-, rfl⟩ | ⟨hs, hne⟩
    · exact ⟨Function.update_self .., hnone⟩
    · obtain ⟨hm, hh⟩ := h.building b t' new' hs
      exact ⟨by simpa [next, State.goto, hne] using hm, hh⟩
  · rcases hbuild b t' new' hb with ⟨rfl, rfl⟩ | ⟨hs, hne⟩
    · rcases hbuild b' t'' new' hb' with ⟨rfl, -⟩ | ⟨-, hne⟩
      · rfl
      · exact absurd rfl hne
    · rcases hbuild b' t'' new' hb' with ⟨-, rfl⟩ | ⟨hs', -⟩
      · exact absurd rfl hne
      · exact h.unique b b' t' t'' new' hs hs'
  · exact h.opened b t' new' id (moved_other rfl (fun hx => by cases hx) hb).1
  · refine h.workers w (moved_live rfl (fun hidle => ?_) hw)
    rw [hpc] at hidle
    cases hidle

theorem opentask_invariant (h : Invariant s) (hpc : s.pc a = .building t new) (hid : id ≠ 0) :
    Invariant (next s (.opentask a t new id)) := by
  obtain ⟨hmade, hnone⟩ := h.building a t new hpc
  have hself : (next s (.opentask a t new id)).handle new = some id := Function.update_self ..
  have hother : ∀ x, x ≠ new → (next s (.opentask a t new id)).handle x = s.handle x :=
    fun x hx => Function.update_of_ne hx ..
  -- a record that has a handle is not the new one
  have hkept : ∀ x i, s.handle x = some i → (next s (.opentask a t new id)).handle x = some i := by
    intro x i hx
    have hne : x ≠ new := fun he => by
      rw [he, hnone] at hx
      cases hx
    exact (hother x hne).trans hx
  refine ⟨h.registered.opentask hnone, fun x => (h.stored x).imp (fun h0 => h0) (hkept x _),
    fun x i hx => ?_, fun x hx => ?_, fun b t' new' hb => ?_, fun b b' t' t'' new' hb hb' => ?_,
    fun b t' new' i hb => ?_, fun w hw => ?_⟩
  · by_cases hxn : x = new
    · subst hxn
      rw [hself] at hx
      exact Option.some.inj hx ▸ hid
    · rw [hother x hxn] at hx
      exact h.positive x i hx
  · have hx : s.made x = false := hx
    have hne : x ≠ new := fun he => by
      rw [he, hmade] at hx
      cases hx
    exact (hother x hne).trans (h.fresh x hx)
  · obtain ⟨hs, hba⟩ := moved_other rfl (fun hx => by cases hx) hb
    obtain ⟨hm, hh⟩ := h.building b t' new' hs
    have hne : new' ≠ new := fun he => hba (h.unique b a t' t new (he ▸ hs) hpc)
    exact ⟨hm, (hother new' hne).trans hh⟩
  · exact h.unique b b' t' t'' new' (moved_other rfl (fun hx => by cases hx) hb).1
      (moved_other rfl (fun hx => by cases hx) hb').1
  · rcases moved rfl hb with ⟨-, hp⟩ | ⟨-, hs⟩
    · cases hp
      exact hself
    · exact hkept new' i (h.opened b t' new' i hs)
  · have hth : (scheduleOpentask s.toSchedule new id).threads = s.threads := borrow_commit.threads
    refine (h.workers w (moved_live rfl (fun hidle => ?_) hw)).trans_eq hth.symm
    rw [hpc] at hidle
    cases hidle

theorem store_invariant (h : Invariant s) (hpc : s.pc a = .opened t new id) :
    Invariant (next s (.store a t new id)) := by
  have hgoto : Invariant (s.goto a (.slice t)) :=
    h.goto h.registered rfl (fun hidle => by rw [hpc] at hidle; cases hidle)
      (fun _ _ hp => by cases hp) fun _ _ _ hp => by cases hp
  refine ⟨hgoto.registered, fun x => ?_, hgoto.positive, hgoto.fresh, hgoto.building, hgoto.unique,
    hgoto.opened, hgoto.workers⟩
  by_cases hx : x = new
  · subst hx
    refine Or.inr ?_
    simp [next, State.goto, h.opened a t x id hpc]
  · simpa [next, State.goto, hx] using h.stored x

theorem grab_invariant (h : Invariant s) (hpc : s.pc (.worker w) = .scan) :
    Invariant (next s (.grab w)) := by
  have hlive : s.pc (.worker w) ≠ .idle := fun hidle => by
    rw [hpc] at hidle
    cases hidle
  simp only [next]
  split
  · rename_i i ud sched hgrab
    have hb := grabtask_borrow h.registered.balanced.positive (h.workers w hlive) hgrab
    split
    · exact h.abort
    · exact h.goto (h.registered.borrow hb) hb.threads hlive (fun _ _ hp => by cases hp)
        fun _ _ _ hp => by cases hp
  · rename_i sched hgrab
    have hb := grabtask_borrow h.registered.balanced.positive (h.workers w hlive) hgrab
    exact h.put (h.registered.borrow hb) hb.threads
  · exact h.abort

theorem run_invariant (h : Invariant s) : Invariant (next s .run) := by
  have hpc : ∀ a, (next s .run).pc a = .joined ∨ (next s .run).pc a = .idle ∨
      (next s .run).pc a = .scan := by
    rintro (_ | w)
    · exact Or.inl rfl
    · by_cases hw : w < s.threads <;> simp [next, hw]
  refine ⟨h.registered, h.stored, h.positive, h.fresh, fun a t new hp => ?_,
    fun a b t t' new hp _ => ?_, fun a t new id hp => ?_, fun w hw => ?_⟩
  · rcases hpc a with h' | h' | h' <;> rw [h'] at hp <;> cases hp
  · rcases hpc a with h' | h' | h' <;> rw [h'] at hp <;> cases hp
  · rcases hpc a with h' | h' | h' <;> rw [h'] at hp <;> cases hp
  · by_contra hge
    exact hw (if_neg hge)

theorem releasetask_threads (h : Invariant s) : (releasetask s w t).threads = s.threads := by
  unfold releasetask
  split
  · rename_i hrel
    exact (releasetask_borrow h.registered.balanced.positive hrel).threads
  · rfl

theorem next_threads (h : Invariant s) (he : Enabled s e) : (next s e).threads = s.threads := by
  obtain ⟨-, he⟩ := he
  cases e with
  | build | store | close | run => rfl
  | opentask => exact borrow_commit.threads
  | yield | release => exact releasetask_threads h
  | call a t c =>
    simp only [next]
    split
    · exact call_threads h.registered.balanced he.2.2 (by assumption)
    · rfl
  | grab w =>
    have hlive : s.pc (.worker w) ≠ .idle := fun hidle => by
      rw [show s.pc (.worker w) = .scan from he] at hidle
      cases hidle
    have hw := h.workers w hlive
    simp only [next]
    split
    · split
      · rfl
      · exact (grabtask_borrow h.registered.balanced.positive hw (by assumption)).threads
    · exact (grabtask_borrow h.registered.balanced.positive hw (by assumption)).threads
    · rfl

theorem step_preserves_invariant (h : Invariant s) (he : Enabled s e) : Invariant (next s e) := by
  obtain ⟨-, he⟩ := he
  cases e with
  | build a t new => exact build_invariant h he.1 he.2.2
  | opentask a t new id => exact opentask_invariant h he.1 he.2.1
  | store a t new id => exact store_invariant h he
  | call a t c =>
    obtain ⟨-, hin, hcall⟩ := he
    simp only [next]
    split
    · rename_i sched hs
      exact h.put (h.registered.call hin hcall hs)
        (call_threads h.registered.balanced hcall hs)
    · exact h.abort
  | grab w => exact grab_invariant h he
  | yield w t =>
    exact releasetask_invariant h fun hidle => by
      rw [show s.pc (.worker w) = .slice t from he] at hidle
      cases hidle
  | release w t =>
    exact releasetask_invariant h fun hidle => by
      rw [show s.pc (.worker w) = .closed t from he] at hidle
      cases hidle
  | close w t =>
    have hgoto : Invariant ((s.put (scheduleClosetask s.toSchedule (s.ids t))).goto (.worker w)
        (.closed t)) :=
      h.goto (h.registered.closetask _) rfl
        (fun hidle => by
          rw [show s.pc (.worker w) = .slice t from he] at hidle
          cases hidle)
        (fun _ _ hp => by cases hp) fun _ _ _ hp => by cases hp
    exact ⟨hgoto.registered, hgoto.stored, hgoto.positive, hgoto.fresh, hgoto.building,
      hgoto.unique, hgoto.opened, hgoto.workers⟩
  | run => exact run_invariant h

theorem reachable_invariant (h : Reachable (newTaskSystem threads) s) :
    Invariant s ∧ s.threads = threads := by
  apply h.invariant
  · rintro s ⟨hpos, rfl⟩
    exact ⟨initial_invariant hpos, rfl⟩
  · intro s e _ ih he
    exact ⟨step_preserves_invariant ih.1 he, (next_threads ih.1 he).trans ih.2⟩

/-- Handle 0 is in no map. -/
theorem Invariant.zero (h : Invariant s) : s.task 0 = none := by
  cases h0 : s.task 0 with
  | none => rfl
  | some r =>
    have hfind : s.task.find 0 = some r.1 := by simp [RefMap.find, h0]
    exact absurd rfl (h.positive _ 0 (h.registered.record 0 r.1 hfind).1)

theorem Invariant.ids_eq (h : Invariant s) (hid : s.handle t = some id) (hset : s.ids t ≠ 0) :
    s.ids t = id := by
  have := (h.stored t).resolve_left hset
  rw [hid] at this
  exact (Option.some.inj this).symm

/-- A slice that ends before the store hands over a handle that nothing has. -/
theorem yield_unset (h : Invariant s) (hunset : s.ids t = 0) :
    (next s (.yield w t)).toSchedule = s.toSchedule := by
  have hnone : s.task.find 0 = none := by simp [RefMap.find, h.zero]
  simp [next, releasetask, hunset, scheduleReleasetask, hnone, State.goto, State.put]

theorem close_unset (h : Invariant s) (hunset : s.ids t = 0) :
    (next s (.close w t)).task = s.task := by
  have hsame : s.task.release 0 = s.task := by
    rw [RefMap.release, h.zero]
    exact Function.update_eq_self_iff.mpr h.zero.symm
  simp [next, hunset, scheduleClosetask, releaseTask, State.goto, State.put, hsame]

theorem yield_ready (h : Invariant s) (hid : s.ids t = id) (hrun : s.status id = some .running) :
    (next s (.yield w t)).status id = some .ready ∧
      ∃ i < s.threads, id ∈ ((next s (.yield w t)).q i).contents := by
  obtain ⟨r, hr, hst⟩ := status_find hrun
  have hrel : scheduleReleasetask s.toSchedule id =
      some ((s.setStatus id .ready).pushReady r.thread id) := by
    rw [scheduleReleasetask_eq h.registered.balanced.positive hrun (fun hx => by cases hx),
      commitTask_found hr, if_pos hst]
  have hnext : (next s (.yield w t)).toSchedule =
      (s.setStatus id .ready).pushReady r.thread id := by
    simp [next, releasetask, hid, hrel, State.goto, State.put]
  rw [hnext]
  refine ⟨?_, r.thread, (h.registered.record id r hr).2, by simp [Schedule.pushReady]⟩
  change (s.setStatus id .ready).status id = some .ready
  rw [status_setStatus, hrun]
  rfl

theorem close_removes (h : Invariant s) (hid : s.ids t = id) :
    (next s (.close w t)).task id = none := by
  change (scheduleClosetask s.toSchedule (s.ids t)).task id = none
  rw [hid]
  cases hrefs : s.task.refs id with
  | none =>
    have hnone : s.task id = none := Option.map_eq_none_iff.mp hrefs
    simp [scheduleClosetask, releaseTask, hnone]
  | some n =>
    obtain rfl := h.registered.balanced.task id n hrefs
    exact (released_last _ hrefs).2.2

/-- The release of a task that a growth of the map has lost leaves it lost. -/
theorem yield_absent (h : Invariant s) (hid : s.handle t = some id) (habs : s.task id = none) :
    (next s (.yield w t)).toSchedule = s.toSchedule := by
  by_cases hset : s.ids t = 0
  · exact yield_unset h hset
  · have hnone : s.task.find id = none := by simp [RefMap.find, habs]
    simp [next, releasetask, h.ids_eq hid hset, scheduleReleasetask, hnone, State.goto, State.put]

/-- A created task that yields while it is running is ready and queued when its worker has
released it exactly when its `id` has been set and its handle is still in the task map. One that
ends is then out of the task map exactly when its `id` has been set or it was out before. -/
theorem slice_end_keeps_task (h : Reachable (newTaskSystem threads) s) :
    ∀ w t id, s.pc (.worker w) = .slice t → s.handle t = some id →
      (s.status id = some .running ∨ s.task id = none →
        ((next s (.yield w t)).status id = some .ready ∧
          (∃ i < threads, id ∈ ((next s (.yield w t)).q i).contents) ↔
            s.ids t ≠ 0 ∧ (s.task id).isSome)) ∧
      ((next s (.close w t)).task id = none ↔ s.ids t ≠ 0 ∨ s.task id = none) := by
  obtain ⟨hinv, hth⟩ := reachable_invariant h
  intro w t id _ hid
  refine ⟨fun hlast => ⟨fun hkept => ?_, fun ⟨hset, hlive⟩ => ?_⟩, fun hgone => ?_, fun hend => ?_⟩
  · have hready := hkept.1
    have hlive : s.task id ≠ none := fun habs => by
      rw [yield_absent hinv hid habs, Schedule.status, habs] at hready
      cases hready
    refine ⟨fun hunset => ?_, Option.isSome_iff_ne_none.mpr hlive⟩
    rw [yield_unset hinv hunset, hlast.resolve_right hlive] at hready
    cases hready
  · have hrun := hlast.resolve_right (Option.isSome_iff_ne_none.mp hlive)
    exact hth ▸ yield_ready hinv (hinv.ids_eq hid hset) hrun
  · by_cases hset : s.ids t = 0
    · exact Or.inr (by rwa [close_unset hinv hset] at hgone)
    · exact Or.inl hset
  · by_cases hset : s.ids t = 0
    · rw [close_unset hinv hset]
      exact hend.resolve_left fun hne => hne hset
    · exact close_removes hinv (hinv.ids_eq hid hset)

/-- The main thread opens task 1 and worker 0 runs it. -/
def openedTrace : List Event :=
  [.build .main 0 101, .opentask .main 0 101 1, .store .main 0 101 1, .run, .grab 0]

def openedRun : State := runTrace (newTaskSystem 2) (initial 2) openedTrace

theorem slice_end_keeps_task_openedRun :
    (next openedRun (.yield 0 101)).status 1 = some .ready ∧
      (next openedRun (.close 0 101)).task 1 = none :=
  have hreach : Reachable (newTaskSystem 2) openedRun :=
    .run (.start ⟨by decide, rfl⟩) (by decide +kernel)
  have h := slice_end_keeps_task hreach 0 101 1 (by decide +kernel) (by decide +kernel)
  have hset : openedRun.ids 101 ≠ 0 := by decide +kernel
  ⟨((h.1 (Or.inl (by decide +kernel))).mpr ⟨hset, by decide +kernel⟩).1, h.2.mpr (Or.inl hset)⟩

/-- Task 1 creates task 2, and worker 1 grabs it before the store. -/
def unsetRun : State :=
  runTrace (newTaskSystem 2) (initial 2)
    (openedTrace ++ [.build (.worker 0) 101 102, .opentask (.worker 0) 101 102 2, .grab 1])

/-- The new task stays running when its slice yields, and in the map when it ends. -/
theorem early_slice_end_loses_task :
    Reachable (newTaskSystem 2) unsetRun ∧ Enabled unsetRun (.yield 1 102) ∧
      unsetRun.handle 102 = some 2 ∧ unsetRun.status 2 = some .running ∧
      (next unsetRun (.yield 1 102)).status 2 = some .running ∧
      (∀ i < 2, 2 ∉ ((next unsetRun (.yield 1 102)).q i).contents) ∧
      ((next unsetRun (.close 1 102)).task 2).isSome :=
  ⟨.run (.start ⟨by decide, rfl⟩) (by decide +kernel), by decide +kernel, by decide +kernel,
    by decide +kernel, by decide +kernel, by decide +kernel, by decide +kernel⟩

end LtaskNewTask
