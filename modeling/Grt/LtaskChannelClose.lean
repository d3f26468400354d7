import Mathlib.Data.Fintype.Basic
import Grt.LtaskHandleMapGrowth
import Grt.LtaskSchedule

/-! Channels that are closed while tasks use them. The channel map leads to records in a heap;
a call grabs a handle, works on the record behind it and releases the handle in the two halves
of `handlemap_release`. `ltask.close` releases a handle that it has not grabbed. The steps of
the calls on the task map, the statuses and the ready queues touch no channel; those of a
wake-up are one step. -/
namespace LtaskChannelClose

open LtaskQueue RefCountedMap LtaskHandleMap LtaskSchedule TransitionSystem

variable {ι : Type*} [DecidableEq ι]

/-- Where a task is between two uses of a channel. -/
inductive Outside where
  | idle
  | sendGrab (c : ChannelId) (msg : Ptr)
  | recvGrab (c : ChannelId)
  | isclosedGrab (c : ChannelId)
  | check (t : TaskId) (channels : List ChannelId) (i : ℕ)
  | block (t : TaskId) (channels : List ChannelId)
  | register (t : TaskId) (channels : List ChannelId) (i : ℕ)
  | closeRef (c : ChannelId)
  deriving DecidableEq

/-- From the grab of a channel to the end of its `release_channel`. -/
inductive Pc where
  | out (k : Outside)
  | sendPush (c : ChannelId) (p : Ptr) (msg : Ptr)
  | sendPop (c : ChannelId) (p : Ptr)
  | wake (c : ChannelId) (p : Ptr) (id : TaskId)
  | recvPop (c : ChannelId) (p : Ptr)
  | checkEmpty (t : TaskId) (channels : List ChannelId) (i : ℕ) (c : ChannelId) (p : Ptr)
  | registerPush (t : TaskId) (channels : List ChannelId) (i : ℕ) (c : ChannelId) (p : Ptr)
  | releaseRef (c : ChannelId) (p : Ptr) (k : Outside)
  | tryDelete (c : ChannelId) (k : Outside)
  | free (p : Ptr) (k : Outside)
  deriving DecidableEq

/-- `owned` says of which channels the creator's reference has not been dropped by a close,
`freed` how often the queues of a record were freed. `aborted` is an access to freed memory. -/
structure State (ι : Type*) where
  map : HandleMap Ptr
  heap : Ptr → Option Channel
  pc : ι → Pc
  spec : RefMap Ptr
  owned : ChannelId → Bool
  freed : Ptr → ℕ
  aborted : Bool

namespace State

variable (s : State ι)

def goto (i : ι) (pc : Pc) : State ι := { s with pc := Function.update s.pc i pc }

def write (p : Ptr) (c : Channel) : State ι :=
  { s with heap := Function.update s.heap p (some c) }

/-- Access to the record a call got from the map. -/
def access (p : Ptr) (k : Channel → State ι) : State ι :=
  match s.heap p with
  | some c => k c
  | none => { s with aborted := true }

def grab (i : ι) (c : ChannelId) (k : Ptr → Pc) (absent : Outside) : State ι :=
  let r := handlemapGrab s.map c
  { s with map := r.2, spec := s.spec.grab c }.goto i (r.1.elim (.out absent) k)

def drop (i : ι) (c : ChannelId) (k : Outside) : State ι :=
  let r := releaseRef s.map c
  { s with map := r.2, spec := s.spec.drop c }.goto i
    (if r.1.isSome then .tryDelete c k else .out k)

end State

def outStep (s : State ι) (i : ι) : Outside → State ι
  | .idle => s
  | .sendGrab c msg => s.grab i c (fun p => .sendPush c p msg) .idle
  | .recvGrab c => s.grab i c (fun p => .recvPop c p) .idle
  | .isclosedGrab c => s.grab i c (fun p => .releaseRef c p .idle) .idle
  | .check t channels n =>
    match channels[n]? with
    | none => s.goto i (.out (.block t channels))
    | some c => s.grab i c (fun p => .checkEmpty t channels n c p) (.check t channels (n + 1))
  | .block t channels => s.goto i (.out (.register t channels 0))
  | .register t channels n =>
    match channels[n]? with
    | none => s.goto i (.out .idle)
    | some c => s.grab i c (fun p => .registerPush t channels n c p) (.register t channels (n + 1))
  | .closeRef c => { s with owned := Function.update s.owned c false }.drop i c .idle

def step (s : State ι) (i : ι) : Pc → State ι
  | .out k => outStep s i k
  | .sendPush c p msg => s.access p fun ch =>
    (s.write p { ch with mq := ch.mq.push msg }).goto i (.sendPop c p)
  | .sendPop c p => s.access p fun ch =>
    match ch.reader.pop with
    | some (id, reader) => (s.write p { ch with reader := reader }).goto i (.wake c p id)
    | none => s.goto i (.releaseRef c p .idle)
  | .wake c p _ => s.goto i (.sendPop c p)
  | .recvPop c p => s.access p fun ch =>
    match ch.mq.pop with
    | some (_, mq) => (s.write p { ch with mq := mq }).goto i (.releaseRef c p .idle)
    | none => s.goto i (.releaseRef c p .idle)
  | .checkEmpty t channels n c p => s.access p fun ch =>
    s.goto i (.releaseRef c p
      (if queueEmpty ch.mq.toCells then .check t channels (n + 1) else .idle))
  | .registerPush t channels n c p => s.access p fun ch =>
    (s.write p { ch with reader := ch.reader.push t }).goto i
      (.releaseRef c p (.register t channels (n + 1)))
  | .releaseRef c _ k => s.drop i c k
  | .tryDelete c k =>
    let r := tryDelete s.map c
    { s with map := r.2, spec := s.spec.delete c }.goto i (r.1.elim (.out k) fun p => .free p k)
  | .free p k =>
    { s with
      heap := Function.update s.heap p none
      freed := Function.update s.freed p (s.freed p + 1)
      aborted := (s.heap p).isNone }.goto i (.out k)

/-- A select whose own task is not in the task map returns at once and is left out. -/
inductive Call where
  | send (c : ChannelId) (msg : Ptr)
  | recv (c : ChannelId)
  | isclosed (c : ChannelId)
  | select (t : TaskId) (channels : List ChannelId)
  | close (c : ChannelId)
  deriving DecidableEq

def Call.start : Call → Outside
  | send c msg => .sendGrab c msg
  | recv c => .recvGrab c
  | isclosed c => .isclosedGrab c
  | select t channels => .check t channels 0
  | close c => .closeRef c

inductive Event (ι : Type*) where
  | call (i : ι) (c : Call)
  | step (i : ι)
  deriving DecidableEq

def next (s : State ι) : Event ι → State ι
  | .call i c => s.goto i (.out c.start)
  | .step i => step s i (s.pc i)

def Enabled (s : State ι) (e : Event ι) : Prop :=
  s.aborted = false ∧
    match e with
    | .call i _ => s.pc i = .out .idle
    | .step _ => True

/-- Some channels are open, each behind a record of its own, and no call is made. -/
structure Start (s : State ι) : Prop where
  placed : Placed s.map s.spec
  idle : ∀ i, s.pc i = .out .idle
  opened : ∀ c p n, s.spec c = some (p, n) → n = 1 ∧ (s.heap p).isSome
  owned : ∀ c, s.owned c = (s.spec c).isSome
  apart : ∀ c d p, s.spec.find c = some p → s.spec.find d = some p → c = d
  freed : ∀ p, s.freed p = 0
  running : s.aborted = false

def channelSystem : System (State ι) (Event ι) where
  start := Start
  enabled := Enabled
  next := next

/-- The handle that the next step grabs. -/
def Outside.grabs : Outside → Option ChannelId
  | .sendGrab c _ | .recvGrab c | .isclosedGrab c => some c
  | .check _ channels n | .register _ channels n => channels[n]?
  | _ => none

/-- No count is about to overflow, and a channel that was closed before is gone by the time a
close drops a reference again. -/
def OutsideFits (s : State ι) : Outside → Prop
  | .closeRef c => s.owned c = true ∨ (handlemapGrab s.map c).1 = none
  | k => ∀ c, k.grabs = some c → Fits ⟨s.map, s.spec⟩ (.grab c)

def ClosesOnce (s : State ι) : Event ι → Prop
  | .call .. => True
  | .step i => ∀ k, s.pc i = .out k → OutsideFits s k

/-- The handle a task has grabbed and the record it got. -/
def Pc.holds : Pc → Option (ChannelId × Ptr)
  | .sendPush c p _ | .sendPop c p | .wake c p _ | .recvPop c p | .checkEmpty _ _ _ c p
  | .registerPush _ _ _ c p | .releaseRef c p _ => some (c, p)
  | .out _ | .tryDelete .. | .free .. => none

def Pc.deletes : Pc → Option ChannelId
  | .tryDelete c _ => some c
  | _ => none

def Pc.frees : Pc → Option Ptr
  | .free p _ => some p
  | _ => none

theorem deletes_of_holds {q : Pc} {r : ChannelId × Ptr} (h : q.holds = some r) :
    q.deletes = none := by
  cases q <;> first | rfl | cases h

theorem frees_of_holds {q : Pc} {r : ChannelId × Ptr} (h : q.holds = some r) :
    q.frees = none := by
  cases q <;> first | rfl | cases h

section Guarded

variable [Fintype ι] {s t : State ι} {i : ι} {c : ChannelId} {p : Ptr} {k : Outside} {q : Pc}

/-- The handle a task has a reference to. -/
def State.heldId (s : State ι) (i : ι) : Option ChannelId := (s.pc i).holds.map Prod.fst

/-- The creator's reference and those of the calls in progress. -/
def State.refs (s : State ι) (c : ChannelId) : ℕ :=
  (if s.owned c then 1 else 0) + holders Finset.univ s.heldId c

/-- A record that is in the map or about to be freed is there, and its queues were not freed. -/
structure Guarded (s : State ι) : Prop where
  placed : Placed s.map s.spec
  counted : Counted s.spec s.refs fun c => ∃ i, (s.pc i).deletes = some c
  held : ∀ i c p, (s.pc i).holds = some (c, p) → s.spec.find c = some p
  apart : ∀ c d p, s.spec.find c = some p → s.spec.find d = some p → c = d
  live : ∀ c p, s.spec.find c = some p → (s.heap p).isSome
  freeing : ∀ i p, (s.pc i).frees = some p → (s.heap p).isSome ∧ ∀ c, s.spec.find c ≠ some p
  once : ∀ i j p, (s.pc i).frees = some p → (s.pc j).frees = some p → i = j
  unfreed : ∀ p, (s.heap p).isSome → s.freed p = 0
  freed_le : ∀ p, s.freed p ≤ 1
  running : s.aborted = false

omit [DecidableEq ι] in
theorem start_guarded (h : Start s) : Guarded s where
  placed := h.placed
  counted := by
    have hidle : ∀ c, holders Finset.univ s.heldId c = 0 := by
      intro c
      rw [holders, Finset.card_eq_zero, Finset.filter_eq_empty_iff]
      intro i _ hi
      rw [State.heldId, h.idle i] at hi
      cases hi
    have hrefs : ∀ c, s.refs c = if (s.spec c).isSome then 1 else 0 := by
      intro c
      rw [State.refs, hidle, h.owned, Nat.add_zero]
    constructor
    · intro c
      rw [hrefs]
      cases hA : s.spec c with
      | none => simp [RefMap.count, hA]
      | some r =>
        have hone := (h.opened c r.1 r.2 hA).1
        simp [RefMap.count, hA, hone]
    · intro c hA h0
      rw [hrefs, if_pos hA] at h0
      cases h0
  held i c p hi := by
    rw [h.idle i] at hi
    cases hi
  apart := h.apart
  live c p hc := by
    obtain ⟨r, hA, rfl⟩ := Option.map_eq_some_iff.mp hc
    exact (h.opened c r.1 r.2 hA).2
  freeing i p hi := by
    rw [h.idle i] at hi
    cases hi
  once i j p hi := by
    rw [h.idle i] at hi
    cases hi
  unfreed p _ := h.freed p
  freed_le p := by
    rw [h.freed p]
    exact Nat.zero_le 1
  running := h.running

omit [DecidableEq ι] in
/-- A step that changes no reference, no duty and no allocation. -/
theorem Guarded.keep (h : Guarded s) (hmap : t.map = s.map) (hspec : t.spec = s.spec)
    (howned : t.owned = s.owned) (hfreed : t.freed = s.freed) (hab : t.aborted = s.aborted)
    (hheap : ∀ p, (t.heap p).isSome = (s.heap p).isSome)
    (hholds : ∀ j, (t.pc j).holds = (s.pc j).holds)
    (hdel : ∀ j, (t.pc j).deletes = (s.pc j).deletes)
    (hfrees : ∀ j, (t.pc j).frees = (s.pc j).frees) : Guarded t where
  placed := by rw [hmap, hspec]; exact h.placed
  counted := by
    rw [hspec]
    apply h.counted.imp
    · intro c
      have hheld : t.heldId = s.heldId := funext fun j => congrArg (Option.map Prod.fst) (hholds j)
      rw [State.refs, State.refs, howned, hheld]
    · rintro c ⟨j, hj⟩
      exact ⟨j, (hdel j).trans hj⟩
  held j c p hj := by
    rw [hspec]
    exact h.held j c p ((hholds j).symm.trans hj)
  apart := by rw [hspec]; exact h.apart
  live c p hc := by
    rw [hheap]
    exact h.live c p (hspec ▸ hc)
  freeing j p hj := by
    rw [hheap, hspec]
    exact h.freeing j p ((hfrees j).symm.trans hj)
  once j l p hj hl := h.once j l p ((hfrees j).symm.trans hj) ((hfrees l).symm.trans hl)
  unfreed p hp := by
    rw [hfreed]
    exact h.unfreed p ((hheap p).symm.trans hp)
  freed_le p := by rw [hfreed]; exact h.freed_le p
  running := hab.trans h.running

omit [Fintype ι] in
@[simp] theorem goto_self (i : ι) (q : Pc) : (s.goto i q).pc i = q := Function.update_self ..

omit [Fintype ι] in
theorem goto_other {j : ι} (h : j ≠ i) (q : Pc) : (s.goto i q).pc j = s.pc j :=
  Function.update_of_ne h ..

/-- A step of a task that goes on with the same duties. -/
theorem Guarded.move (h : Guarded s) {heap : Ptr → Option Channel}
    (hheap : ∀ p, (heap p).isSome = (s.heap p).isSome) (hholds : q.holds = (s.pc i).holds)
    (hdel : q.deletes = (s.pc i).deletes) (hfrees : q.frees = (s.pc i).frees) :
    Guarded ({ s with heap := heap }.goto i q) := by
  have hsame : ∀ {β : Type} (f : Pc → β), f q = f (s.pc i) →
      ∀ j, f (({ s with heap := heap }.goto i q).pc j) = f (s.pc j) := by
    intro β f hf j
    by_cases hj : j = i
    · subst hj
      rw [goto_self, hf]
    · rw [goto_other hj]
  exact h.keep rfl rfl rfl rfl rfl hheap (hsame _ hholds) (hsame _ hdel) (hsame _ hfrees)

/-- A step that changes the map, and the duties of its own task. -/
theorem Guarded.act (h : Guarded s) (hpc : t.pc = s.pc) (hheap : t.heap = s.heap)
    (hfreed : t.freed = s.freed) (hab : t.aborted = s.aborted) (hplaced : Placed t.map t.spec)
    (hcounted : Counted t.spec (t.goto i q).refs fun c => ∃ j, ((t.goto i q).pc j).deletes = some c)
    (hfind : ∀ c p, t.spec.find c = some p → s.spec.find c = some p)
    (hmine : ∀ c p, q.holds = some (c, p) → t.spec.find c = some p)
    (hkept : ∀ j c p, j ≠ i → (s.pc j).holds = some (c, p) → t.spec.find c = some p)
    (hfrees : ∀ p, q.frees = some p → (s.heap p).isSome ∧ (∀ c, t.spec.find c ≠ some p) ∧
      ∀ j, j ≠ i → (s.pc j).frees ≠ some p) : Guarded (t.goto i q) where
  placed := hplaced
  counted := hcounted
  held j c p hj := by
    by_cases hji : j = i
    · subst hji
      rw [goto_self] at hj
      exact hmine c p hj
    · rw [goto_other hji, hpc] at hj
      exact hkept j c p hji hj
  apart c d p hc hd := h.apart c d p (hfind c p hc) (hfind d p hd)
  live c p hc := by
    change (t.heap p).isSome
    rw [hheap]
    exact h.live c p (hfind c p hc)
  freeing j p hj := by
    change (t.heap p).isSome ∧ _
    rw [hheap]
    by_cases hji : j = i
    · subst hji
      rw [goto_self] at hj
      exact ⟨(hfrees p hj).1, (hfrees p hj).2.1⟩
    · rw [goto_other hji, hpc] at hj
      obtain ⟨hlive, hgone⟩ := h.freeing j p hj
      exact ⟨hlive, fun c hc => hgone c (hfind c p hc)⟩
  once j l p hj hl := by
    by_cases hji : j = i
    · by_cases hli : l = i
      · rw [hji, hli]
      · subst hji
        rw [goto_self] at hj
        rw [goto_other hli, hpc] at hl
        exact absurd hl ((hfrees p hj).2.2 l hli)
    · by_cases hli : l = i
      · subst hli
        rw [goto_self] at hl
        rw [goto_other hji, hpc] at hj
        exact absurd hj ((hfrees p hl).2.2 j hji)
      · rw [goto_other hji, hpc] at hj
        rw [goto_other hli, hpc] at hl
        exact h.once j l p hj hl
  unfreed p hp := by
    change t.freed p = 0
    rw [hfreed]
    exact h.unfreed p (hheap ▸ hp)
  freed_le p := by
    change t.freed p ≤ 1
    rw [hfreed]
    exact h.freed_le p
  running := hab.trans h.running

omit [Fintype ι] in
theorem heldId_self (i : ι) (q : Pc) : (s.goto i q).heldId i = q.holds.map Prod.fst := by
  rw [State.heldId, goto_self]

omit [Fintype ι] in
theorem heldId_other (hpc : t.pc = s.pc) (j : ι) (hj : j ≠ i) :
    (t.goto i q).heldId j = s.heldId j := by
  rw [State.heldId, goto_other hj, hpc, State.heldId]

omit [Fintype ι] in
theorem heldId_goto (hpc : t.pc = s.pc) {q' : Pc} (hq : q.holds = q'.holds) :
    (t.goto i q).heldId = (s.goto i q').heldId := by
  funext j
  by_cases hj : j = i
  · subst hj
    rw [heldId_self, heldId_self, hq]
  · rw [heldId_other hpc j hj, heldId_other rfl j hj]

omit [Fintype ι] in
/-- A task that goes on holding what it holds. -/
theorem heldId_same (hpc : t.pc = s.pc) (hq : q.holds = (s.pc i).holds) :
    (t.goto i q).heldId = s.heldId := by
  rw [heldId_goto hpc hq, State.goto, Function.update_eq_self]

theorem refs_goto (hpc : t.pc = s.pc) (howned : t.owned = s.owned) {q' : Pc}
    (hq : q.holds = q'.holds) : (t.goto i q).refs c = (s.goto i q').refs c := by
  rw [State.refs, State.refs, heldId_goto hpc hq]
  change (if t.owned c then 1 else 0) + _ = (if s.owned c then 1 else 0) + _
  rw [howned]

theorem refs_same (hpc : t.pc = s.pc) (howned : t.owned = s.owned)
    (hq : q.holds = (s.pc i).holds) : (t.goto i q).refs c = s.refs c := by
  rw [refs_goto hpc howned hq, State.goto, Function.update_eq_self]

omit [DecidableEq ι] in
theorem held_refs {j : ι} (h : (s.pc j).holds = some (c, p)) : 0 < s.refs c := by
  have hj : s.heldId j = some c := congrArg (Option.map Prod.fst) h
  have hpos : 0 < holders Finset.univ s.heldId c :=
    Finset.card_pos.mpr ⟨j, Finset.mem_filter.mpr ⟨Finset.mem_univ j, hj⟩⟩
  exact Nat.add_pos_right _ hpos

omit [Fintype ι] in
/-- Deleting tasks other than the one that moves. -/
theorem goto_deletes (hpc : t.pc = s.pc) (hi : (s.pc i).deletes ≠ some c)
    (h : ∃ j, (s.pc j).deletes = some c) : ∃ j, ((t.goto i q).pc j).deletes = some c := by
  obtain ⟨j, hj⟩ := h
  have hji : j ≠ i := by
    rintro rfl
    exact hi hj
  exact ⟨j, by rw [goto_other hji, hpc]; exact hj⟩

theorem grab_guarded (h : Guarded s) (hfit : Fits ⟨s.map, s.spec⟩ (.grab c))
    (hout : s.pc i = .out k) {f : Ptr → Pc} {absent : Outside}
    (hf : ∀ p, (f p).holds = some (c, p) ∧ (f p).frees = none) :
    Guarded (s.grab i c f absent) := by
  have hfind := handlemapGrab_find h.placed c
  cases hA : s.spec.find c with
  | none =>
    have hnone : s.spec c = none := Option.map_eq_none_iff.mp hA
    rw [State.grab, handlemapGrab_absent h.placed hnone, grab_absent _ hnone]
    apply h.move (fun _ => rfl) <;> rw [hout] <;> rfl
  | some p =>
    rw [State.grab, hfind, hA]
    obtain ⟨hholds, hfrees⟩ := hf p
    have hfirst : ∀ d, s.heldId i ≠ some d := by
      intro d hd
      rw [State.heldId, hout] at hd
      cases hd
    apply h.act
    · rfl
    · rfl
    · rfl
    · rfl
    · exact grab_placed h.placed hfit
    · apply (h.counted.imp (fun _ => rfl) ?_).grab
      · rw [← isSome_find, hA]
        rfl
      · rw [State.refs, State.refs, holders_grab (Finset.mem_univ i) (hfirst c), Nat.add_assoc]
        · rfl
        · rw [heldId_self, Option.elim_some, hholds]
          rfl
        · exact heldId_other rfl
      · intro d hd
        rw [State.refs, State.refs, holders_other (hfirst d)]
        · rfl
        · rw [heldId_self, Option.elim_some, hholds]
          exact fun he => hd (Option.some.inj he).symm
        · exact heldId_other rfl
      · intro d hd
        apply goto_deletes rfl _ hd
        rw [hout]
        exact fun he => by cases he
    · intro d r hd
      rwa [find_grab] at hd
    · intro d r hr
      rw [Option.elim_some, hholds] at hr
      obtain ⟨rfl, rfl⟩ := Prod.mk.inj (Option.some.inj hr)
      rwa [find_grab]
    · intro j d r _ hj
      rw [find_grab]
      exact h.held j d r hj
    · intro r hr
      rw [Option.elim_some, hfrees] at hr
      cases hr

/-- The release of a reference that is counted, of the task or of the creator. -/
theorem drop_guarded (h : Guarded s) {owned : ChannelId → Bool} {k' : Outside}
    (hpos : 0 < s.refs c) (hdel : (s.pc i).deletes = none)
    (hrefs : s.refs c = ({ s with owned := owned }.goto i (.out k')).refs c + 1)
    (hother : ∀ d, d ≠ c → ({ s with owned := owned }.goto i (.out k')).refs d = s.refs d) :
    Guarded ({ s with owned := owned }.drop i c k') := by
  obtain ⟨hplaced, hret⟩ := releaseRef_placed h.placed (h.counted.pos hpos)
  rw [State.drop]
  simp only [hret]
  have hsame : ∀ d (map : HandleMap Ptr) (spec : RefMap Ptr) (q : Pc), q.holds = none →
      ({ s with map := map, spec := spec, owned := owned }.goto i q).refs d =
        ({ s with owned := owned }.goto i (.out k')).refs d := by
    intro d map spec q hq
    exact refs_goto (s := { s with owned := owned }) rfl rfl hq
  have hnone : ∀ b : Bool, (if b then Pc.tryDelete c k' else .out k').holds = none := by
    intro b
    cases b <;> rfl
  apply h.act
  · rfl
  · rfl
  · rfl
  · rfl
  · exact hplaced
  · apply h.counted.drop
    · rw [hsame _ _ _ _ (hnone _)]
      exact hrefs
    · intro d hd
      rw [hsame _ _ _ _ (hnone _)]
      exact hother d hd
    · -- the count reaches zero, so the task goes on to delete
      intro hone
      obtain ⟨r, hA⟩ := Option.isSome_iff_exists.mp (h.counted.live hpos)
      have hr : r.2 = 1 := by
        have hcount := h.counted.count c
        rw [RefMap.count, hA, hone] at hcount
        exact hcount
      refine ⟨i, ?_⟩
      rw [goto_self, RefMap.released, hA, Option.bind_some, if_pos hr.le]
      rfl
    · intro d hd
      apply goto_deletes rfl _ hd
      rw [hdel]
      exact fun he => by cases he
  · intro d r hd
    rwa [find_drop] at hd
  · intro d r hr
    rw [hnone] at hr
    cases hr
  · intro j d r _ hj
    rw [find_drop]
    exact h.held j d r hj
  · intro r hr
    split at hr <;> cases hr

theorem releaseRef_guarded (h : Guarded s) (hpc : s.pc i = .releaseRef c p k) :
    Guarded (s.drop i c k) := by
  have hheld : s.heldId i = some c := by
    rw [State.heldId, hpc]
    rfl
  have hless := holders_release (g := (s.goto i (.out k)).heldId) (Finset.mem_univ i) hheld
    (by rw [heldId_self]; exact fun he => by cases he) (heldId_other rfl)
  have hrefs : s.refs c = (s.goto i (.out k)).refs c + 1 := by
    rw [State.refs, State.refs, ← hless, Nat.add_assoc]
    rfl
  apply drop_guarded h
  · omega
  · rw [hpc]
    rfl
  · exact hrefs
  · intro d hd
    rw [State.refs, State.refs, holders_other (a := i) (f := s.heldId)]
    · rfl
    · rw [hheld]
      exact fun he => hd (Option.some.inj he).symm
    · rw [heldId_self]
      exact fun he => by cases he
    · exact heldId_other rfl

theorem close_guarded (h : Guarded s) (hpc : s.pc i = .out (.closeRef c))
    (honce : s.owned c = true ∨ (handlemapGrab s.map c).1 = none) :
    Guarded ({ s with owned := Function.update s.owned c false }.drop i c .idle) := by
  have hidle : ∀ owned, ({ s with owned := owned }.goto i (.out .idle)).heldId = s.heldId :=
    fun owned => heldId_same rfl (hpc ▸ rfl)
  by_cases howned : s.owned c = true
  · have hrefs : s.refs c = holders Finset.univ s.heldId c + 1 := by
      rw [State.refs, if_pos howned, Nat.add_comm]
    apply drop_guarded h
    · omega
    · rw [hpc]
      rfl
    · rw [State.refs, State.refs, hidle, if_pos howned]
      change _ = (if Function.update s.owned c false c then 1 else 0) + _ + 1
      rw [Function.update_self, if_neg Bool.false_ne_true, Nat.zero_add, Nat.add_comm]
    · intro d hd
      rw [State.refs, State.refs, hidle]
      change (if Function.update s.owned c false d then 1 else 0) + _ = _
      rw [Function.update_of_ne hd]
  · -- the channel is gone, and the release finds nothing
    have hnone : s.spec c = none := by
      have hgone := honce.resolve_left howned
      rw [handlemapGrab_find h.placed] at hgone
      exact Option.map_eq_none_iff.mp hgone
    have hsame : Function.update s.owned c false = s.owned :=
      Function.update_eq_self_iff.mpr (Bool.eq_false_of_not_eq_true howned).symm
    rw [State.drop, hsame]
    simp only [releaseRef_absent h.placed hnone, drop_absent _ hnone]
    apply h.move (fun _ => rfl) <;> rw [hpc] <;> rfl

theorem tryDelete_guarded (h : Guarded s) (hpc : s.pc i = .tryDelete c k) :
    Guarded (step s i (.tryDelete c k)) := by
  have hfind : ∀ d p, (s.spec.delete c).find d = some p → s.spec.find d = some p := by
    intro d p hd
    exact find_delete_some _ hd
  have hholds : ∀ r : Option Ptr,
      (r.elim (Pc.out k) fun p => .free p k).holds = (s.pc i).holds := by
    intro r
    rw [hpc]
    cases r <;> rfl
  apply h.act
  · rfl
  · rfl
  · rfl
  · rfl
  · exact (tryDelete_placed h.placed c).1
  · apply (h.counted.delete (fun d => ∃ j, (s.pc j).deletes = some d ∧ j ≠ i) ?_).imp
    · exact fun d => refs_same rfl rfl (hholds _)
    · rintro d ⟨j, hj, hji⟩
      exact ⟨j, by rw [goto_other hji]; exact hj⟩
    · rintro d hd ⟨j, hj⟩
      refine ⟨j, hj, ?_⟩
      rintro rfl
      rw [hpc] at hj
      exact hd (Option.some.inj hj).symm
  · exact hfind
  · intro d p hp
    rw [hholds, hpc] at hp
    cases hp
  · -- a channel that is held has a count that is not zero
    intro j d p hj hp
    have hd := h.held j d p hp
    by_cases hdc : d = c
    · subst hdc
      obtain ⟨r, hA, rfl⟩ := Option.map_eq_some_iff.mp hd
      rw [delete_live _ hA (h.counted.pos (held_refs hp) r.1 r.2 hA)]
      exact hd
    · change (s.spec.delete c).find d = some p
      rwa [RefMap.find, delete_other _ hdc]
  · intro p hp
    cases hr : (tryDelete s.map c).1 with
    | none =>
      rw [hr] at hp
      cases hp
    | some u =>
      rw [hr] at hp
      obtain rfl : u = p := Option.some.inj hp
      have hA := tryDelete_some h.placed hr
      have hc : s.spec.find c = some u := by
        rw [RefMap.find, hA]
        rfl
      refine ⟨h.live c u hc, fun d hd => ?_, fun j _ hj => (h.freeing j u hj).2 c hc⟩
      obtain rfl := h.apart d c u (hfind d u hd) hc
      change (s.spec.delete d).find d = some u at hd
      rw [RefMap.find, delete_same, hA] at hd
      cases hd

theorem free_guarded (h : Guarded s) (hpc : s.pc i = .free p k) :
    Guarded (step s i (.free p k)) := by
  have hmine : (s.pc i).frees = some p := by
    rw [hpc]
    rfl
  obtain ⟨hlive, hgone⟩ := h.freeing i p hmine
  have hpcs : ∀ {β : Type} (f : Pc → Option β), f (.out k) = none →
      ∀ j x, f ((step s i (.free p k)).pc j) = some x → j ≠ i ∧ f (s.pc j) = some x := by
    intro β f hf j x hj
    by_cases hji : j = i
    · subst hji
      rw [step, goto_self, hf] at hj
      cases hj
    · rw [step, goto_other hji] at hj
      exact ⟨hji, hj⟩
  have hother : ∀ r, r ≠ p → Function.update s.heap p none r = s.heap r :=
    fun r hr => Function.update_of_ne hr ..
  constructor
  · exact h.placed
  · apply h.counted.imp
    · intro d
      have hq : (Pc.out k).holds = (s.pc i).holds := by
        rw [hpc]
        rfl
      exact refs_same rfl rfl hq
    · intro d hd
      apply goto_deletes rfl _ hd
      rw [hpc]
      exact fun he => by cases he
  · intro j d r hj
    exact h.held j d r (hpcs Pc.holds rfl j _ hj).2
  · exact h.apart
  · intro d r hd
    have hr : r ≠ p := by
      rintro rfl
      exact hgone d hd
    change (Function.update s.heap p none r).isSome
    rw [hother r hr]
    exact h.live d r hd
  · intro j r hj
    obtain ⟨hji, hfrees⟩ := hpcs Pc.frees rfl j r hj
    have hr : r ≠ p := by
      rintro rfl
      exact hji (h.once j i r hfrees hmine)
    obtain ⟨hrlive, hrgone⟩ := h.freeing j r hfrees
    refine ⟨?_, hrgone⟩
    change (Function.update s.heap p none r).isSome
    rwa [hother r hr]
  · intro j l r hj hl
    exact h.once j l r (hpcs Pc.frees rfl j r hj).2 (hpcs Pc.frees rfl l r hl).2
  · intro r hr
    change (Function.update s.heap p none r).isSome at hr
    have hrp : r ≠ p := by
      rintro rfl
      rw [Function.update_self] at hr
      cases hr
    rw [hother r hrp] at hr
    change Function.update s.freed p _ r = 0
    rw [Function.update_of_ne hrp]
    exact h.unfreed r hr
  · intro r
    change Function.update s.freed p _ r ≤ 1
    by_cases hrp : r = p
    · subst hrp
      rw [Function.update_self, h.unfreed r hlive]
    · rw [Function.update_of_ne hrp]
      exact h.freed_le r
  · change (s.heap p).isNone = false
    rw [← Option.not_isSome, hlive]
    rfl

omit [DecidableEq ι] in
/-- A step that needs the record of a channel the task holds. -/
theorem access_guarded (h : Guarded s) (hpc : (s.pc i).holds = some (c, p))
    {f : Channel → State ι} (hf : ∀ ch, s.heap p = some ch → Guarded (f ch)) :
    Guarded (s.access p f) := by
  obtain ⟨ch, hch⟩ := Option.isSome_iff_exists.mp (h.live c p (h.held i c p hpc))
  rw [State.access, hch]
  exact hf ch hch

theorem write_guarded (h : Guarded s) {ch : Channel} (hp : (s.heap p).isSome)
    (hholds : q.holds = (s.pc i).holds) (hdel : q.deletes = (s.pc i).deletes)
    (hfrees : q.frees = (s.pc i).frees) : Guarded ((s.write p ch).goto i q) := by
  apply h.move _ hholds hdel hfrees
  intro r
  by_cases hr : r = p
  · subst hr
    rw [Function.update_self, hp]
    rfl
  · rw [Function.update_of_ne hr]

theorem goto_guarded (h : Guarded s) (hholds : q.holds = (s.pc i).holds)
    (hdel : q.deletes = (s.pc i).deletes) (hfrees : q.frees = (s.pc i).frees) :
    Guarded (s.goto i q) := h.move (fun _ => rfl) hholds hdel hfrees

theorem outStep_guarded (h : Guarded s) (hpc : s.pc i = .out k) (hfit : OutsideFits s k) :
    Guarded (outStep s i k) := by
  have hgoto : ∀ k', Guarded (s.goto i (.out k')) := by
    intro k'
    apply goto_guarded h <;> rw [hpc] <;> rfl
  cases k with
  | idle => exact h
  | sendGrab c msg => exact grab_guarded h (hfit c rfl) hpc fun _ => ⟨rfl, rfl⟩
  | recvGrab c => exact grab_guarded h (hfit c rfl) hpc fun _ => ⟨rfl, rfl⟩
  | isclosedGrab c => exact grab_guarded h (hfit c rfl) hpc fun _ => ⟨rfl, rfl⟩
  | block t channels => exact hgoto _
  | closeRef c => exact close_guarded h hpc hfit
  | check t channels n =>
    simp only [outStep]
    split
    · exact hgoto _
    · rename_i c hc
      exact grab_guarded h (hfit c hc) hpc fun _ => ⟨rfl, rfl⟩
  | register t channels n =>
    simp only [outStep]
    split
    · exact hgoto _
    · rename_i c hc
      exact grab_guarded h (hfit c hc) hpc fun _ => ⟨rfl, rfl⟩

theorem step_guarded (h : Guarded s) (hfit : ∀ k, s.pc i = .out k → OutsideFits s k) :
    Guarded (step s i (s.pc i)) := by
  have hgoto : ∀ {c p q}, (s.pc i).holds = some (c, p) → q.holds = some (c, p) →
      q.deletes = none → q.frees = none → Guarded (s.goto i q) := by
    intro c p q hpc hq hdel hfrees
    apply goto_guarded h
    · rw [hq, hpc]
    · rw [hdel, deletes_of_holds hpc]
    · rw [hfrees, frees_of_holds hpc]
  have hwrite : ∀ {c p q ch}, (s.pc i).holds = some (c, p) → q.holds = some (c, p) →
      q.deletes = none → q.frees = none → Guarded ((s.write p ch).goto i q) := by
    intro c p q ch hpc hq hdel hfrees
    apply write_guarded h (h.live c p (h.held i c p hpc))
    · rw [hq, hpc]
    · rw [hdel, deletes_of_holds hpc]
    · rw [hfrees, frees_of_holds hpc]
  generalize hpc : s.pc i = pc at hfit
  have hholds : (s.pc i).holds = pc.holds := by rw [hpc]
  cases pc with
  | out k => exact outStep_guarded h hpc (hfit k rfl)
  | sendPush c p msg => exact access_guarded h hholds fun ch _ => hwrite hholds rfl rfl rfl
  | sendPop c p =>
    apply access_guarded h hholds
    intro ch _
    split
    · exact hwrite hholds rfl rfl rfl
    · exact hgoto hholds rfl rfl rfl
  | wake c p id => exact hgoto hholds rfl rfl rfl
  | recvPop c p =>
    apply access_guarded h hholds
    intro ch _
    split
    · exact hwrite hholds rfl rfl rfl
    · exact hgoto hholds rfl rfl rfl
  | checkEmpty t channels n c p =>
    exact access_guarded h hholds fun ch _ => hgoto hholds rfl rfl rfl
  | registerPush t channels n c p =>
    exact access_guarded h hholds fun ch _ => hwrite hholds rfl rfl rfl
  | releaseRef c p k => exact releaseRef_guarded h hpc
  | tryDelete c k => exact tryDelete_guarded h hpc
  | free p k => exact free_guarded h hpc

theorem next_guarded (h : Guarded s) {e : Event ι} (he : Enabled s e) (hfit : ClosesOnce s e) :
    Guarded (next s e) := by
  cases e with
  | call i call =>
    obtain ⟨-, hpc⟩ := he
    apply goto_guarded h <;> rw [hpc] <;> rfl
  | step i => exact step_guarded h hfit

theorem reachable_guarded (h : Reachable (channelSystem.when ClosesOnce) s) : Guarded s := by
  apply h.invariant (I := Guarded)
  · intro t ht
    exact start_guarded ht
  · intro t e _ ih he
    exact next_guarded ih he.1 he.2

/-- While every channel is closed once, or again only when it is gone, no record has its queues
freed twice, none is freed while a call is between its grab of it and its release, and no call
comes upon freed memory. -/
theorem channel_not_freed_in_use (h : Reachable (channelSystem.when ClosesOnce) s) :
    (∀ p, s.freed p ≤ 1) ∧ (∀ i c p, (s.pc i).holds = some (c, p) → s.freed p = 0) ∧
      s.aborted = false := by
  have hs := reachable_guarded h
  refine ⟨hs.freed_le, fun i c p hi => ?_, hs.running⟩
  exact hs.unfreed p (hs.live c p (hs.held i c p hi))

end Guarded

instance (s : State ι) (e : Event ι) : Decidable (Enabled s e) :=
  match e with
  | .call .. => inferInstanceAs (Decidable (_ = false ∧ _ = _))
  | .step _ => inferInstanceAs (Decidable (_ = false ∧ True))

instance (s : State ι) (e : Event ι) : Decidable (channelSystem.enabled s e) :=
  inferInstanceAs (Decidable (Enabled s e))

def decidableGrabs (s : State ι) : ∀ r : Option ChannelId,
    Decidable (∀ c, r = some c → Fits ⟨s.map, s.spec⟩ (.grab c))
  | none => isTrue fun _ h => by cases h
  | some c =>
    decidable_of_iff (Fits ⟨s.map, s.spec⟩ (.grab c))
      ⟨fun h _ he => Option.some.inj he ▸ h, fun h => h c rfl⟩

instance (s : State ι) (k : Outside) : Decidable (OutsideFits s k) :=
  match k with
  | .closeRef _ => inferInstanceAs (Decidable (_ ∨ _))
  | .idle | .sendGrab .. | .recvGrab _ | .isclosedGrab _ | .check .. | .block .. | .register .. =>
    decidableGrabs s _

instance (s : State ι) (e : Event ι) : Decidable (ClosesOnce s e) :=
  match e with
  | .call .. => isTrue trivial
  | .step i =>
    match h : s.pc i with
    | .out k =>
      decidable_of_iff (OutsideFits s k)
        ⟨fun hk _ he => Pc.out.inj (h.symm.trans he) ▸ hk, fun hk => hk k h⟩
    | .sendPush .. | .sendPop .. | .wake .. | .recvPop .. | .checkEmpty .. | .registerPush ..
    | .releaseRef .. | .tryDelete .. | .free .. => isTrue fun _ he => by rw [h] at he; cases he

instance (s : State ι) (e : Event ι) : Decidable ((channelSystem.when ClosesOnce).enabled s e) :=
  inferInstanceAs (Decidable (Enabled s e ∧ ClosesOnce s e))

/-- Two tasks and the channel 1 behind the record 100. -/
def opened : State Bool where
  map := { (handlemapInit : HandleMap Ptr) with
    lastid := 1
    n := 1
    slot := Function.update calloc 1 ⟨1, 1, some 100⟩ }
  heap := Function.update (fun _ => none) 100 (some ⟨Queue.create, Queue.create⟩)
  pc _ := .out .idle
  spec := RefMap.empty.register 1 100
  owned := Function.update (fun _ => false) 1 true
  freed _ := 0
  aborted := false

theorem find_opened {c : ChannelId} {p : Ptr} {n : ℕ} (h : opened.spec c = some (p, n)) :
    c = 1 ∧ p = 100 ∧ n = 1 := by
  by_cases hc : c = 1
  · subst hc
    change (RefMap.empty.register 1 100) 1 = some (p, n) at h
    rw [register_same] at h
    cases h
    exact ⟨rfl, rfl, rfl⟩
  · change (RefMap.empty.register 1 100) c = some (p, n) at h
    rw [register_other _ _ hc] at h
    cases h

theorem start_opened : Start opened where
  placed := initial_placed.occupy (by decide : 1 ≠ 0) (by decide) rfl (by decide) 100
  idle _ := rfl
  opened c p n hc := by
    obtain ⟨rfl, rfl, rfl⟩ := find_opened hc
    exact ⟨rfl, rfl⟩
  owned c := by
    by_cases hc : c = 1
    · subst hc
      rfl
    · change Function.update (fun _ => false) 1 true c = (RefMap.empty.register 1 100 c).isSome
      rw [Function.update_of_ne hc, register_other _ _ hc]
      rfl
  apart c d p hc hd := by
    obtain ⟨r, hr, -⟩ := Option.map_eq_some_iff.mp hc
    obtain ⟨t, ht, -⟩ := Option.map_eq_some_iff.mp hd
    rw [(find_opened (p := r.1) (n := r.2) hr).1, (find_opened (p := t.1) (n := t.2) ht).1]
  freed _ := rfl
  running := rfl

/-- One task closes the channel while the other one sends. -/
def closedRun : State Bool :=
  runTrace (channelSystem.when ClosesOnce) opened
    [.call true (.send 1 9), .step true, .call false (.close 1), .step false]

theorem channel_not_freed_in_use_closedRun :
    (closedRun.pc true).holds = some (1, 100) ∧ closedRun.freed 100 = 0 :=
  have hpc : (closedRun.pc true).holds = some (1, 100) := by decide +kernel
  have h := channel_not_freed_in_use (s := closedRun)
    (.run (.start start_opened) (by decide +kernel))
  ⟨hpc, h.2.1 true 1 100 hpc⟩

/-- And closes it once more. -/
def closedTwiceRun : State Bool :=
  runTrace channelSystem opened
    [.call true (.send 1 9), .step true, .call false (.close 1), .step false,
      .call false (.close 1), .step false, .step false, .step false]

/-- The queues are freed under the sender, which comes upon freed memory next. -/
theorem second_close_frees_under_send :
    Reachable channelSystem closedTwiceRun ∧ (closedTwiceRun.pc true).holds = some (1, 100) ∧
      closedTwiceRun.freed 100 = 1 ∧ (next closedTwiceRun (.step true)).aborted = true :=
  ⟨.run (.start start_opened) (by decide +kernel), by decide +kernel, by decide +kernel,
    by decide +kernel⟩

end LtaskChannelClose
