import Mathlib.Data.List.AList
import Grt.TransitionSystem

/-! The poll backends of `socket_poll.h`: `socket_epoll.h` and `socket_kqueue.h`, each over a
kernel that keeps a table of what is registered. The callers pass the socket itself as `ud`,
and `max` is enough for all events that there are. -/
namespace SocketPoll

open TransitionSystem

abbrev Sock := ℕ

/-- `struct event`; `s` is a `void *`. -/
structure Event where
  s : Sock
  read : Bool
  write : Bool
  deriving DecidableEq

namespace Epoll

def EPOLLIN : BitVec 32 := 0x001

def EPOLLOUT : BitVec 32 := 0x004

/-- `struct epoll_event`. -/
structure EpollEvent where
  events : BitVec 32
  data : Sock

abbrev Table := AList fun _ : Sock => EpollEvent

inductive Op where
  | EPOLL_CTL_ADD
  | EPOLL_CTL_DEL
  | EPOLL_CTL_MOD

/-- `none` is a failure: an `fd` is added once, and changed or deleted while it is there. -/
def epollCtl (t : Table) (op : Op) (fd : Sock) (ev : EpollEvent) : Option Table :=
  match op with
  | .EPOLL_CTL_ADD => if fd ∈ t then none else some (t.insert fd ev)
  | .EPOLL_CTL_MOD => if fd ∈ t then some (t.insert fd ev) else none
  | .EPOLL_CTL_DEL => if fd ∈ t then some (t.erase fd) else none

/-- The ready subset of each registered mask, where it is not empty. -/
def epollWait (t : Table) (ready : Sock → BitVec 32) : List EpollEvent :=
  t.entries.filterMap fun e =>
    let events := e.2.events &&& ready e.1
    if events = 0 then none else some ⟨events, e.2.data⟩

def readyMask (readable writable : Bool) : BitVec 32 :=
  (if readable then EPOLLIN else 0) ||| (if writable then EPOLLOUT else 0)

def spAdd (t : Table) (sock ud : Sock) : ℕ × Table :=
  match epollCtl t .EPOLL_CTL_ADD sock ⟨EPOLLIN, ud⟩ with
  | none => (1, t)
  | some t => (0, t)

def spDel (t : Table) (sock : Sock) : Table :=
  (epollCtl t .EPOLL_CTL_DEL sock ⟨0, 0⟩).getD t

def writeMask (enable : Bool) : BitVec 32 := EPOLLIN ||| (if enable then EPOLLOUT else 0)

def spWrite (t : Table) (sock ud : Sock) (enable : Bool) : Table :=
  (epollCtl t .EPOLL_CTL_MOD sock ⟨writeMask enable, ud⟩).getD t

def spWait (t : Table) (readable writable : Sock → Bool) : List Event :=
  (epollWait t fun x => readyMask (readable x) (writable x)).map fun ev =>
    { s := ev.data
      read := ev.events &&& EPOLLIN ≠ 0
      write := ev.events &&& EPOLLOUT ≠ 0 }

end Epoll

namespace Kqueue

def EVFILT_READ : BitVec 32 := -1

def EVFILT_WRITE : BitVec 32 := -2

/-- The `short` field `filter` of a `struct kevent`. -/
def toShort (filter : BitVec 32) : BitVec 16 := filter.truncate 16

/-- A filter that is registered for a socket. -/
structure Knote where
  enabled : Bool
  udata : Sock

abbrev Table := AList fun _ : Sock × BitVec 16 => Knote

inductive Flags where
  | EV_ADD
  | EV_DELETE
  | EV_ENABLE
  | EV_DISABLE

/-- One change; `none` is a failure. Only `EV_ADD` works on a pair that was never added. -/
def keventChange (t : Table) (ident : Sock) (filter : BitVec 32) (flags : Flags) (udata : Sock) :
    Option Table :=
  let k := (ident, toShort filter)
  match flags with
  | .EV_ADD => some (t.insert k ⟨true, udata⟩)
  | .EV_DELETE => if k ∈ t then some (t.erase k) else none
  | .EV_ENABLE => if k ∈ t then some (t.insert k ⟨true, udata⟩) else none
  | .EV_DISABLE => if k ∈ t then some (t.insert k ⟨false, udata⟩) else none

def ready (filter : BitVec 16) (readable writable : Bool) : Bool :=
  filter = toShort EVFILT_READ && readable || filter = toShort EVFILT_WRITE && writable

/-- One event for each filter that is registered, enabled and ready. -/
def keventWait (t : Table) (readable writable : Sock → Bool) : List (BitVec 16 × Sock) :=
  t.entries.filterMap fun e =>
    if e.2.enabled && ready e.1.2 (readable e.1.1) (writable e.1.1) then
      some (e.1.2, e.2.udata)
    else none

def spAdd (t : Table) (sock ud : Sock) : ℕ × Table :=
  match keventChange t sock EVFILT_READ .EV_ADD ud with
  | none => (1, t)
  | some t => (0, t)

def spDel (t : Table) (sock : Sock) : Table :=
  (keventChange t sock (EVFILT_READ ||| EVFILT_WRITE) .EV_DELETE 0).getD t

def spWrite (t : Table) (sock ud : Sock) (enable : Bool) : Table :=
  (keventChange t sock EVFILT_WRITE (if enable then .EV_ENABLE else .EV_DISABLE) ud).getD t

/-- `flag` is the filter as an `unsigned`, and so are the constants it is compared with. -/
def event (ev : BitVec 16 × Sock) : Event :=
  let flag := ev.1.signExtend 32
  { s := ev.2
    read := flag &&& EVFILT_READ ≠ 0
    write := flag &&& EVFILT_WRITE ≠ 0 }

def spWait (t : Table) (readable writable : Sock → Bool) : List Event :=
  (keventWait t readable writable).map event

end Kqueue

/-- What was asked for a socket: whether it is registered, what its last `sp_write` said, and
whether that came after the registration. -/
structure Asked where
  registered : Bool
  writing : Bool
  since : Bool

structure State where
  epoll : Epoll.Table
  kqueue : Kqueue.Table
  asked : Sock → Asked

inductive Op where
  | add (sock : Sock)
  | write (sock : Sock) (enable : Bool)
  | del (sock : Sock)

def initial : State := ⟨∅, ∅, fun _ => ⟨false, false, false⟩⟩

def Asked.add (a : Asked) : Asked :=
  { a with registered := true, since := a.registered && a.since }

def Asked.write (a : Asked) (enable : Bool) : Asked :=
  { a with writing := enable, since := a.registered }

def Asked.del (a : Asked) : Asked := { a with registered := false }

def next (s : State) : Op → State
  | .add sock =>
    { epoll := (Epoll.spAdd s.epoll sock sock).2
      kqueue := (Kqueue.spAdd s.kqueue sock sock).2
      asked := Function.update s.asked sock (s.asked sock).add }
  | .write sock enable =>
    { epoll := Epoll.spWrite s.epoll sock sock enable
      kqueue := Kqueue.spWrite s.kqueue sock sock enable
      asked := Function.update s.asked sock ((s.asked sock).write enable) }
  | .del sock =>
    { epoll := Epoll.spDel s.epoll sock
      kqueue := Kqueue.spDel s.kqueue sock
      asked := Function.update s.asked sock (s.asked sock).del }

def pollSystem : System State Op where
  start s := s = initial
  enabled _ _ := True
  next := next

/-- The flags of all the events for one socket. -/
def reads (events : List Event) (sock : Sock) : Bool := events.any fun e => e.s = sock && e.read

def writes (events : List Event) (sock : Sock) : Bool := events.any fun e => e.s = sock && e.write

def reported (events : List Event) (sock : Sock) : Bool := events.any fun e => e.s = sock

/-- The backends report the same flags, which are those that were asked for and are ready, and
nothing for a socket that is not registered. -/
def Agree (s : State) (readable writable : Sock → Bool) : Prop :=
  let epoll := Epoll.spWait s.epoll readable writable
  let kqueue := Kqueue.spWait s.kqueue readable writable
  ∀ x, reads epoll x = reads kqueue x ∧ writes epoll x = writes kqueue x ∧
    reads epoll x = ((s.asked x).registered && readable x) ∧
    writes epoll x = ((s.asked x).registered && ((s.asked x).writing && writable x)) ∧
    ((s.asked x).registered = false → reported epoll x = false ∧ reported kqueue x = false)

/-- Writing is enabled in a mask only by an `sp_write` that came after the registration. -/
def Asked.out (a : Asked) : Bool := a.since && a.writing

/-- What epoll has for a socket. -/
def Asked.epollEvent (a : Asked) (x : Sock) : Option Epoll.EpollEvent :=
  if a.registered then some ⟨Epoll.writeMask a.out, x⟩ else none

/-- What kqueue has for a socket and a filter: the one for writing is never added. -/
def Asked.knote (a : Asked) (k : Sock × BitVec 16) : Option Kqueue.Knote :=
  if a.registered && k.2 = Kqueue.toShort Kqueue.EVFILT_READ then some ⟨true, k.1⟩ else none

def EpollTable (t : Epoll.Table) (asked : Sock → Asked) : Prop :=
  ∀ x, t.lookup x = (asked x).epollEvent x

def KqueueTable (q : Kqueue.Table) (asked : Sock → Asked) : Prop :=
  ∀ k, q.lookup k = (asked k.1).knote k

variable {t t' : Epoll.Table} {q q' : Kqueue.Table} {asked : Sock → Asked} {a : Asked} {x : Sock}

theorem Asked.add_registered (h : a.registered = true) : a.add = a := by
  obtain ⟨r, w, i⟩ := a
  obtain rfl : r = true := h
  rfl

theorem EpollTable.mem (h : EpollTable t asked) : x ∈ t ↔ (asked x).registered = true := by
  rw [← AList.lookup_isSome, h x, Asked.epollEvent, Option.isSome_ite]

/-- One socket is asked something, and its entry follows. -/
theorem EpollTable.update (h : EpollTable t asked)
    (hother : ∀ y, y ≠ x → t'.lookup y = t.lookup y) (hx : t'.lookup x = a.epollEvent x) :
    EpollTable t' (Function.update asked x a) := by
  intro y
  by_cases hy : y = x
  · subst hy
    rw [hx, Function.update_self]
  · rw [hother y hy, h y, Function.update_of_ne hy]

theorem EpollTable.insert (h : EpollTable t asked) {ev : Epoll.EpollEvent}
    (hev : a.epollEvent x = some ev) : EpollTable (t.insert x ev) (Function.update asked x a) := by
  apply h.update
  · exact fun y hy => AList.lookup_insert_ne hy
  · rw [AList.lookup_insert, hev]

theorem EpollTable.absent (h : EpollTable t asked) (hx : x ∉ t) (ha : a.registered = false) :
    EpollTable t (Function.update asked x a) := by
  apply h.update
  · exact fun _ _ => rfl
  · rw [AList.lookup_eq_none.mpr hx, Asked.epollEvent, ha]
    rfl

theorem EpollTable.add (h : EpollTable t asked) :
    EpollTable (Epoll.spAdd t x x).2 (Function.update asked x (asked x).add) := by
  rw [Epoll.spAdd, Epoll.epollCtl]
  by_cases hx : x ∈ t
  · rw [if_pos hx, Asked.add_registered (h.mem.mp hx), Function.update_eq_self]
    exact h
  · rw [if_neg hx]
    apply h.insert
    simp [Asked.epollEvent, Asked.out, Asked.add, mt h.mem.mpr hx, Epoll.writeMask]

theorem EpollTable.write (h : EpollTable t asked) {enable : Bool} :
    EpollTable (Epoll.spWrite t x x enable)
      (Function.update asked x ((asked x).write enable)) := by
  rw [Epoll.spWrite, Epoll.epollCtl]
  by_cases hx : x ∈ t
  · rw [if_pos hx]
    apply h.insert
    simp [Asked.epollEvent, Asked.out, Asked.write, h.mem.mp hx]
  · rw [if_neg hx]
    exact h.absent hx (Bool.eq_false_iff.mpr (mt h.mem.mpr hx))

theorem EpollTable.del (h : EpollTable t asked) :
    EpollTable (Epoll.spDel t x) (Function.update asked x (asked x).del) := by
  rw [Epoll.spDel, Epoll.epollCtl]
  by_cases hx : x ∈ t
  · rw [if_pos hx]
    apply h.update
    · exact fun y hy => AList.lookup_erase_ne hy
    · exact AList.lookup_erase ..
  · rw [if_neg hx]
    exact h.absent hx rfl

theorem KqueueTable.mem (h : KqueueTable q asked) {k : Sock × BitVec 16} :
    k ∈ q ↔ (asked k.1).registered = true ∧ k.2 = Kqueue.toShort Kqueue.EVFILT_READ := by
  rw [← AList.lookup_isSome, h k, Asked.knote, Option.isSome_ite, Bool.and_eq_true,
    decide_eq_true_iff]

/-- Only the filter for reading of the socket may change. -/
theorem KqueueTable.update (h : KqueueTable q asked)
    (hother : ∀ k, k ≠ (x, Kqueue.toShort Kqueue.EVFILT_READ) → q'.lookup k = q.lookup k)
    (hx : q'.lookup (x, Kqueue.toShort Kqueue.EVFILT_READ) =
      a.knote (x, Kqueue.toShort Kqueue.EVFILT_READ)) :
    KqueueTable q' (Function.update asked x a) := by
  rintro ⟨y, filter⟩
  by_cases hfilter : filter = Kqueue.toShort Kqueue.EVFILT_READ
  · subst hfilter
    by_cases hy : y = x
    · subst hy
      rw [hx, Function.update_self]
    · rw [hother _ fun he => hy (congrArg Prod.fst he), h, Function.update_of_ne hy]
  · rw [hother _ fun he => hfilter (congrArg Prod.snd he), h]
    simp [Asked.knote, hfilter]

/-- The table says nothing of what was asked for writing. -/
theorem KqueueTable.same (h : KqueueTable q asked) (ha : a.registered = (asked x).registered) :
    KqueueTable q (Function.update asked x a) := by
  apply h.update
  · exact fun _ _ => rfl
  · rw [h, Asked.knote, Asked.knote, ha]

theorem KqueueTable.add (h : KqueueTable q asked) :
    KqueueTable (Kqueue.spAdd q x x).2 (Function.update asked x (asked x).add) := by
  apply h.update
  · exact fun k hk => AList.lookup_insert_ne hk
  · exact AList.lookup_insert ..

theorem Kqueue.filters_ne : toShort EVFILT_WRITE ≠ toShort EVFILT_READ := by decide

/-- Both filters or'ed are the one for reading. -/
theorem Kqueue.both_filters : EVFILT_READ ||| EVFILT_WRITE = EVFILT_READ := by decide

/-- Neither `EV_ENABLE` nor `EV_DISABLE` finds a filter for writing. -/
theorem KqueueTable.write (h : KqueueTable q asked) {enable : Bool} :
    KqueueTable (Kqueue.spWrite q x x enable)
      (Function.update asked x ((asked x).write enable)) := by
  have hnone : (x, Kqueue.toShort Kqueue.EVFILT_WRITE) ∉ q := fun hk =>
    Kqueue.filters_ne (h.mem.mp hk).2
  have hq : Kqueue.spWrite q x x enable = q := by
    cases enable with
    | true => simp [Kqueue.spWrite, Kqueue.keventChange, hnone]
    | false => simp [Kqueue.spWrite, Kqueue.keventChange, hnone]
  rw [hq]
  exact h.same rfl

theorem KqueueTable.del (h : KqueueTable q asked) :
    KqueueTable (Kqueue.spDel q x) (Function.update asked x (asked x).del) := by
  rw [Kqueue.spDel, Kqueue.both_filters, Kqueue.keventChange]
  by_cases hx : (x, Kqueue.toShort Kqueue.EVFILT_READ) ∈ q
  · simp only [if_pos hx]
    apply h.update
    · exact fun k hk => AList.lookup_erase_ne hk
    · exact AList.lookup_erase ..
  · simp only [if_neg hx]
    apply h.same
    exact (Bool.eq_false_iff.mpr fun hreg => hx (h.mem.mpr ⟨hreg, rfl⟩)).symm

structure Tables (s : State) : Prop where
  epoll : EpollTable s.epoll s.asked
  kqueue : KqueueTable s.kqueue s.asked

variable {s : State}

theorem initial_tables : Tables initial where
  epoll _ := rfl
  kqueue _ := rfl

theorem next_tables (h : Tables s) : ∀ o, Tables (next s o)
  | .add _ => ⟨h.epoll.add, h.kqueue.add⟩
  | .write _ _ => ⟨h.epoll.write, h.kqueue.write⟩
  | .del _ => ⟨h.epoll.del, h.kqueue.del⟩

theorem reachable_tables (h : Reachable pollSystem s) : Tables s := by
  apply h.invariant
  · rintro _ rfl
    exact initial_tables
  · intro s o _ hs _
    exact next_tables hs o

/-- An event for each socket of which `p` holds, with the flags `r` and `w`. -/
def Reports (events : List Event) (p r w : Sock → Bool) : Prop :=
  ∀ ev, ev ∈ events ↔ ∃ x, p x = true ∧ ev = ⟨x, r x, w x⟩

section Reports

variable {events : List Event} {p r w : Sock → Bool}

theorem Reports.any (h : Reports events p r w) (f : Event → Bool) :
    events.any (fun e => e.s = x && f e) = (p x && f ⟨x, r x, w x⟩) := by
  rw [Bool.eq_iff_iff, List.any_eq_true, Bool.and_eq_true]
  constructor
  · rintro ⟨ev, hmem, hev⟩
    obtain ⟨y, hp, rfl⟩ := (h ev).mp hmem
    obtain ⟨hy, hf⟩ := Bool.and_eq_true_iff.mp hev
    obtain rfl : y = x := of_decide_eq_true hy
    exact ⟨hp, hf⟩
  · rintro ⟨hp, hf⟩
    exact ⟨_, (h _).mpr ⟨x, hp, rfl⟩, Bool.and_eq_true_iff.mpr ⟨decide_eq_true rfl, hf⟩⟩

theorem Reports.reads (h : Reports events p r w) : reads events x = (p x && r x) :=
  h.any Event.read

theorem Reports.writes (h : Reports events p r w) : writes events x = (p x && w x) :=
  h.any Event.write

theorem Reports.reported (h : Reports events p r w) : reported events x = p x := by
  rw [SocketPoll.reported, ← Bool.and_true (p x), ← h.any fun _ => true]
  simp only [Bool.and_true]

end Reports

variable {readable writable : Sock → Bool}

namespace Epoll

theorem mem_epollWait {ready : Sock → BitVec 32} {ev : EpollEvent} :
    ev ∈ epollWait t ready ↔ ∃ x v, t.lookup x = some v ∧ v.events &&& ready x ≠ 0 ∧
      ev = ⟨v.events &&& ready x, v.data⟩ := by
  rw [epollWait, List.mem_filterMap]
  constructor
  · rintro ⟨⟨x, v⟩, hmem, he⟩
    by_cases hzero : v.events &&& ready x = 0
    · simp [hzero] at he
    · simp only [hzero, if_false, Option.some.injEq] at he
      exact ⟨x, v, AList.mem_lookup_iff.mpr hmem, hzero, he.symm⟩
  · rintro ⟨x, v, hx, hne, rfl⟩
    exact ⟨⟨x, v⟩, AList.mem_lookup_iff.mp hx, if_neg hne⟩

theorem flags_read : ∀ enable r w : Bool,
    decide ((writeMask enable &&& readyMask r w) &&& EPOLLIN ≠ 0) = r := by decide

theorem flags_write : ∀ enable r w : Bool,
    decide ((writeMask enable &&& readyMask r w) &&& EPOLLOUT ≠ 0) = (enable && w) := by decide

theorem ready_iff : ∀ enable r w : Bool,
    writeMask enable &&& readyMask r w = 0 ↔ (r || (enable && w)) = false := by decide

end Epoll

theorem EpollTable.reports (h : EpollTable t asked) (readable writable : Sock → Bool) :
    Reports (Epoll.spWait t readable writable)
      (fun x => (asked x).registered && (readable x || ((asked x).out && writable x)))
      readable (fun x => (asked x).out && writable x) := by
  intro ev
  rw [Epoll.spWait, List.mem_map]
  constructor
  · rintro ⟨e, he, rfl⟩
    obtain ⟨x, v, hx, hne, rfl⟩ := Epoll.mem_epollWait.mp he
    rw [h, Asked.epollEvent] at hx
    obtain ⟨hreg, hv⟩ := Option.ite_none_right_eq_some.mp hx
    obtain rfl := Option.some.inj hv
    refine ⟨x, ?_, ?_⟩
    · exact Bool.and_eq_true_iff.mpr
        ⟨hreg, eq_true_of_ne_false (mt (Epoll.ready_iff ..).mpr hne)⟩
    · rw [Epoll.flags_read, Epoll.flags_write]
  · rintro ⟨x, hp, rfl⟩
    obtain ⟨hreg, hready⟩ := Bool.and_eq_true_iff.mp hp
    have hx := (h x).trans (if_pos hreg)
    refine ⟨_, Epoll.mem_epollWait.mpr ⟨x, _, hx, ?_, rfl⟩, ?_⟩
    · intro hzero
      rw [(Epoll.ready_iff ..).mp hzero] at hready
      cases hready
    · rw [Epoll.flags_read, Epoll.flags_write]

namespace Kqueue

theorem mem_keventWait {ev : BitVec 16 × Sock} :
    ev ∈ keventWait q readable writable ↔ ∃ x filter v, q.lookup (x, filter) = some v ∧
      (v.enabled && ready filter (readable x) (writable x)) = true ∧ ev = (filter, v.udata) := by
  rw [keventWait, List.mem_filterMap]
  constructor
  · rintro ⟨⟨⟨x, filter⟩, v⟩, hmem, he⟩
    obtain ⟨hready, he⟩ := Option.ite_none_right_eq_some.mp he
    exact ⟨x, filter, v, AList.mem_lookup_iff.mpr hmem, hready, (Option.some.inj he).symm⟩
  · rintro ⟨x, filter, v, hx, hready, rfl⟩
    exact ⟨⟨(x, filter), v⟩, AList.mem_lookup_iff.mp hx, if_pos hready⟩

theorem ready_read : ∀ r w : Bool, ready (toShort EVFILT_READ) r w = r := by decide

/-- The filter is a negative number: as a mask it has the bits of both constants. -/
theorem event_eq : event (toShort EVFILT_READ, x) = ⟨x, true, true⟩ := by
  have hread : decide ((toShort EVFILT_READ).signExtend 32 &&& EVFILT_READ ≠ 0) = true := by decide
  have hwrite : decide ((toShort EVFILT_READ).signExtend 32 &&& EVFILT_WRITE ≠ 0) = true := by
    decide
  rw [event, hread, hwrite]

end Kqueue

theorem KqueueTable.reports (h : KqueueTable q asked) (readable writable : Sock → Bool) :
    Reports (Kqueue.spWait q readable writable)
      (fun x => (asked x).registered && readable x) (fun _ => true) (fun _ => true) := by
  intro ev
  rw [Kqueue.spWait, List.mem_map]
  constructor
  · rintro ⟨e, he, rfl⟩
    obtain ⟨x, filter, v, hx, hready, rfl⟩ := Kqueue.mem_keventWait.mp he
    rw [h, Asked.knote] at hx
    obtain ⟨hreg, hv⟩ := Option.ite_none_right_eq_some.mp hx
    obtain rfl := Option.some.inj hv
    rw [Bool.and_eq_true, decide_eq_true_iff] at hreg
    obtain ⟨hreg, rfl⟩ := hreg
    rw [Kqueue.ready_read] at hready
    exact ⟨x, Bool.and_eq_true_iff.mpr ⟨hreg, hready⟩, Kqueue.event_eq⟩
  · rintro ⟨x, hp, rfl⟩
    obtain ⟨hreg, hready⟩ := Bool.and_eq_true_iff.mp hp
    have hx : q.lookup (x, Kqueue.toShort Kqueue.EVFILT_READ) = some ⟨true, x⟩ := by
      simp [h (x, _), Asked.knote, hreg]
    refine ⟨_, Kqueue.mem_keventWait.mpr ⟨x, _, _, hx, ?_, rfl⟩, Kqueue.event_eq⟩
    rw [Kqueue.ready_read]
    exact hready

/-- In every reachable state, whatever is ready, the backends do what was asked for exactly if
the registered sockets are readable and writable together, with writing enabled, and none is
writable whose writing was enabled before it was registered. -/
theorem backends_agree_iff (h : Reachable pollSystem s) (readable writable : Sock → Bool) :
    Agree s readable writable ↔ ∀ x, (s.asked x).registered = true →
      readable x = ((s.asked x).writing && writable x) ∧
        (writable x = true → (s.asked x).writing = true → (s.asked x).since = true) := by
  have hepoll := (reachable_tables h).epoll.reports readable writable
  have hkqueue := (reachable_tables h).kqueue.reports readable writable
  rw [Agree]
  apply forall_congr'
  intro x
  rw [hepoll.reads, hepoll.writes, hepoll.reported, hkqueue.reads, hkqueue.writes,
    hkqueue.reported]
  obtain ⟨registered, writing, since⟩ := s.asked x
  cases registered with
  | false => simp
  | true =>
    generalize readable x = r
    generalize writable x = w
    revert writing since r w
    decide

/-- Socket 1 can be read and written, and writing was asked for. -/
theorem backends_agree_iff_ready :
    Agree (runTrace pollSystem initial [.add 1, .write 1 true]) (fun x => x = 1)
      (fun x => x = 1) := by
  have h : Reachable pollSystem (runTrace pollSystem initial [.add 1, .write 1 true]) :=
    (Reachable.start rfl).run ⟨trivial, trivial, trivial⟩
  apply (backends_agree_iff h _ _).mpr
  intro x hx
  by_cases hone : x = 1
  · subst hone
    decide
  · simp [runTrace, pollSystem, next, initial, hone] at hx

/-- A socket that can only be read is reported for writing by kqueue. -/
theorem read_event_as_write : ∃ s, Reachable pollSystem s ∧
    ¬Agree s (fun x => x = 1) (fun _ => false) := by
  have h : Reachable pollSystem (runTrace pollSystem initial [.add 1]) :=
    (Reachable.start rfl).run ⟨trivial, trivial⟩
  refine ⟨_, h, ?_⟩
  intro hagree
  exact absurd (hagree 1).2.1 (by decide)

end SocketPoll
