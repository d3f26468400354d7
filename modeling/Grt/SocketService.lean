import Mathlib.Data.List.Basic
import Mathlib.Logic.Function.Basic
import Grt.TransitionSystem

/-! The socket service and the socket objects of its clients: `socket_service.lua` and
`socket.lua`. The service keeps the channel that the events of an fd go to in its table
`sockets`; a client calls the commands of the service through `command:call`, which answers
each call with the results of its own command. What `csocket` returns and reports comes with
the events. -/
namespace SocketService

open TransitionSystem

abbrev Fd := ℕ

abbrev ChannelId := ℕ

/-- `socket_meta`, with the methods of `socket`, and `listen_meta`, with those of
`listen_socket`. -/
inductive Metatable where
  | socket
  | listen
  deriving DecidableEq

/-- A socket object; `command` is the channel of its `__command`, if it has one. -/
structure Obj where
  fd : Fd
  ch : ChannelId
  command : Option ChannelId
  metatable : Metatable
  deriving DecidableEq

/-- What the poll loop sends about a new connection, or about data. -/
inductive Payload where
  | address (addr : String)
  | data (size : ℕ) (msg : ℕ)
  deriving DecidableEq

structure Msg where
  fd : Fd
  payload : Payload
  deriving DecidableEq

/-- The table of the service and the fds that `csocket` has open, has listening and was told
to close. -/
structure Service where
  sockets : Fd → Option ChannelId
  openFds : List Fd
  listening : Fd → Bool
  closedFds : List Fd

inductive Command where
  | connect (source : ChannelId)
  | listen (source : ChannelId)
  | forward (fd : Fd) (addr : ChannelId)
  | disconnect (fd : Fd)

/-- `csocket.connect` or `csocket.listen` returned `r`. -/
def Service.register (v : Service) (source : ChannelId) (listens : Bool) :
    Option Fd → Option Fd × Service
  | some fd =>
    (some fd, { v with
      sockets := Function.update v.sockets fd (some source)
      openFds := fd :: v.openFds
      listening := Function.update v.listening fd listens })
  | none => (none, v)

/-- The command functions. No value of `sockets` is a table, so `forward` has nothing to send
again. -/
def Service.exec (v : Service) (r : Option Fd) : Command → Option Fd × Service
  | .connect source => v.register source false r
  | .listen source => v.register source true r
  | .forward fd addr => (none, { v with sockets := Function.update v.sockets fd (some addr) })
  | .disconnect fd =>
    if (v.sockets fd).isSome then
      (none, { v with
        sockets := Function.update v.sockets fd none
        openFds := v.openFds.erase fd
        closedFds := fd :: v.closedFds })
    else (none, v)

/-- What a client does with the answer to a call. -/
inductive Cont where
  | connect (ch : ChannelId)
  | listen (ch : ChannelId)
  | close (o : Obj)

def Cont.command : Cont → Command
  | connect ch => .connect ch
  | listen ch => .listen ch
  | close o => .disconnect o.fd

inductive Pc where
  | idle
  | calling (k : Cont)
  | answered (r : Option Fd) (k : Cont)

/-- What a channel was created for. -/
inductive Kind where
  | fresh
  | connect
  | listen
  | accept
  | command
  deriving DecidableEq

/-- `socketsClosed` is the `sockets_closed` of each client, `held` its open socket objects and
`closed` those whose `close` has returned or raised. -/
structure State (ι : Type*) extends Service where
  pc : ι → Pc
  socketsClosed : ι → Fd → Bool
  held : ι → List Obj
  closed : ι → List Obj
  channel : ChannelId → List Msg
  kind : ChannelId → Kind

variable {ι : Type*} [DecidableEq ι]

namespace State

variable (s : State ι)

def goto (i : ι) (pc : Pc) : State ι := { s with pc := Function.update s.pc i pc }

def hold (i : ι) (o : Obj) : State ι := { s with held := Function.update s.held i (o :: s.held i) }

def letGo (i : ι) (o : Obj) : State ι :=
  { s with held := Function.update s.held i ((s.held i).erase o) }

/-- The end of a call of `close`. -/
def shut (i : ι) (o : Obj) : State ι :=
  { s.letGo i o with closed := Function.update s.closed i (o :: s.closed i) }

/-- `sockets_closed[fd] = true`. -/
def markClosed (i : ι) (fd : Fd) : State ι :=
  { s with
    socketsClosed := Function.update s.socketsClosed i
      (Function.update (s.socketsClosed i) fd true) }

def create (ch : ChannelId) (kind : Kind) : State ι :=
  { s with kind := Function.update s.kind ch kind }

/-- An event on `fd` in the poll loop; without a channel for it, it is dropped. -/
def deliver (fd : Fd) (m : Msg) : State ι :=
  match s.sockets fd with
  | some c => { s with channel := Function.update s.channel c (s.channel c ++ [m]) }
  | none => s

end State

/-- `M.connect`, `M.listen` and `socket:close` after their calls. -/
def finish (s : State ι) (i : ι) (r : Option Fd) : Cont → State ι
  | .connect ch =>
    match r with
    | some fd => (s.goto i .idle).hold i ⟨fd, ch, none, .socket⟩
    | none => s.goto i .idle
  | .listen ch =>
    match r with
    | some fd => (s.goto i .idle).hold i ⟨fd, ch, none, .listen⟩
    | none => s.goto i .idle
  | .close o => (s.goto i .idle).shut i o

/-- `o:close()`. An object of `listen_meta` has no such method, and one without `__command`
raises an error when it comes to the call. -/
def closeObj (s : State ι) (i : ι) (o : Obj) : State ι :=
  match o.metatable with
  | .listen => s.shut i o
  | .socket =>
    if s.socketsClosed i o.fd then s.shut i o
    else
      let s := s.markClosed i o.fd
      match o.command with
      | none => s.shut i o
      | some _ => (s.letGo i o).goto i (.calling (.close o))

/-- The channels that a client creates come with its events. -/
inductive Event (ι : Type*) where
  | connect (i : ι) (ch : ChannelId)
  | listen (i : ι) (ch : ChannelId)
  | serve (i : ι) (r : Option Fd)
  | resume (i : ι)
  | accept (i : ι) (o : Obj) (ch : ChannelId) (cmd : ChannelId)
  | close (i : ι) (o : Obj)
  | accepted (lfd : Fd) (fd : Fd) (addr : String)
  | data (fd : Fd) (size : ℕ) (msg : ℕ)

def next (s : State ι) : Event ι → State ι
  | .connect i ch => (s.create ch .connect).goto i (.calling (.connect ch))
  | .listen i ch => (s.create ch .listen).goto i (.calling (.listen ch))
  | .serve i r =>
    match s.pc i with
    | .calling k =>
      let x := s.toService.exec r k.command
      { s with toService := x.2 }.goto i (.answered x.1 k)
    | _ => s
  | .resume i =>
    match s.pc i with
    | .answered r k => finish s i r k
    | _ => s
  | .accept i o ch cmd =>
    match s.channel o.ch with
    | m :: rest =>
      ({ s with channel := Function.update s.channel o.ch rest }.create ch .accept
        |>.create cmd .command).hold i ⟨m.fd, ch, some cmd, .socket⟩
    | [] => s
  | .close i o => closeObj s i o
  | .accepted lfd fd addr =>
    { s with openFds := fd :: s.openFds, listening := Function.update s.listening fd false }.deliver
      lfd ⟨fd, .address addr⟩
  | .data fd size msg => s.deliver fd ⟨fd, .data size msg⟩

def Pc.isCalling : Pc → Bool
  | .calling _ => true
  | _ => false

def Pc.isAnswered : Pc → Bool
  | .answered .. => true
  | _ => false

def Pc.isIdle : Pc → Bool
  | .idle => true
  | _ => false

/-- New channels are fresh and so are the fds that `csocket` returns or reports; it reports a
new connection on an fd that listens and data on one that does not. -/
def Enabled (s : State ι) : Event ι → Prop
  | .connect i ch | .listen i ch => (s.pc i).isIdle = true ∧ s.kind ch = .fresh
  | .serve i r => (s.pc i).isCalling = true ∧ ∀ fd ∈ r, fd ∉ s.openFds
  | .resume i => (s.pc i).isAnswered = true
  | .accept i o ch cmd => (s.pc i).isIdle = true ∧ o ∈ s.held i ∧ o.metatable = .listen ∧
      s.channel o.ch ≠ [] ∧ s.kind ch = .fresh ∧ s.kind cmd = .fresh ∧ cmd ≠ ch
  | .close i o => (s.pc i).isIdle = true ∧ (o ∈ s.held i ∨ o ∈ s.closed i)
  | .accepted lfd fd _ => lfd ∈ s.openFds ∧ s.listening lfd = true ∧ fd ∉ s.openFds
  | .data fd _ _ => fd ∈ s.openFds ∧ s.listening fd = false

def initial : State ι where
  sockets _ := none
  openFds := []
  listening _ := false
  closedFds := []
  pc _ := .idle
  socketsClosed _ _ := false
  held _ := []
  closed _ := []
  channel _ := []
  kind _ := .fresh

def serviceSystem : System (State ι) (Event ι) where
  start s := s = initial
  enabled := Enabled
  next := next

/-- An open fd that the service has no channel for. -/
def Service.Unregistered (v : Service) (fd : Fd) : Prop := v.sockets fd = none ∧ fd ∈ v.openFds

/-- `accept` alone gives an object a `__command`. -/
def Obj.accepted (o : Obj) : Bool := o.command.isSome

structure ObjOk (s : State ι) (o : Obj) : Prop where
  accepted : o.accepted = true → s.kind o.ch = .accept ∧ s.Unregistered o.fd
  registered : o.accepted = false → s.sockets o.fd = some o.ch
  listens : o.metatable = .listen → o.accepted = false ∧ s.listening o.fd = true

def PcOk (s : State ι) : Pc → Prop
  | .idle => True
  | .calling (.connect ch) => s.kind ch = .connect
  | .calling (.listen ch) => s.kind ch = .listen
  | .calling (.close o) => ObjOk s o ∧ o.accepted = true
  | .answered r (.connect ch) => ∀ fd ∈ r, s.sockets fd = some ch
  | .answered r (.listen ch) => ∀ fd ∈ r, s.sockets fd = some ch ∧ s.listening fd = true
  | .answered _ (.close o) => ObjOk s o

structure Inv (s : State ι) : Prop where
  reg : ∀ fd c, s.sockets fd = some c →
    fd ∈ s.openFds ∧ s.kind c = if s.listening fd then .listen else .connect
  msg : ∀ c m, m ∈ s.channel c → s.kind c ≠ .fresh ∧ (s.kind c = .listen → s.Unregistered m.fd)
  obj : ∀ i o, o ∈ s.held i ∨ o ∈ s.closed i → ObjOk s o
  pc : ∀ i, PcOk s (s.pc i)
  never : s.closedFds = []

/-- A step that leaves what is known of fds and channels as it is. -/
structure Keeps (s t : State ι) : Prop where
  sockets : ∀ fd c, s.sockets fd = some c →
    t.sockets fd = some c ∧ t.listening fd = s.listening fd
  unregistered : ∀ fd, s.Unregistered fd → t.Unregistered fd
  kind : ∀ c, s.kind c ≠ .fresh → t.kind c = s.kind c

variable {s t : State ι} {i : ι} {o : Obj} {fd : Fd} {ch : ChannelId}

omit [DecidableEq ι] in
theorem Keeps.obj (h : Keeps s t) (ho : ObjOk s o) : ObjOk t o where
  accepted hacc := by
    obtain ⟨hkind, hun⟩ := ho.accepted hacc
    refine ⟨(h.kind o.ch ?_).trans hkind, h.unregistered o.fd hun⟩
    rw [hkind]
    exact Kind.noConfusion
  registered hacc := (h.sockets _ _ (ho.registered hacc)).1
  listens hl := by
    obtain ⟨hacc, hlistening⟩ := ho.listens hl
    exact ⟨hacc, (h.sockets _ _ (ho.registered hacc)).2.trans hlistening⟩

omit [DecidableEq ι] in
theorem Keeps.pc (h : Keeps s t) {p : Pc} (hp : PcOk s p) : PcOk t p := by
  cases p with
  | idle => trivial
  | calling k =>
    cases k with
    | connect ch => exact (h.kind ch (by rw [hp]; exact Kind.noConfusion)).trans hp
    | listen ch => exact (h.kind ch (by rw [hp]; exact Kind.noConfusion)).trans hp
    | close o => exact ⟨h.obj hp.1, hp.2⟩
  | answered r k =>
    cases k with
    | connect ch => exact fun fd hfd => (h.sockets fd ch (hp fd hfd)).1
    | listen ch =>
      intro fd hfd
      obtain ⟨hsock, hl⟩ := hp fd hfd
      exact ⟨(h.sockets fd ch hsock).1, (h.sockets fd ch hsock).2.trans hl⟩
    | close o => exact h.obj hp

omit [DecidableEq ι] in
/-- A step keeps the invariant if what it adds satisfies it. -/
theorem Keeps.inv (hk : Keeps s t) (h : Inv s)
    (hreg : ∀ fd c, t.sockets fd = some c →
      fd ∈ t.openFds ∧ t.kind c = if t.listening fd then .listen else .connect)
    (hmsg : ∀ c m, m ∈ t.channel c → t.kind c ≠ .fresh ∧ (t.kind c = .listen → t.Unregistered m.fd))
    (hobj : ∀ j o, o ∈ t.held j ∨ o ∈ t.closed j →
      (o ∈ s.held j ∨ o ∈ s.closed j) ∨ ObjOk t o)
    (hpc : ∀ j, t.pc j = s.pc j ∨ PcOk t (t.pc j)) (hnever : t.closedFds = s.closedFds) :
    Inv t where
  reg := hreg
  msg := hmsg
  obj j o ho := by
    rcases hobj j o ho with hold | hnew
    · exact hk.obj (h.obj j o hold)
    · exact hnew
  pc j := by
    rcases hpc j with hold | hnew
    · rw [hold]
      exact hk.pc (h.pc j)
    · exact hnew
  never := hnever.trans h.never

omit [DecidableEq ι] in
/-- A step that changes neither the service nor what the channels are for. -/
theorem Inv.same (h : Inv s) (hservice : t.toService = s.toService) (hkind : t.kind = s.kind)
    (hchannel : ∀ c m, m ∈ t.channel c → m ∈ s.channel c)
    (hobj : ∀ j o, o ∈ t.held j ∨ o ∈ t.closed j → (o ∈ s.held j ∨ o ∈ s.closed j) ∨ ObjOk s o)
    (hpc : ∀ j, t.pc j = s.pc j ∨ PcOk s (t.pc j)) : Inv t := by
  have hk : Keeps s t := by
    constructor
    · intro fd c hc
      rw [hservice]
      exact ⟨hc, rfl⟩
    · intro fd hfd
      rw [hservice]
      exact hfd
    · intro c _
      rw [hkind]
  apply hk.inv h
  · rw [hservice, hkind]
    exact h.reg
  · intro c m hm
    rw [hservice, hkind]
    exact h.msg c m (hchannel c m hm)
  · intro j o ho
    exact (hobj j o ho).imp_right hk.obj
  · intro j
    exact (hpc j).imp_right hk.pc
  · rw [hservice]

theorem goto_inv (h : Inv s) {p : Pc} (hp : PcOk s p) : Inv (s.goto i p) := by
  apply h.same (t := s.goto i p) rfl rfl (fun _ _ hm => hm) (fun _ _ ho => Or.inl ho)
  intro j
  by_cases hj : j = i
  · subst hj
    right
    change PcOk s (Function.update s.pc j p j)
    rwa [Function.update_self]
  · exact Or.inl (Function.update_of_ne hj ..)

theorem hold_inv (h : Inv s) (ho : ObjOk s o) : Inv (s.hold i o) := by
  apply h.same (t := s.hold i o) rfl rfl (fun _ _ hm => hm) _ (fun _ => Or.inl rfl)
  intro j x hx
  by_cases hj : j = i
  · subst hj
    rcases hx with hx | hx
    · change x ∈ Function.update s.held j _ j at hx
      rw [Function.update_self] at hx
      rcases List.mem_cons.mp hx with rfl | hx
      · exact Or.inr ho
      · exact Or.inl (Or.inl hx)
    · exact Or.inl (Or.inr hx)
  · refine Or.inl (hx.imp_left fun hx => ?_)
    change x ∈ Function.update s.held i _ j at hx
    rwa [Function.update_of_ne hj] at hx

theorem letGo_inv (h : Inv s) : Inv (s.letGo i o) := by
  apply h.same (t := s.letGo i o) rfl rfl (fun _ _ hm => hm) _ (fun _ => Or.inl rfl)
  intro j x hx
  refine Or.inl (hx.imp_left fun hx => ?_)
  change x ∈ Function.update s.held i _ j at hx
  by_cases hj : j = i
  · subst hj
    rw [Function.update_self] at hx
    exact List.mem_of_mem_erase hx
  · rwa [Function.update_of_ne hj] at hx

theorem shut_inv (h : Inv s) (ho : ObjOk s o) : Inv (s.shut i o) := by
  have hgone : Inv (s.letGo i o) := letGo_inv h
  apply hgone.same (t := s.shut i o) rfl rfl (fun _ _ hm => hm) _ (fun _ => Or.inl rfl)
  intro j x hx
  rcases hx with hx | hx
  · exact Or.inl (Or.inl hx)
  · change x ∈ Function.update s.closed i _ j at hx
    by_cases hj : j = i
    · subst hj
      rw [Function.update_self] at hx
      rcases List.mem_cons.mp hx with rfl | hx
      · right
        exact ⟨ho.accepted, ho.registered, ho.listens⟩
      · exact Or.inl (Or.inr hx)
    · rw [Function.update_of_ne hj] at hx
      exact Or.inl (Or.inr hx)

omit [DecidableEq ι] in
theorem create_keeps (hfresh : s.kind ch = .fresh) (k : Kind) : Keeps s (s.create ch k) where
  sockets _ _ hc := ⟨hc, rfl⟩
  unregistered _ hfd := hfd
  kind c hc := by
    have hne : c ≠ ch := by
      rintro rfl
      exact hc hfresh
    exact Function.update_of_ne hne ..

omit [DecidableEq ι] in
theorem create_inv (h : Inv s) (ch : ChannelId) (hfresh : s.kind ch = .fresh) (k : Kind) :
    Inv (s.create ch k) := by
  have hk := create_keeps hfresh k
  apply hk.inv h _ _ (fun _ _ ho => Or.inl ho) (fun _ => Or.inl rfl) rfl
  · intro fd c hc
    obtain ⟨hopen, hkind⟩ := h.reg fd c hc
    refine ⟨hopen, (hk.kind c ?_).trans hkind⟩
    rw [hkind]
    split <;> exact Kind.noConfusion
  · intro c m hm
    obtain ⟨hkind, hlisten⟩ := h.msg c m hm
    rw [hk.kind c hkind]
    exact ⟨hkind, hlisten⟩

omit [DecidableEq ι] in
theorem deliver_inv (h : Inv s) {m : Msg}
    (hm : ∀ c, s.sockets fd = some c → s.kind c = .listen → s.Unregistered m.fd) :
    Inv (s.deliver fd m) := by
  rw [State.deliver]
  split
  · rename_i c hc
    have hk : Keeps s { s with channel := Function.update s.channel c (s.channel c ++ [m]) } :=
      ⟨fun _ _ hd => ⟨hd, rfl⟩, fun _ hd => hd, fun _ _ => rfl⟩
    apply hk.inv h h.reg _ (fun _ _ ho => Or.inl ho) (fun _ => Or.inl rfl) rfl
    intro d x hx
    change x ∈ Function.update s.channel c _ d at hx
    by_cases hd : d = c
    · subst hd
      rw [Function.update_self] at hx
      rcases List.mem_append.mp hx with hx | hx
      · exact h.msg d x hx
      · rw [List.mem_singleton.mp hx]
        refine ⟨?_, hm d hc⟩
        rw [(h.reg fd d hc).2]
        split <;> exact Kind.noConfusion
    · rw [Function.update_of_ne hd] at hx
      exact h.msg d x hx
  · exact h

omit [DecidableEq ι] in
/-- A fresh fd enters the kernel, and the table of the service when it has a source. -/
theorem open_keeps (h : Inv s) (hfresh : fd ∉ s.openFds) {v : Service}
    (hsockets : ∀ x, x ≠ fd → v.sockets x = s.sockets x)
    (hlistening : ∀ x, x ≠ fd → v.listening x = s.listening x)
    (hopen : ∀ x ∈ s.openFds, x ∈ v.openFds) : Keeps s { s with toService := v } where
  sockets x c hc := by
    have hx : x ≠ fd := by
      rintro rfl
      exact hfresh (h.reg x c hc).1
    exact ⟨(hsockets x hx).trans hc, hlistening x hx⟩
  unregistered x hx := by
    have hne : x ≠ fd := by
      rintro rfl
      exact hfresh hx.2
    exact ⟨(hsockets x hne).trans hx.1, hopen x hx.2⟩
  kind _ _ := rfl

omit [DecidableEq ι] in
theorem register_inv (h : Inv s) (hfresh : fd ∉ s.openFds) (ch : ChannelId) (listens : Bool)
    (hkind : s.kind ch = if listens then .listen else .connect) :
    Inv { s with toService := (s.toService.register ch listens (some fd)).2 } := by
  have hk := open_keeps (v := (s.toService.register ch listens (some fd)).2) h hfresh
    (fun x hx => Function.update_of_ne hx ..) (fun x hx => Function.update_of_ne hx ..)
    (fun x hx => List.mem_cons_of_mem fd hx)
  apply hk.inv h _ _ (fun _ _ ho => Or.inl ho) (fun _ => Or.inl rfl) rfl
  · intro x c hc
    change Function.update s.sockets fd (some ch) x = some c at hc
    change x ∈ fd :: s.openFds ∧
      s.kind c = if Function.update s.listening fd listens x then _ else _
    by_cases hx : x = fd
    · subst hx
      rw [Function.update_self] at hc ⊢
      obtain rfl := Option.some.inj hc
      exact ⟨List.mem_cons_self, hkind⟩
    · rw [Function.update_of_ne hx] at hc ⊢
      exact ⟨List.mem_cons_of_mem fd (h.reg x c hc).1, (h.reg x c hc).2⟩
  · intro c m hm
    obtain ⟨hne, hl⟩ := h.msg c m hm
    exact ⟨hne, fun hc => hk.unregistered m.fd (hl hc)⟩

omit [DecidableEq ι] in
/-- A request to close the fd of an accepted object does nothing. -/
theorem exec_disconnect (ho : s.Unregistered fd) (r : Option Fd) :
    s.toService.exec r (.disconnect fd) = (none, s.toService) := by
  rw [Service.exec, ho.1]
  rfl

theorem serve_inv (h : Inv s) {r : Option Fd} (hfresh : ∀ fd ∈ r, fd ∉ s.openFds) :
    Inv (next s (.serve i r)) := by
  have hp := h.pc i
  simp only [next]
  split
  · rename_i k hk
    rw [hk] at hp
    cases k with
    | connect ch =>
      cases r with
      | none => exact goto_inv h fun fd hfd => by cases hfd
      | some fd =>
        apply goto_inv (register_inv h (hfresh fd rfl) ch false hp)
        intro x hx
        obtain rfl := Option.some.inj hx
        exact Function.update_self ..
    | listen ch =>
      cases r with
      | none => exact goto_inv h fun fd hfd => by cases hfd
      | some fd =>
        apply goto_inv (register_inv h (hfresh fd rfl) ch true hp)
        intro x hx
        obtain rfl := Option.some.inj hx
        exact ⟨Function.update_self .., Function.update_self ..⟩
    | close o =>
      obtain ⟨ho, hacc⟩ := hp
      rw [Cont.command, exec_disconnect (ho.accepted hacc).2]
      exact goto_inv h ho
  · exact h

theorem resume_inv (h : Inv s) : Inv (next s (.resume i)) := by
  have hp := h.pc i
  simp only [next]
  split
  · rename_i r k hk
    rw [hk] at hp
    have hidle : Inv (s.goto i .idle) := goto_inv h trivial
    cases k with
    | connect ch =>
      cases r with
      | none => exact hidle
      | some fd =>
        apply hold_inv hidle
        constructor
        · intro hacc
          cases hacc
        · exact fun _ => hp fd rfl
        · intro hl
          cases hl
    | listen ch =>
      cases r with
      | none => exact hidle
      | some fd =>
        apply hold_inv hidle
        obtain ⟨hsock, hl⟩ := hp fd rfl
        constructor
        · intro hacc
          cases hacc
        · exact fun _ => hsock
        · exact fun _ => ⟨rfl, hl⟩
    | close o => exact shut_inv hidle ⟨hp.accepted, hp.registered, hp.listens⟩
  · exact h

theorem accept_inv (h : Inv s) {cmd : ChannelId} (he : Enabled s (.accept i o ch cmd)) :
    Inv (next s (.accept i o ch cmd)) := by
  obtain ⟨-, hheld, hmeta, -, hch, hcmd, hne⟩ := he
  have ho := h.obj i o (Or.inl hheld)
  obtain ⟨hacc, hlistens⟩ := ho.listens hmeta
  have hkind : s.kind o.ch = .listen := by
    have hreg := (h.reg o.fd o.ch (ho.registered hacc)).2
    rwa [hlistens, if_pos rfl] at hreg
  simp only [next]
  split
  · rename_i m rest hm
    have hun : s.Unregistered m.fd := (h.msg o.ch m (by rw [hm]; exact List.mem_cons_self)).2 hkind
    have hpop : Inv { s with channel := Function.update s.channel o.ch rest } := by
      apply h.same (t := { s with channel := Function.update s.channel o.ch rest }) rfl rfl _
        (fun _ _ hx => Or.inl hx) (fun _ => Or.inl rfl)
      intro c x hx
      change x ∈ Function.update s.channel o.ch rest c at hx
      by_cases hc : c = o.ch
      · subst hc
        rw [Function.update_self] at hx
        rw [hm]
        exact List.mem_cons_of_mem m hx
      · rwa [Function.update_of_ne hc] at hx
    have hcreated := create_inv hpop _ hch .accept
    have hcreated := create_inv hcreated cmd
      ((Function.update_of_ne hne ..).trans hcmd) .command
    apply hold_inv hcreated
    constructor
    · exact fun _ => ⟨(Function.update_of_ne hne.symm ..).trans (Function.update_self ..), hun⟩
    · intro hnot
      cases hnot
    · intro hl
      cases hl
  · exact h

theorem close_inv (h : Inv s) (ho : ObjOk s o) : Inv (next s (.close i o)) := by
  simp only [next, closeObj]
  split
  · exact shut_inv h ho
  · split
    · exact shut_inv h ho
    · have hclosed : Inv (s.markClosed i o.fd) :=
        h.same (t := s.markClosed i o.fd) rfl rfl (fun _ _ hm => hm) (fun _ _ hx => Or.inl hx)
          fun _ => Or.inl rfl
      have ho' : ObjOk (s.markClosed i o.fd) o := ⟨ho.accepted, ho.registered, ho.listens⟩
      split
      · exact shut_inv hclosed ho'
      · rename_i cmd hcmd
        apply goto_inv (letGo_inv hclosed)
        refine ⟨⟨ho.accepted, ho.registered, ho.listens⟩, ?_⟩
        rw [Obj.accepted, hcmd]
        rfl

omit [DecidableEq ι] in
theorem accepted_inv (h : Inv s) (hfresh : fd ∉ s.openFds) :
    Inv { s with
      openFds := fd :: s.openFds
      listening := Function.update s.listening fd false } := by
  have hk := open_keeps (v := { s.toService with
      openFds := fd :: s.openFds
      listening := Function.update s.listening fd false }) h hfresh
    (fun _ _ => rfl) (fun x hx => Function.update_of_ne hx ..)
    (fun x hx => List.mem_cons_of_mem fd hx)
  apply hk.inv h _ _ (fun _ _ ho => Or.inl ho) (fun _ => Or.inl rfl) rfl
  · intro x c hc
    obtain ⟨hopen, hkind⟩ := h.reg x c hc
    refine ⟨List.mem_cons_of_mem fd hopen, ?_⟩
    change s.kind c = if Function.update s.listening fd false x then _ else _
    have hne : x ≠ fd := by
      rintro rfl
      exact hfresh hopen
    rwa [Function.update_of_ne hne]
  · intro c m hm
    obtain ⟨hne, hl⟩ := h.msg c m hm
    exact ⟨hne, fun hc => hk.unregistered m.fd (hl hc)⟩

omit [DecidableEq ι] in
theorem initial_inv : Inv (initial : State ι) where
  reg _ _ hc := by cases hc
  msg _ _ hm := by cases hm
  obj _ _ ho := by rcases ho with ho | ho <;> cases ho
  pc _ := trivial
  never := rfl

theorem next_inv (h : Inv s) {e : Event ι} (he : Enabled s e) : Inv (next s e) := by
  cases e with
  | connect i ch => exact goto_inv (create_inv h ch he.2 .connect) (Function.update_self ..)
  | listen i ch => exact goto_inv (create_inv h ch he.2 .listen) (Function.update_self ..)
  | serve i r => exact serve_inv h he.2
  | resume i => exact resume_inv h
  | accept i o ch cmd => exact accept_inv h he
  | close i o => exact close_inv h (h.obj i o he.2)
  | accepted lfd fd addr =>
    obtain ⟨-, -, hfresh⟩ := he
    apply deliver_inv (accepted_inv h hfresh)
    intro c _ _
    refine ⟨?_, List.mem_cons_self⟩
    change s.sockets fd = none
    cases hc : s.sockets fd with
    | none => rfl
    | some d => exact absurd (h.reg fd d hc).1 hfresh
  | data fd size msg =>
    obtain ⟨-, hl⟩ := he
    apply deliver_inv h
    intro c hc hkind
    have hreg := (h.reg fd c hc).2
    rw [hl, hkind] at hreg
    cases hreg

theorem reachable_inv (h : Reachable serviceSystem s) : Inv s := by
  apply h.invariant (I := Inv)
  · rintro t rfl
    exact initial_inv
  · intro t e _ ih he
    exact next_inv ih he

/-- The table has the channel of every open socket object, and the service has been told to
close the fd of every one whose `close` is over. -/
def Routed (s : State ι) : Prop :=
  (∀ i o, o ∈ s.held i → s.sockets o.fd = some o.ch) ∧ ∀ i o, o ∈ s.closed i → o.fd ∈ s.closedFds

/-- Every socket is routed to its owner exactly when no open object came from `accept` and no
object was closed; and data of a socket object comes to its channel exactly when the object
did not come from `accept`. -/
theorem routed_iff (h : Reachable serviceSystem s) :
    (Routed s ↔ (∀ i o, o ∈ s.held i → o.accepted = false) ∧ ∀ i, s.closed i = []) ∧
      ∀ i o size msg, o ∈ s.held i →
        ((next s (.data o.fd size msg)).channel o.ch =
          s.channel o.ch ++ [⟨o.fd, .data size msg⟩] ↔ o.accepted = false) := by
  have hs := reachable_inv h
  constructor
  · constructor
    · rintro ⟨hopen, hclosed⟩
      constructor
      · intro i o ho
        cases hacc : o.accepted with
        | false => rfl
        | true =>
          have hsock := hopen i o ho
          rw [((hs.obj i o (Or.inl ho)).accepted hacc).2.1] at hsock
          cases hsock
      · intro i
        rw [List.eq_nil_iff_forall_not_mem]
        intro o ho
        have hfd := hclosed i o ho
        rw [hs.never] at hfd
        cases hfd
    · rintro ⟨hopen, hclosed⟩
      constructor
      · intro i o ho
        exact (hs.obj i o (Or.inl ho)).registered (hopen i o ho)
      · intro i o ho
        rw [hclosed i] at ho
        cases ho
  · intro i o size msg ho
    have hobj := hs.obj i o (Or.inl ho)
    rw [next, State.deliver]
    cases hacc : o.accepted with
    | false =>
      rw [hobj.registered hacc]
      exact ⟨fun _ => rfl, fun _ => Function.update_self ..⟩
    | true =>
      rw [(hobj.accepted hacc).2.1]
      refine ⟨fun hsame => ?_, fun hnot => by cases hnot⟩
      have hlen : (s.channel o.ch).length = _ := congrArg List.length hsame
      rw [List.length_append, List.length_singleton] at hlen
      omega

instance (s : State ι) (e : Event ι) : Decidable (Enabled s e) :=
  match e with
  | .connect .. | .listen .. => inferInstanceAs (Decidable (_ = true ∧ _ = _))
  | .serve .. => inferInstanceAs (Decidable (_ = true ∧ ∀ _ ∈ _, _ ∉ _))
  | .resume _ => inferInstanceAs (Decidable (_ = true))
  | .accept .. =>
    inferInstanceAs (Decidable (_ = true ∧ _ ∈ _ ∧ _ = _ ∧ _ ≠ [] ∧ _ = _ ∧ _ = _ ∧ _ ≠ _))
  | .close .. => inferInstanceAs (Decidable (_ = true ∧ (_ ∈ _ ∨ _ ∈ _)))
  | .accepted .. => inferInstanceAs (Decidable (_ ∈ _ ∧ _ = true ∧ _ ∉ _))
  | .data .. => inferInstanceAs (Decidable (_ ∈ _ ∧ _ = false))

instance (s : State ι) (e : Event ι) : Decidable (serviceSystem.enabled s e) :=
  inferInstanceAs (Decidable (Enabled s e))

/-- A client listens and another one connects. -/
def openTrace : List (Event Bool) :=
  [.listen true 1, .connect false 2, .serve true (some 4), .resume true, .serve false (some 5),
    .resume false]

def openRun : State Bool := runTrace serviceSystem initial openTrace

theorem routed_iff_openRun :
    (next openRun (.data 5 3 0)).channel 2 = openRun.channel 2 ++ [⟨5, .data 3 0⟩] :=
  have hheld : (⟨5, 2, none, .socket⟩ : Obj) ∈ openRun.held false := by decide +kernel
  have h := routed_iff (s := openRun) (.run (.start rfl) (by decide +kernel))
  (h.2 false ⟨5, 2, none, .socket⟩ 3 0 hheld).mpr rfl

def acceptedObj : Obj := ⟨6, 7, some 8, .socket⟩

/-- The listening client accepts a connection. -/
def acceptRun : State Bool :=
  runTrace serviceSystem initial (openTrace ++
    [.accepted 4 6 "10.0.0.1", .accept true ⟨4, 1, none, .listen⟩ 7 8])

/-- And closes it. -/
def closeRun : State Bool :=
  runTrace serviceSystem acceptRun [.close true acceptedObj, .serve true none, .resume true]

/-- The service has no channel for the accepted socket, drops its data and does not close it. -/
theorem accepted_socket_unrouted :
    Reachable serviceSystem acceptRun ∧ acceptedObj ∈ acceptRun.held true ∧
      acceptRun.sockets 6 = none ∧ (next acceptRun (.data 6 3 0)).channel 7 = [] ∧
      Reachable serviceSystem closeRun ∧ acceptedObj ∈ closeRun.closed true ∧
      closeRun.closedFds = [] :=
  have hreach : Reachable serviceSystem acceptRun := .run (.start rfl) (by decide +kernel)
  ⟨hreach, by decide +kernel, by decide +kernel, by decide +kernel,
    .run hreach (by decide +kernel), by decide +kernel, by decide +kernel⟩

end SocketService
