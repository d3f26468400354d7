import Grt.SocketReads
import Grt.SocketService
import Grt.TransitionSystem

/-! The marks `sockets_closed` of `socket.lua` in one task: they are kept for fd numbers, and
the service may give a number again once the object that had it is closed. -/
namespace SocketCloseMarks

open LittleEndian TransitionSystem
open SocketReads (CSocket Returned)
open SocketService (ChannelId Fd Obj)

/-- The tables of the module, the socket objects that were returned and are open and those on
which `close` was called, and the fds of the `disconnect` commands sent. -/
structure Client (β : Type*) where
  sockets : Fd → Option β
  socketsClosed : Fd → Bool
  opened : List Obj
  closed : List Obj
  disconnects : List Fd

variable {β : Type*} (cs : CSocket β)

def newClient : Client β := ⟨fun _ => none, fun _ => false, [], [], []⟩

/-- An object is returned. -/
def Client.give (s : Client β) (o : Obj) : Client β := { s with opened := o :: s.opened }

/-- `M.connect` when the service has answered `r`; `assert` raises an error if it is `nil`. -/
def Client.connect (s : Client β) (r : Option Fd) (ch : ChannelId) : Client β :=
  match r with
  | some fd => s.give ⟨fd, ch, none, .socket⟩
  | none => s

/-- `listen_socket:accept` when the service has sent `fd`. -/
def Client.accept (s : Client β) (fd : Fd) (ch cmd : ChannelId) : Client β :=
  s.give ⟨fd, ch, some cmd, .socket⟩

/-- What a read on `o` sees, with the messages that come on its channel. -/
def Client.view (s : Client β) (o : Obj) (messages : List (List Byte)) : SocketReads.State β :=
  ⟨s.sockets o.fd, s.socketsClosed o.fd, messages⟩

/-- A read that returns leaves its buffer in `sockets`. -/
def Client.afterRead (s : Client β) (o : Obj) :
    Returned (SocketReads.State β) → Client β
  | none => s
  | some r => { s with sockets := Function.update s.sockets o.fd r.2.sockets }

/-- `socket:close`. Without a `__command` it raises an error when it comes to the call. -/
def Client.close (s : Client β) (o : Obj) : Client β :=
  if s.socketsClosed o.fd then s
  else
    let s := { s with
      sockets := Function.update s.sockets o.fd none
      socketsClosed := Function.update s.socketsClosed o.fd true }
    match o.command with
    | none => s
    | some _ => { s with disconnects := s.disconnects ++ [o.fd] }

inductive Event where
  | connect (r : Option Fd) (ch : ChannelId)
  | accept (fd : Fd) (ch cmd : ChannelId)
  | readbytes (o : Obj) (bytes : ℕ) (messages : List (List Byte))
  | readline (o : Obj) (sep : Option (List Byte)) (messages : List (List Byte))
  | close (o : Obj)

def next (s : Client β) : Event → Client β
  | .connect r ch => s.connect r ch
  | .accept fd ch cmd => s.accept fd ch cmd
  | .readbytes o bytes messages =>
    s.afterRead o (SocketReads.readbytes cs (s.view o messages) bytes)
  | .readline o sep messages => s.afterRead o (SocketReads.readline cs (s.view o messages) sep)
  | .close o =>
    { s.close o with
      opened := s.opened.erase o
      closed := o :: s.closed }

/-- `fd` is no open object's, and the channel is new. -/
def Client.Free (s : Client β) (fd : Fd) (ch : ChannelId) : Prop :=
  (∀ o ∈ s.opened, o.fd ≠ fd) ∧ ∀ o ∈ s.opened ++ s.closed, o.ch ≠ ch

def Enabled (s : Client β) : Event → Prop
  | .connect r ch => ∀ fd ∈ r, s.Free fd ch
  | .accept fd ch _ => s.Free fd ch
  | .readbytes o .. | .readline o .. | .close o => o ∈ s.opened ++ s.closed

def clientSystem : System (Client β) Event where
  start s := s = newClient
  enabled := Enabled
  next := next cs

/-- No open object has a number that is marked. -/
def Unmarked (s : Client β) : Prop := ∀ o ∈ s.opened, s.socketsClosed o.fd = false

/-- A read that returns `nil` has at least taken a message. -/
def NotCutOff (messages : List (List Byte)) (r : Returned (SocketReads.State β)) : Prop :=
  ∀ s, r = some (none, s) → s.messages.length < messages.length

/-- Reads of an open object are not cut off, closing one sends exactly one `disconnect`, and
closing it again sends none. -/
def StepOk (s : Client β) : Event → Prop
  | .connect .. | .accept .. => True
  | .readbytes o bytes messages =>
    o ∈ s.opened → NotCutOff messages (SocketReads.readbytes cs (s.view o messages) bytes)
  | .readline o sep messages =>
    o ∈ s.opened → NotCutOff messages (SocketReads.readline cs (s.view o messages) sep)
  | .close o =>
    (o ∈ s.opened → (next cs s (.close o)).disconnects = s.disconnects ++ [o.fd]) ∧
    (o ∈ s.closed → (next cs s (.close o)).disconnects = s.disconnects)

/-- No number comes again, and an open object is closed only if it came from `accept`. -/
def NoReuse (s : Client β) : Event → Prop
  | .connect r _ => ∀ fd ∈ r, ∀ o ∈ s.closed, o.fd ≠ fd
  | .accept fd .. => ∀ o ∈ s.closed, o.fd ≠ fd
  | .readbytes .. | .readline .. => True
  | .close o => o ∈ s.opened → o.command.isSome

/-- The marked numbers are those of the closed objects, and open objects have different ones. -/
structure Marks (s : Client β) : Prop where
  closed : ∀ fd, s.socketsClosed fd = true ↔ ∃ o ∈ s.closed, o.fd = fd
  opened : (s.opened.map Obj.fd).Nodup

variable {cs} {s : Client β} {o : Obj} {fd : Fd} {ch : ChannelId}

theorem newClient_marks : Marks (newClient : Client β) where
  closed _ := ⟨fun h => absurd h Bool.false_ne_true, fun ⟨_, h, _⟩ => absurd h List.not_mem_nil⟩
  opened := List.nodup_nil

theorem close_socketsClosed (s : Client β) (o : Obj) :
    (s.close o).socketsClosed = Function.update s.socketsClosed o.fd true := by
  rw [Client.close]
  split
  · rename_i h
    rw [← h, Function.update_eq_self]
  · cases o.command <;> rfl

theorem give_marks (h : Marks s) (hfree : ∀ o' ∈ s.opened, o'.fd ≠ o.fd) : Marks (s.give o) where
  closed := h.closed
  opened := by
    refine List.nodup_cons.mpr ⟨fun hmem => ?_, h.opened⟩
    obtain ⟨o', ho', heq⟩ := List.mem_map.mp hmem
    exact hfree o' ho' heq

theorem afterRead_marks (h : Marks s) (r : Returned (SocketReads.State β)) :
    Marks (s.afterRead o r) := by
  cases r with
  | none => exact h
  | some r => exact ⟨h.closed, h.opened⟩

theorem close_marks (h : Marks s) : Marks (next cs s (.close o)) where
  closed fd := by
    change (s.close o).socketsClosed fd = true ↔ ∃ x ∈ o :: s.closed, x.fd = fd
    rw [close_socketsClosed, Function.update_apply, List.exists_mem_cons_iff, ← h.closed]
    split
    · rename_i heq
      exact iff_of_true rfl (Or.inl heq.symm)
    · rename_i hne
      exact (or_iff_right fun heq => hne heq.symm).symm
  opened := h.opened.sublist (List.erase_sublist.map _)

theorem next_marks (e : Event) (h : Marks s) (he : Enabled s e) : Marks (next cs s e) := by
  cases e with
  | connect r ch =>
    cases r with
    | none => exact h
    | some fd => exact give_marks h (he fd rfl).1
  | accept fd ch cmd => exact give_marks h he.1
  | readbytes o bytes messages => exact afterRead_marks h _
  | readline o sep messages => exact afterRead_marks h _
  | close o => exact close_marks h

theorem read_takes_message {take : β → Option (List Byte) × β} {t t' : SocketReads.State β}
    (hopen : t.socketsClosed = false) (h : SocketReads.read cs take t = some (none, t')) :
    t'.messages.length < t.messages.length := by
  have waiting {u : SocketReads.State β}
      (h : SocketReads.readWaiting cs take u = some (none, t')) (hu : u.socketsClosed = false) :
      t'.messages.length < u.messages.length := by
    rw [SocketReads.readWaiting, SocketReads.socketWait] at h
    cases hm : u.messages with
    | nil =>
      rw [hm] at h
      cases h
    | cons msg messages =>
      rw [hm] at h
      simp only [hu, Bool.false_eq_true, if_false, Option.some.injEq, Prod.mk.injEq] at h
      rw [← h.2]
      exact Nat.lt_succ_self _
  rw [SocketReads.read, if_neg (by rw [hopen]; exact Bool.false_ne_true)] at h
  split at h
  · exact waiting h hopen
  · dsimp only at h
    split at h
    · cases h
    · have hlt := waiting h hopen
      exact hlt

theorem give_unmarked (h : Unmarked s) (hm : Marks s) :
    Unmarked (s.give o) ↔ ∀ x ∈ s.closed, x.fd ≠ o.fd := by
  have hfree : s.socketsClosed o.fd = false ↔ ∀ x ∈ s.closed, x.fd ≠ o.fd := by
    rw [← Bool.not_eq_true, hm.closed]
    simp only [not_exists, not_and, ne_eq]
  rw [← hfree]
  exact List.forall_mem_cons.trans (and_iff_left h)

theorem afterRead_unmarked (h : Unmarked s) (r : Returned (SocketReads.State β)) :
    Unmarked (s.afterRead o r) := by
  cases r with
  | none => exact h
  | some r => exact h

/-- An open object sends its `disconnect` if it came from `accept`. -/
theorem close_disconnects (h : s.socketsClosed o.fd = false) :
    (s.close o).disconnects = s.disconnects ++ [o.fd] ↔ o.command.isSome := by
  rw [Client.close, if_neg (by rw [h]; exact Bool.false_ne_true)]
  cases o.command with
  | none => simp
  | some cmd => exact iff_of_true rfl rfl

theorem close_again (h : s.socketsClosed o.fd = true) : s.close o = s := if_pos h

theorem close_unmarked (h : Unmarked s) (hm : Marks s) (ho : o ∈ s.opened ++ s.closed) :
    Unmarked (next cs s (.close o)) := by
  intro x hx
  obtain ⟨hne, hmem⟩ := (List.Nodup.mem_erase_iff hm.opened.of_map).mp hx
  change (s.close o).socketsClosed x.fd = false
  rw [close_socketsClosed, Function.update_of_ne, h x hmem]
  intro heq
  rcases List.mem_append.mp ho with hopen | hclosed
  · exact hne (List.inj_on_of_nodup_map hm.opened hmem hopen heq)
  · have hmarked := (hm.closed x.fd).mpr ⟨o, hclosed, heq.symm⟩
    rw [h x hmem] at hmarked
    cases hmarked

theorem close_stepOk_iff (h : Unmarked s) (hm : Marks s) :
    StepOk cs s (.close o) ↔ NoReuse s (.close o) := by
  constructor
  · rintro ⟨hfirst, -⟩ hopen
    exact (close_disconnects (h o hopen)).mp (hfirst hopen)
  · intro hcommand
    constructor
    · intro hopen
      exact (close_disconnects (h o hopen)).mpr (hcommand hopen)
    · intro hclosed
      change (s.close o).disconnects = s.disconnects
      rw [close_again ((hm.closed o.fd).mpr ⟨o, hclosed, rfl⟩)]

theorem step_iff (s : Client β) (e : Event) (hm : Marks s) (h : Unmarked s) (he : Enabled s e) :
    StepOk cs s e ∧ Unmarked (next cs s e) ↔ NoReuse s e := by
  cases e with
  | connect r ch =>
    cases r with
    | none =>
      refine iff_of_true ⟨trivial, h⟩ fun fd hfd => ?_
      cases hfd
    | some fd =>
      rw [NoReuse]
      simp only [Option.mem_some_iff, forall_eq']
      exact (and_iff_right trivial).trans (give_unmarked h hm)
  | accept fd ch cmd => exact (and_iff_right trivial).trans (give_unmarked h hm)
  | readbytes o bytes messages =>
    refine iff_of_true ⟨fun ho t ht => ?_, afterRead_unmarked h _⟩ trivial
    exact read_takes_message (t := s.view o messages) (h o ho) ht
  | readline o sep messages =>
    refine iff_of_true ⟨fun ho t ht => ?_, afterRead_unmarked h _⟩ trivial
    exact read_takes_message (t := s.view o messages) (h o ho) ht
  | close o =>
    rw [close_stepOk_iff h hm]
    exact and_iff_left (close_unmarked h hm he)

/-- In a run of calls, no open object has a marked number, no read of one is cut off, and each
object sends one `disconnect` when it is closed first and none later, if and only if no number
comes again and no object of `M.connect` is closed. -/
theorem close_marks_iff {es : List Event} (h : ValidTrace (clientSystem cs) newClient es) :
    Throughout (clientSystem cs) Unmarked (StepOk cs) newClient es ↔
      ValidTrace ((clientSystem cs).when NoReuse) newClient es :=
  throughout_iff_of_invariant (fun _ e => next_marks e) step_iff newClient_marks
    (List.forall_mem_nil _) h

instance (s : Client β) (fd : Fd) (ch : ChannelId) : Decidable (s.Free fd ch) :=
  inferInstanceAs (Decidable (_ ∧ _))

instance (s : Client β) (e : Event) : Decidable (Enabled s e) := by
  cases e with
  | connect r ch => cases r <;> unfold Enabled <;> infer_instance
  | _ => unfold Enabled; infer_instance

instance (s : Client β) (e : Event) : Decidable (NoReuse s e) := by
  cases e with
  | connect r ch => cases r <;> unfold NoReuse <;> infer_instance
  | _ => unfold NoReuse; infer_instance

instance (s : Client β) (e : Event) : Decidable ((clientSystem cs).enabled s e) :=
  inferInstanceAs (Decidable (Enabled s e))

def acceptedObj (fd : Fd) (ch cmd : ChannelId) : Obj := ⟨fd, ch, some cmd, .socket⟩

def sampleRun : List Event :=
  [.accept 5 1 2, .connect (some 6) 3, .readbytes (acceptedObj 5 1 2) 1 [[7]],
    .close (acceptedObj 5 1 2), .close (acceptedObj 5 1 2)]

theorem close_marks_iff_sampleRun :
    Throughout (clientSystem SocketReads.listSocket) Unmarked (StepOk SocketReads.listSocket)
      newClient sampleRun :=
  (close_marks_iff (by decide)).mpr (by decide)

/-- An object with fd 5 is closed, and `accept` gets 5 again. -/
def reuseRun : List Event :=
  [.accept 5 1 2, .close (acceptedObj 5 1 2), .accept 5 3 4, .close (acceptedObj 5 3 4)]

/-- An object of `M.connect` is closed. -/
def connectRun : List Event := [.connect (some 6) 3, .close ⟨6, 3, none, .socket⟩]

/-- The second object with fd 5 sends no `disconnect`, and neither does that of `M.connect`. -/
theorem reuse_closes_silently :
    ValidTrace (clientSystem SocketReads.listSocket) newClient reuseRun ∧
    (runTrace (clientSystem SocketReads.listSocket) newClient (reuseRun.take 3)).opened =
      [acceptedObj 5 3 4] ∧
    (runTrace (clientSystem SocketReads.listSocket) newClient (reuseRun.take 3)).socketsClosed 5 =
      true ∧
    (runTrace (clientSystem SocketReads.listSocket) newClient reuseRun).disconnects = [5] ∧
    ¬ Throughout (clientSystem SocketReads.listSocket) Unmarked (StepOk SocketReads.listSocket)
      newClient reuseRun ∧
    ValidTrace (clientSystem SocketReads.listSocket) newClient connectRun ∧
    (runTrace (clientSystem SocketReads.listSocket) newClient connectRun).disconnects = [] := by
  refine ⟨by decide, by decide, by decide, by decide, fun h => ?_, by decide, by decide⟩
  have hmarked := h.2.2.2.2.2.2.1 (acceptedObj 5 3 4) (List.mem_cons_self ..)
  exact absurd hmarked (by decide)

end SocketCloseMarks
