import Grt.LittleEndian
import Mathlib.Data.List.Basic

/-! Reads on a socket object of `socket.lua`: `readbytes` and `readline` look in the buffer of
the socket and wait for one message of the service if it does not hold enough. `csocket`, which
keeps the buffers, is a parameter. The code knows of a closed socket by the mark of its fd, which
an earlier object with that fd may have left. -/
namespace SocketReads

open LittleEndian

/-- What a read asks for: a number of bytes, or the bytes up to a separator. -/
inductive Request where
  | bytes (n : ℕ)
  | line (sep : List Byte)

/-- The line before the first `sep`, and what comes after it. -/
def cutLine (sep : List Byte) : List Byte → Option (List Byte × List Byte)
  | [] => if sep = [] then some ([], []) else none
  | c :: s =>
    if sep.isPrefixOf (c :: s) then some ([], (c :: s).drop sep.length)
    else (cutLine sep s).map fun r => (c :: r.1, r.2)

/-- The next bytes or the next line of a byte string, and what comes after them. -/
def Request.cut : Request → List Byte → Option (List Byte × List Byte)
  | .bytes n, s => if n ≤ s.length then some (s.take n, s.drop n) else none
  | .line sep, s => cutLine sep s

/-- The buffers of `csocket`. `push` makes one where there is none yet. -/
structure CSocket (β : Type*) where
  push : Option β → List Byte → β
  pop : β → ℕ → Option (List Byte) × β
  readline : β → List Byte → Option (List Byte) × β

/-- `sockets` and `socketsClosed` are the entries of the fd in `sockets` and `sockets_closed`, and
`messages` those that come on `__ch`, in order, whether they have arrived yet or not. -/
structure State (β : Type*) where
  sockets : Option β
  socketsClosed : Bool
  messages : List (List Byte)

/-- What a call returns and the state it leaves; `none` if it never returns. -/
abbrev Returned (σ : Type*) := Option (Option (List Byte) × σ)

inductive Call where
  | readbytes (bytes : ℕ)
  | readline (sep : Option (List Byte))
  | close

variable {β : Type*} (cs : CSocket β)

/-- The buffer that the next message leaves in `sockets`; `none` if none ever comes. -/
def socketWait (s : State β) : Option (β × State β) :=
  match s.messages with
  | [] => none
  | msg :: messages =>
    let buffer := cs.push s.sockets msg
    some (buffer, { s with sockets := some buffer, messages := messages })

/-- The part of a read from `socket_wait` on. -/
def readWaiting (take : β → Option (List Byte) × β) (s : State β) : Returned (State β) :=
  match socketWait cs s with
  | none => none
  | some (buffer, s) =>
    if s.socketsClosed then some (none, { s with sockets := none })
    else
      let t := take buffer
      some (t.1, { s with sockets := some t.2 })

/-- `readbytes` and `readline` around their `csocket` function. -/
def read (take : β → Option (List Byte) × β) (s : State β) : Returned (State β) :=
  if s.socketsClosed then some (none, { s with sockets := none })
  else
    match s.sockets with
    | none => readWaiting cs take s
    | some buffer =>
      let t := take buffer
      match t.1 with
      | some data => some (some data, { s with sockets := some t.2 })
      | none => readWaiting cs take { s with sockets := some t.2 }

def readbytes (s : State β) (bytes : ℕ) : Returned (State β) :=
  read cs (fun buffer => cs.pop buffer bytes) s

def readline (s : State β) (sep : Option (List Byte)) : Returned (State β) :=
  read cs (fun buffer => cs.readline buffer (sep.getD [10])) s

/-- `socket:close` up to the `disconnect` command. -/
def close (s : State β) : State β :=
  if s.socketsClosed then s else { s with sockets := none, socketsClosed := true }

/-- A socket object and the entries of its fd. The code does not have `closed`, which is set once
`close` has been called on the object itself. -/
structure Socket (β : Type*) extends State β where
  closed : Bool

/-- A read leaves the object as closed or open as it was. -/
def Socket.after (s : Socket β) (r : Returned (State β)) : Returned (Socket β) :=
  r.map fun r => (r.1, ⟨r.2, s.closed⟩)

def Socket.call (s : Socket β) : Call → Returned (Socket β)
  | .readbytes bytes => s.after (readbytes cs s.toState bytes)
  | .readline sep => s.after (readline cs s.toState sep)
  | .close => some (none, ⟨close s.toState, true⟩)

/-- The values that calls return one after another, up to one that never returns. -/
def answers {σ : Type*} (call : σ → Call → Returned σ) (s : σ) :
    List Call → List (Option (Option (List Byte)))
  | [] => []
  | c :: calls =>
    match call s c with
    | none => [none]
    | some r => some r.1 :: answers call r.2 calls

/-- An open socket as its bytes to come; a read waits until they are there. -/
structure Stream where
  bytes : List Byte
  closed : Bool

def Stream.read (s : Stream) (request : Request) : Returned Stream :=
  if s.closed then some (none, s)
  else (request.cut s.bytes).map fun r => (some r.1, { s with bytes := r.2 })

def Stream.call (s : Stream) : Call → Returned Stream
  | .readbytes bytes => s.read (.bytes bytes)
  | .readline sep => s.read (.line (sep.getD [10]))
  | .close => some (none, { s with closed := true })

/-- `take` removes and returns what is asked for if the buffer holds it, and changes nothing
otherwise; `contents` are the bytes that a buffer holds. -/
structure Takes (contents : β → List Byte) (request : Request)
    (take : β → Option (List Byte) × β) : Prop where
  data : ∀ b, (take b).1 = (request.cut (contents b)).map Prod.fst
  rest : ∀ b, contents (take b).2 = (request.cut (contents b)).elim (contents b) Prod.snd

/-- What is assumed of `csocket`. -/
structure CSocket.Lawful (contents : β → List Byte) : Prop where
  push : ∀ b msg, contents (cs.push b msg) = b.elim [] contents ++ msg
  pop : ∀ n, Takes contents (.bytes n) fun b => cs.pop b n
  readline : ∀ sep, Takes contents (.line sep) fun b => cs.readline b sep

/-- The bytes in the buffer of the socket. -/
def State.held (contents : β → List Byte) (s : State β) : List Byte := s.sockets.elim [] contents

def Socket.stream (contents : β → List Byte) (s : Socket β) : Stream :=
  ⟨s.held contents ++ s.messages.flatten, s.closed⟩

/-- The buffer with the next message is enough; or no message comes any more and nothing can be
read. -/
def State.CoversWait (contents : β → List Byte) (s : State β) (request : Request) : Prop :=
  match s.messages with
  | [] => request.cut (s.held contents) = none
  | msg :: _ => (request.cut (s.held contents ++ msg)).isSome

/-- The fd has no mark, and the read does without a message or with one. -/
def State.Covers (contents : β → List Byte) (s : State β) (request : Request) : Prop :=
  s.socketsClosed = false ∧
    (((s.sockets.map contents).bind request.cut).isSome ∨ s.CoversWait contents request)

def Socket.CoversCall (contents : β → List Byte) (s : Socket β) : Call → Prop
  | .readbytes bytes => s.closed = true ∨ s.Covers contents (.bytes bytes)
  | .readline sep => s.closed = true ∨ s.Covers contents (.line (sep.getD [10]))
  | .close => True

/-- At every read of the run on a socket that is not closed, its fd has no mark of an earlier
object and one message at most is needed. -/
def OneWaitEnough (contents : β → List Byte) (s : Socket β) : List Call → Prop
  | [] => True
  | c :: calls => s.CoversCall contents c ∧
      match s.call cs c with
      | none => True
      | some r => OneWaitEnough contents r.2 calls

instance (contents : β → List Byte) (s : State β) (request : Request) :
    Decidable (s.Covers contents request) := by
  unfold State.Covers State.CoversWait
  cases s.messages <;> infer_instance

instance (contents : β → List Byte) (s : Socket β) : ∀ c, Decidable (s.CoversCall contents c)
  | .readbytes bytes => inferInstanceAs (Decidable (_ ∨ s.Covers contents (.bytes bytes)))
  | .readline sep => inferInstanceAs (Decidable (_ ∨ s.Covers contents (.line (sep.getD [10]))))
  | .close => isTrue trivial

instance decidableOneWaitEnough (contents : β → List Byte) :
    ∀ s calls, Decidable (OneWaitEnough cs contents s calls)
  | _, [] => isTrue trivial
  | s, c :: calls => by
    have hrest : ∀ s, Decidable (OneWaitEnough cs contents s calls) := fun s =>
      decidableOneWaitEnough contents s calls
    unfold OneWaitEnough
    cases s.call cs c <;> infer_instance

theorem length_le_of_cutLine {sep s : List Byte} {r : List Byte × List Byte}
    (h : cutLine sep s = some r) : sep.length ≤ s.length := by
  induction s generalizing r with
  | nil =>
    rw [cutLine] at h
    split at h
    · rename_i hsep
      rw [hsep]
    · cases h
  | cons c s ih =>
    rw [cutLine] at h
    split at h
    · rename_i hprefix
      exact (List.isPrefixOf_iff_prefix.mp hprefix).length_le
    · obtain ⟨r', hr', -⟩ := Option.map_eq_some_iff.mp h
      exact (ih hr').trans (Nat.le_succ _)

/-- What can be cut off stays the same when more bytes follow. -/
theorem cutLine_append {sep s line rest : List Byte} (h : cutLine sep s = some (line, rest))
    (t : List Byte) : cutLine sep (s ++ t) = some (line, rest ++ t) := by
  induction s generalizing line rest with
  | nil =>
    rw [cutLine] at h
    split at h
    · rename_i hsep
      cases h
      subst hsep
      cases t <;> rfl
    · cases h
  | cons c s ih =>
    rw [cutLine] at h
    rw [List.cons_append, cutLine]
    split at h
    · rename_i hprefix
      cases h
      have hle := List.isPrefixOf_iff_prefix.mp hprefix
      have hlong : sep.isPrefixOf (c :: (s ++ t)) = true :=
        List.isPrefixOf_iff_prefix.mpr (hle.trans (List.prefix_append (c :: s) t))
      rw [if_pos hlong, ← List.cons_append, List.drop_append_of_le_length hle.length_le]
    · rename_i hprefix
      cases hcut : cutLine sep s with
      | none =>
        rw [hcut] at h
        cases h
      | some r =>
        rw [hcut] at h
        cases h
        have hshort : ¬ sep.isPrefixOf (c :: (s ++ t)) = true := by
          intro hlong
          have hle : sep.length ≤ (c :: s).length :=
            (length_le_of_cutLine hcut).trans (Nat.le_succ _)
          exact hprefix (List.isPrefixOf_iff_prefix.mpr (List.prefix_of_prefix_length_le
            (List.isPrefixOf_iff_prefix.mp hlong) (List.prefix_append (c :: s) t) hle))
        rw [if_neg hshort, ih hcut]
        rfl

theorem Request.cut_append {request : Request} {s data rest : List Byte}
    (h : request.cut s = some (data, rest)) (t : List Byte) :
    request.cut (s ++ t) = some (data, rest ++ t) := by
  cases request with
  | bytes n =>
    rw [cut] at h ⊢
    split at h
    · rename_i hle
      cases h
      rw [if_pos (by rw [List.length_append]; omega), List.take_append_of_le_length hle,
        List.drop_append_of_le_length hle]
    · cases h
  | line sep => exact cutLine_append h t

variable {cs} {contents : β → List Byte} {request : Request}
  {take : β → Option (List Byte) × β} {s s' : State β} {msg data rest : List Byte}
  {messages : List (List Byte)}

theorem read_marked (h : s.socketsClosed = true) :
    read cs take s = some (none, { s with sockets := none }) := if_pos h

variable (cs) in
/-- The buffer holds enough. -/
theorem read_buffered (htake : Takes contents request take) (h : s.socketsClosed = false) {b : β}
    (hb : s.sockets = some b) (hcut : request.cut (contents b) = some (data, rest)) :
    ∃ b', read cs take s = some (some data, { s with sockets := some b' }) ∧
      contents b' = rest := by
  have hdata := htake.data b
  have hrest := htake.rest b
  rw [hcut] at hdata hrest
  refine ⟨(take b).2, ?_, hrest⟩
  rw [read, if_neg (by rw [h]; exact Bool.false_ne_true), hb]
  simp only [hdata, Option.map_some]

variable (cs) in
/-- The buffer does not hold enough, and the call waits with the bytes it holds. -/
theorem read_short (htake : Takes contents request take) (h : s.socketsClosed = false)
    (hshort : ¬ ((s.sockets.map contents).bind request.cut).isSome) :
    ∃ s', read cs take s = readWaiting cs take s' ∧ s'.held contents = s.held contents ∧
      s'.messages = s.messages ∧ s'.socketsClosed = false := by
  have hnone : ∀ b, s.sockets = some b → request.cut (contents b) = none := by
    intro b hb
    rw [hb] at hshort
    exact Option.not_isSome_iff_eq_none.mp hshort
  rw [read, if_neg (by rw [h]; exact Bool.false_ne_true)]
  cases hb : s.sockets with
  | none => exact ⟨s, rfl, rfl, rfl, h⟩
  | some b =>
    have hdata := htake.data b
    have hrest := htake.rest b
    rw [hnone b hb] at hdata hrest
    refine ⟨{ s with sockets := some (take b).2 }, ?_, ?_, rfl, h⟩
    · simp only [hdata, Option.map_none]
    · rw [State.held, State.held, hb]
      exact hrest

theorem readWaiting_nil (h : s.messages = []) : readWaiting cs take s = none := by
  rw [readWaiting, socketWait, h]

/-- One message is taken, and what it completes is returned. -/
theorem readWaiting_cons (hcs : cs.Lawful contents) (htake : Takes contents request take)
    (hunmarked : s.socketsClosed = false) (h : s.messages = msg :: messages) :
    ∃ s', readWaiting cs take s =
        some ((request.cut (s.held contents ++ msg)).map Prod.fst, s') ∧
      s'.held contents =
        (request.cut (s.held contents ++ msg)).elim (s.held contents ++ msg) Prod.snd ∧
      s'.messages = messages ∧ s'.socketsClosed = false := by
  have hpush : contents (cs.push s.sockets msg) = s.held contents ++ msg := hcs.push s.sockets msg
  have hdata := htake.data (cs.push s.sockets msg)
  have hrest := htake.rest (cs.push s.sockets msg)
  rw [hpush] at hdata hrest
  refine ⟨{ s with sockets := some (take (cs.push s.sockets msg)).2, messages := messages },
    ?_, hrest, rfl, hunmarked⟩
  rw [readWaiting, socketWait, h]
  simp only [hunmarked, hdata, Bool.false_eq_true, if_false]

/-- The stream has the bytes of the buffer and of the messages. -/
def SameBytes (contents : β → List Byte) (s : State β) (t : Stream) : Prop :=
  t.bytes = s.held contents ++ s.messages.flatten

/-- An open stream and a socket whose fd has no mark. -/
structure Agrees (contents : β → List Byte) (s : State β) (t : Stream) : Prop where
  opened : t.closed = false
  unmarked : s.socketsClosed = false
  bytes : SameBytes contents s t

/-- Both return alike and agree afterwards, or neither returns. -/
def SameReturn {σ : Type*} (R : σ → Stream → Prop) : Returned σ → Returned Stream → Prop :=
  Option.Rel fun a b => a.1 = b.1 ∧ R a.2 b.2

variable {t : Stream}

theorem streamRead_open (h : t.closed = false) : t.read request =
    (request.cut t.bytes).map fun r => (some r.1, { t with bytes := r.2 }) :=
  if_neg (by rw [h]; exact Bool.false_ne_true)

theorem streamRead_cut (h : t.closed = false) (hcut : request.cut t.bytes = some (data, rest)) :
    t.read request = some (some data, { t with bytes := rest }) := by
  rw [streamRead_open h, hcut]
  rfl

/-- An open stream never returns `nil`. -/
theorem streamRead_ne_nil (h : t.closed = false) : (t.read request).map Prod.fst ≠ some none := by
  rw [streamRead_open h]
  cases request.cut t.bytes with
  | none => exact (Option.some_ne_none _).symm
  | some r => intro heq; cases heq

theorem read_buffered_agrees (htake : Takes contents request take) (h : Agrees contents s t)
    (hbuffered : ((s.sockets.map contents).bind request.cut).isSome) :
    SameReturn (Agrees contents) (read cs take s) (t.read request) := by
  obtain ⟨⟨data, rest⟩, hsome⟩ := Option.isSome_iff_exists.mp hbuffered
  obtain ⟨held, hheld, hcut⟩ := Option.bind_eq_some_iff.mp hsome
  obtain ⟨b, hb, rfl⟩ := Option.map_eq_some_iff.mp hheld
  obtain ⟨b', hread, hb'⟩ := read_buffered cs htake h.unmarked hb hcut
  have hbytes := h.bytes
  rw [SameBytes, State.held, hb] at hbytes
  rw [hread, streamRead_cut h.opened (hbytes ▸ Request.cut_append hcut _)]
  refine .some ⟨rfl, h.opened, h.unmarked, ?_⟩
  change rest ++ _ = contents b' ++ _
  rw [hb']

theorem readWaiting_agrees (hcs : cs.Lawful contents) (htake : Takes contents request take)
    (h : Agrees contents s t) (hwait : s.CoversWait contents request) :
    SameReturn (Agrees contents) (readWaiting cs take s) (t.read request) := by
  have hbytes := h.bytes
  rw [SameBytes] at hbytes
  rw [State.CoversWait] at hwait
  cases hm : s.messages with
  | nil =>
    rw [hm] at hwait hbytes
    rw [List.flatten_nil, List.append_nil] at hbytes
    rw [readWaiting_nil hm, streamRead_open h.opened, hbytes]
    simp only at hwait
    rw [hwait]
    exact .none
  | cons msg messages =>
    rw [hm] at hwait hbytes
    obtain ⟨⟨data, rest⟩, hcut⟩ := Option.isSome_iff_exists.mp hwait
    obtain ⟨s', hcall, hheld, hmessages, hmark⟩ := readWaiting_cons hcs htake h.unmarked hm
    rw [hcut] at hcall hheld
    rw [List.flatten_cons, ← List.append_assoc] at hbytes
    rw [hcall, streamRead_cut h.opened (hbytes ▸ Request.cut_append hcut _)]
    refine .some ⟨rfl, h.opened, hmark, ?_⟩
    rw [SameBytes, hheld, hmessages]
    rfl

/-- If one message is not enough, the call returns `nil`, or it waits where nothing has to be
waited for. -/
theorem readWaiting_differs (hcs : cs.Lawful contents) (htake : Takes contents request take)
    (h : Agrees contents s t) (hwait : ¬ s.CoversWait contents request) :
    (readWaiting cs take s).map Prod.fst ≠ (t.read request).map Prod.fst := by
  have hbytes := h.bytes
  rw [SameBytes] at hbytes
  rw [State.CoversWait] at hwait
  cases hm : s.messages with
  | nil =>
    rw [hm] at hwait hbytes
    rw [List.flatten_nil, List.append_nil] at hbytes
    obtain ⟨r, hcut⟩ := Option.ne_none_iff_exists'.mp hwait
    rw [readWaiting_nil hm, streamRead_open h.opened, hbytes, hcut]
    exact (Option.some_ne_none _).symm
  | cons msg messages =>
    rw [hm] at hwait
    obtain ⟨s', hcall, -⟩ := readWaiting_cons hcs htake h.unmarked hm
    rw [Option.not_isSome_iff_eq_none.mp hwait] at hcall
    rw [hcall]
    exact (streamRead_ne_nil h.opened).symm

/-- An open socket whose fd has a mark is read as a closed one. -/
theorem read_marked_differs (hmark : s.socketsClosed = true) (hopen : t.closed = false) :
    (read cs take s).map Prod.fst ≠ (t.read request).map Prod.fst := by
  rw [read_marked hmark]
  exact (streamRead_ne_nil hopen).symm

/-- A read that is covered returns as on the stream, and one that is not does not. -/
theorem read_spec (hcs : cs.Lawful contents) (htake : Takes contents request take)
    (hopen : t.closed = false) (hbytes : SameBytes contents s t) :
    (s.Covers contents request →
      SameReturn (Agrees contents) (read cs take s) (t.read request)) ∧
    (¬ s.Covers contents request →
      (read cs take s).map Prod.fst ≠ (t.read request).map Prod.fst) := by
  cases hmark : s.socketsClosed with
  | true =>
    refine ⟨fun hcovers => ?_, fun _ => read_marked_differs hmark hopen⟩
    exact absurd (hmark.symm.trans hcovers.1) (by decide)
  | false =>
    have h : Agrees contents s t := ⟨hopen, hmark, hbytes⟩
    by_cases hbuffered : ((s.sockets.map contents).bind request.cut).isSome
    · exact ⟨fun _ => read_buffered_agrees htake h hbuffered,
        fun hnot => absurd ⟨hmark, Or.inl hbuffered⟩ hnot⟩
    · obtain ⟨s', hread, hheld, hmessages, hmark'⟩ := read_short cs htake hmark hbuffered
      have h' : Agrees contents s' t := by
        refine ⟨hopen, hmark', ?_⟩
        rw [SameBytes, hheld, hmessages]
        exact hbytes
      have hwait : s.Covers contents request ↔ s'.CoversWait contents request := by
        have hsame : s'.CoversWait contents request = s.CoversWait contents request := by
          rw [State.CoversWait, State.CoversWait, hheld, hmessages]
        rw [hsame, State.Covers, hmark]
        simp [hbuffered]
      rw [hread, hwait]
      exact ⟨readWaiting_agrees hcs htake h', readWaiting_differs hcs htake h'⟩

theorem close_marked (s : State β) : (close s).socketsClosed = true := by
  rw [close]
  split
  · assumption
  · rfl

variable {o : Socket β}

/-- The stream is closed with its socket, whose fd then has the mark, or has its bytes. -/
structure Follows (contents : β → List Byte) (o : Socket β) (t : Stream) : Prop where
  closed : t.closed = o.closed
  marked : o.closed = true → o.socketsClosed = true
  bytes : o.closed = false → SameBytes contents o.toState t

theorem after_spec (hcs : cs.Lawful contents) (htake : Takes contents request take)
    (h : Follows contents o t) :
    (o.closed = true ∨ o.Covers contents request →
      SameReturn (Follows contents) (o.after (read cs take o.toState)) (t.read request)) ∧
    (¬ (o.closed = true ∨ o.Covers contents request) →
      (o.after (read cs take o.toState)).map Prod.fst ≠ (t.read request).map Prod.fst) := by
  have hfst : ∀ r, (o.after r).map Prod.fst = r.map Prod.fst := fun r => by
    cases r <;> rfl
  cases hclosed : o.closed with
  | true =>
    refine ⟨fun _ => ?_, fun hnot => absurd (Or.inl rfl) hnot⟩
    rw [read_marked (h.marked hclosed), Stream.read, if_pos (h.closed.trans hclosed)]
    refine .some ⟨rfl, h.closed, fun _ => h.marked hclosed, fun hopen => ?_⟩
    exact absurd (hopen.symm.trans hclosed) Bool.false_ne_true
  | false =>
    obtain ⟨hcovered, huncovered⟩ :=
      read_spec hcs htake (h.closed.trans hclosed) (h.bytes hclosed)
    rw [hfst]
    refine ⟨fun hcovers => ?_, fun hnot => huncovered fun hc => hnot (Or.inr hc)⟩
    have hsame := hcovered (hcovers.resolve_left Bool.false_ne_true)
    generalize read cs take o.toState = a, t.read request = b at hsame
    cases hsame with
    | none => exact .none
    | some hab =>
      refine .some ⟨hab.1, hab.2.opened.trans hclosed.symm, fun hc => ?_, fun _ => hab.2.bytes⟩
      exact absurd (hclosed.symm.trans hc) Bool.false_ne_true

theorem call_spec (hcs : cs.Lawful contents) (h : Follows contents o t) (c : Call) :
    (o.CoversCall contents c → SameReturn (Follows contents) (o.call cs c) (t.call c)) ∧
    (¬ o.CoversCall contents c →
      (o.call cs c).map Prod.fst ≠ (t.call c).map Prod.fst) := by
  cases c with
  | readbytes bytes => exact after_spec hcs (hcs.pop bytes) h
  | readline sep => exact after_spec hcs (hcs.readline _) h
  | close =>
    refine ⟨fun _ => .some ⟨rfl, rfl, fun _ => close_marked o.toState, fun hopen => ?_⟩,
      fun hnot => absurd trivial hnot⟩
    exact absurd hopen.symm Bool.false_ne_true

theorem head?_answers {σ : Type*} (call : σ → Call → Returned σ) (s : σ)
    (c : Call) (calls : List Call) :
    (answers call s (c :: calls)).head? = some ((call s c).map Prod.fst) := by
  rw [answers]
  cases call s c <;> rfl

theorem answers_agree_iff (hcs : cs.Lawful contents) {calls : List Call} :
    ∀ {o t}, Follows contents o t →
      (answers (Socket.call cs) o calls = answers Stream.call t calls ↔
        OneWaitEnough cs contents o calls) := by
  induction calls with
  | nil => exact fun _ => iff_of_true rfl trivial
  | cons c calls ih =>
    intro o t h
    obtain ⟨hcovered, huncovered⟩ := call_spec hcs h c
    by_cases hc : o.CoversCall contents c
    · have hsame := hcovered hc
      rw [answers, answers, OneWaitEnough]
      generalize o.call cs c = a, t.call c = b at hsame
      cases hsame with
      | none => exact iff_of_true rfl ⟨hc, trivial⟩
      | some hab =>
        simp only [hab.1, List.cons_inj_right, ih hab.2]
        exact ⟨fun hrest => ⟨hc, hrest⟩, And.right⟩
    · refine iff_of_false (fun heq => huncovered hc ?_) fun hall => hc hall.1
      have hhead := congrArg List.head? heq
      rwa [head?_answers, head?_answers, Option.some_inj] at hhead

/-- The calls on an open socket return what they would return on the stream of its bytes if and
only if no earlier object has left a mark on its fd and no read needs more than one message. -/
theorem reads_on_stream_iff (hcs : cs.Lawful contents) (o : Socket β) (hopen : o.closed = false)
    (calls : List Call) :
    answers (Socket.call cs) o calls = answers Stream.call (o.stream contents) calls ↔
      OneWaitEnough cs contents o calls := by
  refine answers_agree_iff hcs ⟨rfl, fun hclosed => ?_, fun _ => rfl⟩
  exact absurd (hopen.symm.trans hclosed) Bool.false_ne_true

def takeBytes (request : Request) (b : List Byte) : Option (List Byte) × List Byte :=
  match request.cut b with
  | some (data, rest) => (some data, rest)
  | none => (none, b)

theorem takeBytes_takes (request : Request) : Takes id request (takeBytes request) where
  data b := by
    rw [takeBytes, id]
    cases request.cut b <;> rfl
  rest b := by
    rw [takeBytes, id, id]
    cases request.cut b <;> rfl

/-- Buffers that are the lists of their bytes. -/
def listSocket : CSocket (List Byte) where
  push b msg := b.getD [] ++ msg
  pop b n := takeBytes (.bytes n) b
  readline b sep := takeBytes (.line sep) b

theorem listSocket_lawful : listSocket.Lawful id where
  push b msg := by cases b <;> rfl
  pop n := takeBytes_takes (.bytes n)
  readline sep := takeBytes_takes (.line sep)

def openSocket (messages : List (List Byte)) : Socket (List Byte) where
  sockets := none
  socketsClosed := false
  messages := messages
  closed := false

/-- Two messages, of which the first ends within the second request. -/
theorem reads_on_stream_iff_sample :
    answers (Socket.call listSocket) (openSocket [[1, 2, 3], [4, 10, 5]])
        [.readbytes 2, .readline none, .readbytes 1, .close, .readbytes 1] =
      [some (some [1, 2]), some (some [3, 4]), some (some [5]), some none, some none] :=
  ((reads_on_stream_iff listSocket_lawful (openSocket [[1, 2, 3], [4, 10, 5]]) rfl _).mpr
    (by decide)).trans rfl

/-- Two bytes come in two messages: the call waits for the first one only and returns `nil`. -/
theorem two_messages_nil :
    answers (Socket.call listSocket) (openSocket [[1], [2]]) [.readbytes 2] = [some none] ∧
    answers Stream.call ((openSocket [[1], [2]]).stream id) [.readbytes 2] =
      [some (some [1, 2])] ∧
    (openSocket [[1], [2]]).closed = false ∧ (openSocket [[1], [2]]).socketsClosed = false :=
  ⟨rfl, rfl, rfl, rfl⟩

/-- The mark of an earlier object makes an open socket return `nil` with its bytes waiting. -/
example :
    let marked := { openSocket [[1, 2]] with socketsClosed := true }
    answers (Socket.call listSocket) marked [.readbytes 2] = [some none] ∧
      answers Stream.call (marked.stream id) [.readbytes 2] = [some (some [1, 2])] := ⟨rfl, rfl⟩

end SocketReads
