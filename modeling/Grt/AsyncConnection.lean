import Grt.AsyncBufferQueue
import Grt.LittleEndian
import Grt.TransitionSystem

/-! `Conn` of `async.lua`, added to an event loop: what is written to it is queued, and
`on_writeable` hands the queued pieces to the kernel, which may take a part of one only.
`interest` is what `epoll.ctl` with `CTL_WRITE` was told last. -/
namespace AsyncConnection

open AsyncBufferQueue LittleEndian TransitionSystem

/-- What one `write(2)` does: it takes some bytes, or fails. -/
inductive Answer where
  | bytes (n : ℕ)
  | error
  deriving DecidableEq

/-- The loop of `l_write` from `off` on; a kernel that has no answer left is full. -/
def lWriteFrom (len : ℕ) : List Answer → ℕ → ℕ
  | [], off => off
  | a :: answers, off =>
    if off < len then
      match a with
      | .bytes n =>
        let n := min n (len - off)
        if n = 0 then off else lWriteFrom len answers (off + n)
      | .error => off
    else off

/-- The count that `socket.write` returns for `len` bytes. -/
def lWrite (answers : List Answer) (len : ℕ) : ℕ := lWriteFrom len answers 0

/-- `string.sub(s, i)`. -/
def stringSub (s : List Byte) : Option ℤ → Except String (List Byte)
  | none => .error "bad argument #2 to 'sub' (number expected, got no value)"
  | some i =>
    .ok (s.drop (if 0 < i then (i - 1).toNat else if i = 0 then 0 else (s.length + i).toNat))

/-- `accepted` are the bytes the kernel took, `written` those passed to `Conn:write`, `raised`
the error that ended `EventLoop:run`. -/
structure Conn where
  buffer : BufferQueue (List Byte)
  interest : Bool
  accepted : List Byte
  written : List Byte
  raised : Option String

def newConn : Conn := ⟨newBufferQueue, false, [], [], none⟩

def Conn.write (s : Conn) (data : List Byte) : Conn :=
  { s with
    buffer := s.buffer.push data
    interest := true
    written := s.written ++ data }

/-- The loop of `Conn:on_writeable`; `answers k` is for its `k`-th `socket.write`. `none` when
`fuel` turns are not enough. -/
def writeLoop (answers : ℕ → List Answer) : ℕ → ℕ → Conn → Option (List Byte) → Option Conn
  | _, _, s, none => some { s with interest := false }
  | 0, _, _, some _ => none
  | fuel + 1, k, s, some data =>
    let len := lWrite (answers k) data.length
    let s := { s with accepted := s.accepted ++ data.take len }
    if len < data.length then
      match stringSub data none with
      | .error e => some { s with raised := some e }
      | .ok rem => some { s with buffer := s.buffer.pushBack rem }
    else
      let r := s.buffer.pop
      writeLoop answers fuel (k + 1) { s with buffer := r.2 } r.1

/-- Each turn takes a piece off the queue. -/
def Conn.onWriteable (s : Conn) (answers : ℕ → List Answer) : Option Conn :=
  let r := s.buffer.pop
  writeLoop answers s.buffer.contents.length 0 { s with buffer := r.2 } r.1

inductive Event where
  | write (data : List Byte)
  | writeable (answers : ℕ → List Answer)

def next (s : Conn) : Event → Conn
  | .write data => s.write data
  | .writeable answers => (s.onWriteable answers).getD s

def connSystem : System Conn Event where
  start s := s = newConn
  enabled s _ := s.raised = none
  next := next

/-- The kernel takes the whole of each of these pieces. -/
def TakesAll (answers : ℕ → List Answer) (l : List (List Byte)) : Prop :=
  ∀ k data, l[k]? = some data → lWrite (answers k) data.length = data.length

/-- No `socket.write` comes back short. -/
def NoShort (s : Conn) : Event → Prop
  | .write _ => True
  | .writeable answers => TakesAll answers s.buffer.contents

theorem lWriteFrom_le {len off : ℕ} (answers : List Answer) (h : off ≤ len) :
    lWriteFrom len answers off ≤ len := by
  induction answers generalizing off with
  | nil => exact h
  | cons a answers ih =>
    cases a with
    | bytes n =>
      simp only [lWriteFrom]
      split
      · split
        · exact h
        · exact ih (by omega)
      · exact h
    | error =>
      simp only [lWriteFrom, ite_self]
      exact h

theorem lWrite_le (answers : List Answer) (len : ℕ) : lWrite answers len ≤ len :=
  lWriteFrom_le answers (Nat.zero_le len)

variable {s : Conn} {answers : ℕ → List Answer}

/-- The queue and the kernel's bytes are what was written, and a queue that is not empty waits
for the socket. -/
structure Intact (s : Conn) (l : List (List Byte)) : Prop where
  holds : Holds s.buffer l
  bytes : s.accepted ++ l.flatten = s.written
  interest : l ≠ [] → s.interest = true
  calm : s.raised = none

theorem newConn_intact : Intact newConn [] :=
  ⟨newBufferQueue_holds, rfl, fun h => absurd rfl h, rfl⟩

theorem write_intact {l : List (List Byte)} (h : Intact s l) (data : List Byte) :
    Intact (s.write data) (l ++ [data]) where
  holds := push_holds h.holds data
  bytes := by
    change s.accepted ++ _ = s.written ++ data
    rw [List.flatten_append, ← List.append_assoc, h.bytes, List.flatten_singleton]
  interest _ := rfl
  calm := h.calm

theorem takesAll_cons {x : List Byte} {l : List (List Byte)} : TakesAll answers (x :: l) ↔
    lWrite (answers 0) x.length = x.length ∧ TakesAll (fun k => answers (k + 1)) l := by
  constructor
  · intro h
    exact ⟨h 0 x rfl, fun k data hk => h (k + 1) data hk⟩
  · rintro ⟨hx, hl⟩ k data hk
    cases k with
    | zero =>
      obtain rfl := Option.some.inj hk
      exact hx
    | succ k => exact hl k data hk

theorem writeLoop_none (fuel k : ℕ) :
    writeLoop answers fuel k s none = some { s with interest := false } := by
  cases fuel <;> rfl

theorem writeLoop_short (s : Conn) (fuel : ℕ) {k : ℕ} {x : List Byte}
    (h : lWrite (answers k) x.length < x.length) :
    ∃ s', writeLoop answers (fuel + 1) k s (some x) = some s' ∧ s'.raised.isSome := by
  rw [writeLoop, if_pos h]
  exact ⟨_, rfl, rfl⟩

theorem writeLoop_whole {fuel k : ℕ} {x : List Byte}
    (h : lWrite (answers k) x.length = x.length) :
    writeLoop answers (fuel + 1) k s (some x) = writeLoop answers fuel (k + 1)
      { s with accepted := s.accepted ++ x, buffer := s.buffer.pop.2 } s.buffer.pop.1 := by
  rw [writeLoop, if_neg h.not_lt, h, List.take_length]

/-- The loop with `l` still to be written, of which the first piece has been popped. -/
theorem writeLoop_spec (answers : ℕ → List Answer) {l : List (List Byte)} {fuel k : ℕ}
    (hfuel : l.length ≤ fuel)
    (hholds : Holds s.buffer l.tail) (hbytes : s.accepted ++ l.flatten = s.written)
    (hcalm : s.raised = none) :
    ∃ s', writeLoop answers fuel k s l.head? = some s' ∧
      (TakesAll (fun i => answers (k + i)) l →
        Intact s' [] ∧ s'.interest = false ∧ s'.written = s.written) ∧
      (¬TakesAll (fun i => answers (k + i)) l → s'.raised.isSome) := by
  induction l generalizing fuel k s with
  | nil =>
    refine ⟨{ s with interest := false }, writeLoop_none fuel k, fun _ => ⟨?_, rfl, rfl⟩,
      fun h => ?_⟩
    · exact ⟨hholds, hbytes, fun h => absurd rfl h, hcalm⟩
    · exact absurd (fun k data hk => by cases hk) h
  | cons x l ih =>
    obtain ⟨fuel, rfl⟩ : ∃ n, fuel = n + 1 := ⟨fuel - 1, by simp at hfuel; omega⟩
    rw [takesAll_cons, List.head?_cons]
    by_cases hlen : lWrite (answers k) x.length < x.length
    · obtain ⟨s', hs', hraised⟩ := writeLoop_short s fuel hlen
      exact ⟨s', hs', fun h => absurd h.1 hlen.ne, fun _ => hraised⟩
    · have hall : lWrite (answers k) x.length = x.length :=
        (lWrite_le _ _).antisymm (Nat.not_lt.mp hlen)
      obtain ⟨hhead, htail⟩ := pop_holds hholds
      obtain ⟨s', hs', hfull, hshort⟩ := ih (k := k + 1)
        (s := { s with accepted := s.accepted ++ x, buffer := s.buffer.pop.2 })
        (Nat.le_of_succ_le_succ hfuel) htail
        ((List.append_assoc ..).trans hbytes) hcalm
      have hshift : (fun i => answers (k + 1 + i)) = fun i => answers (k + (i + 1)) := by
        funext i
        rw [Nat.add_assoc, Nat.add_comm 1 i]
      rw [hshift] at hfull hshort
      refine ⟨s', ?_, fun h => hfull h.2, fun h => hshort fun hl => h ⟨hall, hl⟩⟩
      rw [writeLoop_whole hall, hhead]
      exact hs'

theorem onWriteable_spec (answers : ℕ → List Answer) {l : List (List Byte)} (h : Intact s l) :
    ∃ s', s.onWriteable answers = some s' ∧
      (TakesAll answers l → Intact s' [] ∧ s'.interest = false ∧ s'.written = s.written) ∧
      (¬TakesAll answers l → s'.raised.isSome) := by
  obtain ⟨hhead, htail⟩ := pop_holds h.holds
  have hloop := writeLoop_spec answers (s := { s with buffer := s.buffer.pop.2 })
    (k := 0) le_rfl htail h.bytes h.calm
  simp only [Nat.zero_add] at hloop
  rw [Conn.onWriteable, h.holds.contents, hhead]
  exact hloop

theorem next_intact {l : List (List Byte)} (h : Intact s l) {e : Event} (he : NoShort s e) :
    ∃ l', Intact (next s e) l' := by
  cases e with
  | write data => exact ⟨l ++ [data], write_intact h data⟩
  | writeable answers =>
    obtain ⟨s', hs', hfull, -⟩ := onWriteable_spec answers h
    refine ⟨[], ?_⟩
    rw [next, hs']
    exact (hfull (h.holds.contents ▸ he)).1

theorem reachable_intact (h : Reachable (connSystem.when NoShort) s) : ∃ l, Intact s l := by
  apply h.invariant (I := fun t => ∃ l, Intact t l)
  · rintro t rfl
    exact ⟨[], newConn_intact⟩
  · rintro t e _ ⟨l, hl⟩ he
    exact next_intact hl he.2

/-- As long as no `socket.write` comes back short, the stream is intact and the connection
waits for the socket while it has something to write; and the next `on_writeable` raises no
error exactly when none does, and then it has written everything. -/
theorem stream_intact (h : Reachable (connSystem.when NoShort) s) :
    s.raised = none ∧ s.accepted ++ s.buffer.contents.flatten = s.written ∧
      (s.buffer.contents ≠ [] → s.interest = true) ∧
      ∀ answers, ∃ s', s.onWriteable answers = some s' ∧
        (s'.raised = none ↔ NoShort s (.writeable answers)) ∧
        (s'.raised = none →
          s'.buffer.contents = [] ∧ s'.accepted = s.written ∧ s'.interest = false) := by
  obtain ⟨l, hl⟩ := reachable_intact h
  have hcontents := hl.holds.contents
  refine ⟨hl.calm, by rw [hcontents]; exact hl.bytes, by rw [hcontents]; exact hl.interest,
    fun answers => ?_⟩
  obtain ⟨s', hs', hfull, hshort⟩ := onWriteable_spec answers hl
  have hiff : s'.raised = none ↔ TakesAll answers l := by
    constructor
    · intro hnone
      by_contra hnot
      have hsome := hshort hnot
      rw [hnone] at hsome
      cases hsome
    · intro hall
      exact (hfull hall).1.calm
  refine ⟨s', hs', by rw [hiff, NoShort, hcontents], fun hnone => ?_⟩
  obtain ⟨hintact, hoff, hwritten⟩ := hfull (hiff.mp hnone)
  refine ⟨hintact.holds.contents, ?_, hoff⟩
  have hbytes := hintact.bytes
  rwa [List.flatten_nil, List.append_nil, hwritten] at hbytes

def decidableTakesAll : ∀ answers l, Decidable (TakesAll answers l)
  | _, [] => isTrue fun _ _ h => by cases h
  | answers, x :: l =>
    match decEq (lWrite (answers 0) x.length) x.length,
      decidableTakesAll (fun k => answers (k + 1)) l with
    | isTrue hx, isTrue hl => isTrue (takesAll_cons.mpr ⟨hx, hl⟩)
    | isFalse hx, _ => isFalse fun h => hx (takesAll_cons.mp h).1
    | _, isFalse hl => isFalse fun h => hl (takesAll_cons.mp h).2

instance (s : Conn) (e : Event) : Decidable (connSystem.enabled s e) :=
  inferInstanceAs (Decidable (s.raised = none))

instance (s : Conn) (e : Event) : Decidable (NoShort s e) :=
  match e with
  | .write _ => isTrue trivial
  | .writeable answers => decidableTakesAll answers s.buffer.contents

instance (s : Conn) (e : Event) : Decidable ((connSystem.when NoShort).enabled s e) :=
  inferInstanceAs (Decidable (s.raised = none ∧ NoShort s e))

/-- Two pieces are written and taken, a third one waits. -/
def sampleRun : Conn :=
  runTrace (connSystem.when NoShort) newConn [.write [1, 2], .write [3],
    .writeable fun k => if k = 0 then [.bytes 1, .bytes 1] else [.bytes 1], .write [4]]

theorem stream_intact_sampleRun :
    sampleRun.raised = none ∧ sampleRun.buffer.contents = [[4]] ∧
      sampleRun.accepted ++ sampleRun.buffer.contents.flatten = sampleRun.written ∧
      sampleRun.interest = true :=
  have h := stream_intact (s := sampleRun) (.run (.start rfl) (by decide +kernel))
  have hwaits : sampleRun.buffer.contents = [[4]] := by decide +kernel
  ⟨h.1, hwaits, h.2.1, h.2.2.1 (by rw [hwaits]; exact List.cons_ne_nil _ _)⟩

/-- The kernel takes the first of two bytes. -/
def shortRun : Conn :=
  runTrace connSystem newConn [.write [1, 2], .writeable fun _ => [.bytes 1]]

/-- The rest of the piece is lost with the error. -/
theorem short_write_raises : Reachable connSystem shortRun ∧
    shortRun.raised = some "bad argument #2 to 'sub' (number expected, got no value)" ∧
      shortRun.accepted = [1] ∧ shortRun.buffer.contents = [] ∧ shortRun.written = [1, 2] :=
  ⟨.run (.start rfl) ⟨rfl, rfl, trivial⟩, by decide +kernel, by decide +kernel, by decide +kernel,
    by decide +kernel⟩

end AsyncConnection
