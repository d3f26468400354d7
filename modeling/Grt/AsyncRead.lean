import Grt.LittleEndian
import Grt.TransitionSystem

/-! Reading on a non-blocking connection: `l_read` of `async/socket.c` gathers what `read`
delivers until it has nothing more, and `Conn:on_readable` of `async.lua` passes on what
`l_read` returns. -/
namespace AsyncRead

open LittleEndian TransitionSystem

/-- `errno` after a `read`, with the text of `strerror` where `l_read` asks for it. -/
inductive Errno where
  | ECONNRESET
  | EAGAIN
  | EWOULDBLOCK
  | other (strerror : String)
  deriving DecidableEq

/-- What a `read` with `sz > 0` put into `tmp`. -/
structure Chunk where
  bytes : List Byte
  pos : 0 < bytes.length
  le : bytes.length ≤ 256

/-- A `read` with `sz <= 0`. -/
inductive Stop where
  | zero
  | error (errno : Errno)
  deriving DecidableEq

/-- The results of `read` in one `l_read`, whose loop goes on while there are bytes. -/
structure Reads where
  chunks : List Chunk
  stop : Stop

/-- The values that `l_read` returns. -/
inductive Reply where
  | closed
  | data (buf : List Byte)
  | failed (buf : List Byte) (message : String)
  deriving DecidableEq

def readLoop (buf : List Byte) : List Chunk → List Byte
  | [] => buf
  | tmp :: chunks => readLoop (buf ++ tmp.bytes) chunks

def lRead (r : Reads) : Reply :=
  let buf := readLoop [] r.chunks
  match r.stop with
  | .zero => .closed
  | .error .ECONNRESET => .closed
  | .error .EAGAIN => .data buf
  | .error .EWOULDBLOCK => .data buf
  | .error (.other message) => .failed buf message

/-- `local data = socket.read(self.fd)` -/
def Reply.first : Reply → Option (List Byte)
  | .closed => none
  | .data buf => some buf
  | .failed buf _ => some buf

/-- The string among the values returned. -/
def Reply.string (r : Reply) : List Byte := r.first.getD []

/-- `delivered` are the bytes that came out of `read`, `passed` the arguments of `on_read`. -/
structure Conn where
  isOpen : Bool
  delivered : List Byte
  returned : List Reply
  passed : List (Option (List Byte))

def newConn : Conn := ⟨true, [], [], []⟩

def Conn.onReadable (s : Conn) (r : Reads) : Conn :=
  let data := lRead r
  { isOpen := decide (data ≠ .closed)
    delivered := s.delivered ++ r.chunks.flatMap Chunk.bytes
    returned := s.returned ++ [data]
    passed := s.passed ++ [data.first] }

/-- The connection ends when `l_read` closes it. -/
def readSystem : System Conn Reads where
  start s := s = newConn
  enabled s _ := s.isOpen = true
  next := Conn.onReadable

/-- What `l_read` returned, and what went to `on_read`, is what `read` delivered. -/
structure Lossless (s : Conn) : Prop where
  returned : s.returned.flatMap Reply.string = s.delivered
  passed : s.passed.flatMap (·.getD []) = s.delivered

/-- The results after which `l_read` goes to `closed`. -/
def Stop.closes : Stop → Prop
  | .zero => True
  | .error errno => errno = .ECONNRESET

variable {s : Conn} {r : Reads}

theorem readLoop_eq (buf : List Byte) (chunks : List Chunk) :
    readLoop buf chunks = buf ++ chunks.flatMap Chunk.bytes := by
  induction chunks generalizing buf with
  | nil => exact (List.append_nil buf).symm
  | cons tmp chunks ih => rw [readLoop, ih, List.append_assoc, List.flatMap_cons]

theorem lRead_closes (h : r.stop.closes) : lRead r = .closed := by
  obtain ⟨chunks, stop⟩ := r
  cases stop with
  | zero => rfl
  | error errno =>
    cases h
    rfl

theorem lRead_keeps (h : ¬ r.stop.closes) :
    (lRead r).first = some (r.chunks.flatMap Chunk.bytes) ∧ lRead r ≠ .closed := by
  obtain ⟨chunks, stop⟩ := r
  have hbuf : readLoop [] chunks = chunks.flatMap Chunk.bytes := readLoop_eq [] chunks
  cases stop with
  | zero => exact absurd trivial h
  | error errno =>
    cases errno with
    | ECONNRESET => exact absurd rfl h
    | EAGAIN | EWOULDBLOCK | other message => exact ⟨congrArg some hbuf, by simp [lRead]⟩

/-- Every chunk has a byte. -/
theorem flatMap_bytes_eq_nil {chunks : List Chunk} :
    chunks.flatMap Chunk.bytes = [] ↔ chunks = [] := by
  cases chunks with
  | nil => exact iff_of_true rfl rfl
  | cons tmp chunks =>
    refine iff_of_false (fun h => ?_) (List.cons_ne_nil _ _)
    rw [List.flatMap_cons, List.append_eq_nil_iff] at h
    exact absurd tmp.pos (by rw [h.1]; exact lt_irrefl 0)

/-- A call keeps the bytes if and only if it does not close on bytes it has just read. -/
theorem onReadable_lossless (h : Lossless s) :
    Lossless (s.onReadable r) ↔ (r.stop.closes → r.chunks = []) := by
  have hreturned : (s.onReadable r).returned.flatMap Reply.string =
      s.delivered ++ (lRead r).string := by
    rw [← h.returned]
    exact (List.flatMap_append ..).trans (by rw [List.flatMap_singleton])
  have hpassed : (s.onReadable r).passed.flatMap (·.getD []) =
      s.delivered ++ (lRead r).string := by
    rw [← h.passed]
    exact (List.flatMap_append ..).trans (by rw [List.flatMap_singleton]; rfl)
  have hiff : Lossless (s.onReadable r) ↔ (lRead r).string = r.chunks.flatMap Chunk.bytes := by
    constructor
    · intro hs
      exact List.append_cancel_left (hreturned.symm.trans hs.returned)
    · intro heq
      rw [heq] at hreturned hpassed
      exact ⟨hreturned, hpassed⟩
  rw [hiff]
  by_cases hc : r.stop.closes
  · rw [Reply.string, lRead_closes hc, ← flatMap_bytes_eq_nil]
    exact ⟨fun heq _ => heq.symm, fun heq => (heq hc).symm⟩
  · rw [Reply.string, (lRead_keeps hc).1]
    exact iff_of_true rfl fun h => absurd h hc

theorem run_lossless {calls : List Reads} :
    ∀ {s}, Lossless s → ValidTrace readSystem s calls →
      (Lossless (runTrace readSystem s calls) ↔ ∀ r ∈ calls, r.stop.closes → r.chunks = []) := by
  induction calls with
  | nil => exact fun hs _ => iff_of_true hs (List.forall_mem_nil _)
  | cons r calls ih =>
    intro s hs hvalid
    have hhere : Lossless (s.onReadable r) ↔ (r.stop.closes → r.chunks = []) :=
      onReadable_lossless hs
    rw [List.forall_mem_cons, ← hhere]
    by_cases hnext : Lossless (s.onReadable r)
    · exact (ih hnext hvalid.2).trans ⟨fun h => ⟨hnext, h⟩, And.right⟩
    · -- the call closed the connection, so it is the last
      have hc : r.stop.closes := by
        by_contra hc
        exact hnext (hhere.mpr fun h => absurd h hc)
      cases calls with
      | nil => exact iff_of_false hnext fun h => hnext h.1
      | cons r' calls =>
        have hopen : decide (lRead r ≠ .closed) = true := hvalid.2.1
        rw [lRead_closes hc] at hopen
        exact absurd hopen Bool.false_ne_true

theorem newConn_lossless : Lossless newConn := ⟨rfl, rfl⟩

/-- No byte is lost until the connection ends if and only if no call of `l_read` that delivers
bytes is ended by an end of file or a reset. -/
theorem reads_lossless_iff {calls : List Reads} (h : ValidTrace readSystem newConn calls) :
    Lossless (runTrace readSystem newConn calls) ↔
      ∀ r ∈ calls, r.stop.closes → r.chunks = [] :=
  run_lossless newConn_lossless h

def sampleChunk : Chunk := ⟨[1, 2], by decide, by decide⟩

def sampleCalls : List Reads :=
  [⟨[sampleChunk, sampleChunk], .error .EAGAIN⟩, ⟨[sampleChunk], .error (.other "timeout")⟩,
    ⟨[], .zero⟩]

theorem reads_lossless_iff_sample : Lossless (runTrace readSystem newConn sampleCalls) :=
  have hvalid : ValidTrace readSystem newConn sampleCalls := ⟨rfl, rfl, rfl, trivial⟩
  (reads_lossless_iff hvalid).mpr (by simp [sampleCalls, Stop.closes])

/-- A peer that sends two bytes and closes: the bytes are gone. -/
theorem data_before_eof_lost :
    ValidTrace readSystem newConn [⟨[sampleChunk], .zero⟩] ∧
    (runTrace readSystem newConn [⟨[sampleChunk], .zero⟩]).delivered = [1, 2] ∧
    (runTrace readSystem newConn [⟨[sampleChunk], .zero⟩]).returned = [.closed] ∧
    (runTrace readSystem newConn [⟨[sampleChunk], .zero⟩]).passed = [none] ∧
    ¬ Lossless (runTrace readSystem newConn [⟨[sampleChunk], .zero⟩]) := by
  refine ⟨⟨rfl, trivial⟩, rfl, rfl, rfl, fun h => ?_⟩
  have hpassed := h.passed
  exact absurd hpassed (by decide)

end AsyncRead
