import Grt.LuaValue
import Grt.SocketPoll

/-! The event loop of `async.lua`. A batch of events comes from `epoll.wait`, and each event is
handed to the handler that its fd has by then; the handlers may add and delete handlers. -/
namespace AsyncEventLoop

open LuaValue

abbrev Fd := SocketPoll.Sock

def CTL_ADD : ℕ := 1

def CTL_DEL : ℕ := 2

def MASK_READ : BitVec 64 := 4

def MASK_WRITE : BitVec 64 := 8

/-- An entry of the table that `epoll.wait` fills. -/
structure Ready where
  fd : Fd
  mask : BitVec 64
  deriving DecidableEq

/-- `lepoll_wait` on the events of `sp_wait`. -/
def lepollWait (events : List SocketPoll.Event) : List Ready :=
  events.map fun e =>
    ⟨e.s, (if e.read then MASK_READ else 0) ||| (if e.write then MASK_WRITE else 0)⟩

/-- An object that is registered; `id` tells it from others with its fd. -/
structure Handler where
  fd : Fd
  id : ℕ
  deriving DecidableEq

inductive Method where
  | onReadable
  | onWriteable
  deriving DecidableEq

/-- The event loop, the world `ω` of its handlers and the calls it has made of them. -/
structure Loop (ω : Type*) where
  handlers : Fd → Option Handler
  ctls : List (ℕ × Fd)
  world : ω
  calls : List (Handler × Method)

inductive Request where
  | add (handler : Handler)
  | del (handler : Handler)

/-- What the methods of the handlers do: they change the world and call `EventLoop:add` and
`EventLoop:del`. -/
abbrev Callback (ω : Type*) := Handler → Method → ω → ω × List Request

variable {ω : Type*}

def Loop.add (s : Loop ω) (handler : Handler) : Loop ω :=
  { s with
    handlers := Function.update s.handlers handler.fd (some handler)
    ctls := s.ctls ++ [(CTL_ADD, handler.fd)] }

def Loop.del (s : Loop ω) (handler : Handler) : Loop ω :=
  { s with
    handlers := Function.update s.handlers handler.fd none
    ctls := s.ctls ++ [(CTL_DEL, handler.fd)] }

def Loop.request (s : Loop ω) : Request → Loop ω
  | .add handler => s.add handler
  | .del handler => s.del handler

/-- A method of a handler is called. -/
def Loop.call (callback : Callback ω) (s : Loop ω) (handler : Handler) (method : Method) :
    Loop ω :=
  let r := callback handler method s.world
  r.2.foldl Loop.request { s with world := r.1, calls := s.calls ++ [(handler, method)] }

/-- What counts as true in a condition: all but `nil` and `false`. -/
def truthy : Value → Bool
  | .nil => false
  | .scalar (.boolean x) => x
  | _ => true

/-- `handler:on_readable(self)` and `handler:on_writeable(self)`. -/
def invoke (callback : Callback ω) (s : Loop ω) (method : Method) :
    Option Handler → Except String (Loop ω)
  | none => .error "attempt to index a nil value (local 'handler')"
  | some handler => .ok (s.call callback handler method)

def runEvent (callback : Callback ω) (s : Loop ω) (v : Ready) : Except String (Loop ω) := do
  let handler := s.handlers v.fd
  let s ← if truthy (.scalar (.integer (v.mask &&& MASK_READ))) then
      invoke callback s .onReadable handler
    else pure s
  if truthy (.scalar (.integer (v.mask &&& MASK_WRITE))) then
    invoke callback s .onWriteable handler
  else pure s

/-- The inner loop of `EventLoop:run`. -/
def runBatch (callback : Callback ω) (s : Loop ω) (batch : List Ready) :
    Except String (Loop ω) :=
  batch.foldlM (runEvent callback) s

def Ready.has (v : Ready) (mask : BitVec 64) : Bool := v.mask &&& mask ≠ 0

/-- The method is called if the mask of the event says so. -/
def Loop.callIf (callback : Callback ω) (s : Loop ω) (handler : Handler) (method : Method)
    (wanted : Bool) : Loop ω :=
  if wanted then s.call callback handler method else s

/-- An event as it ought to be handled: not at all if its fd has no handler by now. -/
def dispatch (callback : Callback ω) (s : Loop ω) (v : Ready) : Loop ω :=
  match s.handlers v.fd with
  | none => s
  | some handler =>
    (s.callIf callback handler .onReadable (v.has MASK_READ)).callIf callback handler
      .onWriteable (v.has MASK_WRITE)

def dispatchBatch (callback : Callback ω) (s : Loop ω) (batch : List Ready) : Loop ω :=
  batch.foldl (dispatch callback) s

/-- The whole batch is processed without an error, and exactly. -/
def Exact (callback : Callback ω) (s : Loop ω) (batch : List Ready) : Prop :=
  runBatch callback s batch = .ok (dispatchBatch callback s batch)

/-- Each event has a handler when its turn comes, and its mask has both flags. -/
def BothReady (callback : Callback ω) (s : Loop ω) : List Ready → Prop
  | [] => True
  | v :: batch =>
    ((s.handlers v.fd).isSome ∧ v.has MASK_READ = true ∧ v.has MASK_WRITE = true) ∧
      BothReady callback (dispatch callback s v) batch

variable {callback : Callback ω} {s s' : Loop ω} {v : Ready} {handler : Handler}

theorem request_calls (s : Loop ω) (requests : List Request) :
    (requests.foldl Loop.request s).calls = s.calls := by
  induction requests generalizing s with
  | nil => rfl
  | cons r requests ih =>
    rw [List.foldl_cons, ih]
    cases r <;> rfl

@[simp] theorem call_calls (method : Method) :
    (s.call callback handler method).calls = s.calls ++ [(handler, method)] :=
  request_calls _ _

/-- A number is true, so both methods are called for every event. -/
theorem runEvent_eq (callback : Callback ω) (s : Loop ω) (v : Ready) :
    runEvent callback s v = match s.handlers v.fd with
      | none => .error "attempt to index a nil value (local 'handler')"
      | some handler =>
        .ok ((s.call callback handler .onReadable).call callback handler .onWriteable) := by
  unfold runEvent
  cases s.handlers v.fd <;> rfl

theorem runBatch_length {batch : List Ready} (h : runBatch callback s batch = .ok s') :
    s'.calls.length = s.calls.length + 2 * batch.length := by
  induction batch generalizing s with
  | nil =>
    cases h
    rfl
  | cons v batch ih =>
    rw [runBatch, List.foldlM_cons, runEvent_eq] at h
    cases hhandler : s.handlers v.fd with
    | none =>
      rw [hhandler] at h
      cases h
    | some handler =>
      rw [hhandler] at h
      have hlen := ih h
      simp only [call_calls, List.length_append, List.length_singleton] at hlen
      rw [List.length_cons]
      omega

theorem callIf_length (method : Method) (wanted : Bool) :
    (s.callIf callback handler method wanted).calls.length =
      s.calls.length + if wanted then 1 else 0 := by
  cases wanted
  · rfl
  · simp [Loop.callIf]

/-- An event makes at most two calls, and two only if it has a handler and both flags. -/
theorem dispatch_length (callback : Callback ω) (s : Loop ω) (v : Ready) :
    (dispatch callback s v).calls.length ≤ s.calls.length + 2 ∧
      ((dispatch callback s v).calls.length = s.calls.length + 2 ↔
        (s.handlers v.fd).isSome ∧ v.has MASK_READ = true ∧ v.has MASK_WRITE = true) := by
  unfold dispatch
  cases s.handlers v.fd with
  | none => simp
  | some handler =>
    simp only [callIf_length]
    cases v.has MASK_READ <;> cases v.has MASK_WRITE <;> simp

theorem dispatchBatch_length (callback : Callback ω) (s : Loop ω) (batch : List Ready) :
    (dispatchBatch callback s batch).calls.length ≤ s.calls.length + 2 * batch.length ∧
      ((dispatchBatch callback s batch).calls.length = s.calls.length + 2 * batch.length →
        BothReady callback s batch) := by
  induction batch generalizing s with
  | nil => exact ⟨le_rfl, fun _ => trivial⟩
  | cons v batch ih =>
    obtain ⟨hle, hboth⟩ := ih (dispatch callback s v)
    obtain ⟨hone, htwo⟩ := dispatch_length callback s v
    change (dispatchBatch callback (dispatch callback s v) batch).calls.length ≤ _ ∧
      ((dispatchBatch callback (dispatch callback s v) batch).calls.length = _ → _)
    rw [List.length_cons]
    refine ⟨by omega, fun heq => ?_⟩
    have hhere : (dispatch callback s v).calls.length = s.calls.length + 2 := by omega
    exact ⟨htwo.mp hhere, hboth (by omega)⟩

theorem runEvent_exact
    (h : (s.handlers v.fd).isSome ∧ v.has MASK_READ = true ∧ v.has MASK_WRITE = true) :
    runEvent callback s v = .ok (dispatch callback s v) := by
  obtain ⟨hsome, hread, hwrite⟩ := h
  obtain ⟨handler, hhandler⟩ := Option.isSome_iff_exists.mp hsome
  rw [runEvent_eq, dispatch, hhandler]
  simp only [Loop.callIf, hread, hwrite, if_true]

theorem runBatch_exact {batch : List Ready} (h : BothReady callback s batch) :
    Exact callback s batch := by
  induction batch generalizing s with
  | nil => rfl
  | cons v batch ih =>
    rw [Exact, runBatch, List.foldlM_cons, runEvent_exact h.1]
    exact ih h.2

/-- A batch is processed exactly if and only if each event has a handler when its turn comes
and is ready for reading and for writing. -/
theorem batch_exact_iff (callback : Callback ω) (s : Loop ω)
    (events : List SocketPoll.Event) :
    Exact callback s (lepollWait events) ↔ BothReady callback s (lepollWait events) := by
  refine ⟨fun h => ?_, runBatch_exact⟩
  exact (dispatchBatch_length callback s _).2 (runBatch_length h)

/-- Two handlers, of which the first deletes the second. -/
def twoHandlers : Loop Unit where
  handlers fd := if fd = 1 ∨ fd = 2 then some ⟨fd, fd⟩ else none
  ctls := []
  world := ()
  calls := []

def deletesSecond : Callback Unit := fun handler _ _ =>
  ((), if handler.id = 1 then [.del ⟨2, 2⟩] else [])

/-- An event for reading alone calls `on_writeable` as well, and one whose handler was deleted
earlier in the batch raises an error. -/
theorem extra_call_and_error :
    ¬ Exact deletesSecond twoHandlers (lepollWait [⟨2, true, false⟩]) ∧
    runBatch deletesSecond twoHandlers (lepollWait [⟨1, true, true⟩, ⟨2, true, true⟩]) =
      .error "attempt to index a nil value (local 'handler')" ∧
    ¬ Exact deletesSecond twoHandlers (lepollWait [⟨1, true, true⟩, ⟨2, true, true⟩]) := by
  refine ⟨fun h => ?_, rfl, fun h => by cases h⟩
  have hcalls := congrArg (fun r => r.toOption.map fun s : Loop Unit => s.calls.length) h
  exact absurd hcalls (by decide)

end AsyncEventLoop
