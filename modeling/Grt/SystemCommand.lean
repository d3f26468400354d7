import Mathlib.Algebra.Order.Ring.Int
import Mathlib.Data.Fintype.Basic
import Mathlib.Data.List.TakeWhile
import Grt.TransitionSystem

/-! Calls of a service by its clients: `command:call` of `system.lua` and the dispatch loop of
`socket_service.lua`. The requests of all clients go through one channel, with the channel
that the answer goes to; a client looks for its answer in a loop. Channels are FIFO lists of
messages, and a message is the list of the values that were sent. -/
namespace SystemCommand

open TransitionSystem

abbrev ChannelId := ℕ

/-- `other` is a value that the calls only pass on. -/
inductive Value (δ : Type*) where
  | nil
  | boolean (b : Bool)
  | integer (n : ℤ)
  | string (s : String)
  | other (d : δ)
  deriving DecidableEq

variable {ι δ σ : Type*}

def Value.truthy : Value δ → Bool
  | .nil => false
  | .boolean b => b
  | _ => true

def Value.isNil : Value δ → Bool
  | .nil => true
  | _ => false

abbrev Message (δ : Type*) := List (Value δ)

abbrev Channels (δ : Type*) := ChannelId → List (Message δ)

def ltaskSend (ch : Channels δ) (id : ChannelId) (msg : Message δ) : Channels δ :=
  Function.update ch id (ch id ++ [msg])

/-- What `ltask.recv` returns: `false`, or `true` and the values of the message. -/
def ltaskRecv (ch : Channels δ) (id : ChannelId) : Message δ × Channels δ :=
  match ch id with
  | [] => ([.boolean false], ch)
  | msg :: rest => (.boolean true :: msg, Function.update ch id rest)

/-- `table.unpack({...})`, up to a border of the table. -/
def tableUnpack (args : Message δ) : Message δ := args.takeWhile fun v => !v.isNil

/-- The channels of one service and its clients, each client with its own command object, and
the command functions of the service, which work on its state. -/
structure Setup (ι δ σ : Type*) where
  input : ChannelId
  retch : ι → ChannelId
  command : String → Option (Message δ → σ → Message δ × σ)
  retch_injective : Function.Injective retch
  retch_ne_input : ∀ i, retch i ≠ input

structure Request (δ : Type*) where
  command : String
  args : Message δ

/-- What `dispatch` did with a message, and the state of the service before. -/
structure Execution (δ σ : Type*) where
  retch : Value δ
  command : Value δ
  args : Message δ
  before : σ
  results : Message δ

def Execution.message (e : Execution δ σ) : Message δ := e.retch :: e.command :: e.args

/-- In the loop of `command:call` a client calls `ltask.select` and then `ltask.recv`. -/
inductive ClientPc where
  | idle
  | select
  | recv
  deriving DecidableEq

inductive ServicePc (δ : Type*) where
  | recv
  | reply (retch : Value δ) (results : Message δ)

/-- `entered` lists the requests in the order in which they were sent, `returned` what the
calls of a client returned; `raised` is an error in the service. -/
structure State (ι δ σ : Type*) where
  channel : Channels δ
  client : ι → ClientPc
  service : ServicePc δ
  srv : σ
  entered : List (ι × Request δ)
  executed : List (Execution δ σ)
  returned : ι → List (Message δ)
  raised : Bool

inductive Dispatched (δ σ : Type*) where
  | stop
  | raise
  | reply (retch : Value δ) (results : Message δ) (srv : σ)

variable (S : Setup ι δ σ)

/-- `command[name]`. -/
def Setup.lookup : Value δ → Option (Message δ → σ → Message δ × σ)
  | .string name => S.command name
  | _ => none

/-- `dispatch(ok, retch, command, args...)` up to the reply. -/
def dispatch (arg : Message δ) (srv : σ) : Dispatched δ σ :=
  if (arg.getD 0 .nil).truthy then
    match S.lookup (arg.getD 2 .nil) with
    | some cmdfn =>
      let r := cmdfn (arg.drop 3) srv
      .reply (arg.getD 1 .nil) r.1 r.2
    | none => .raise
  else .stop

/-- What `command:call` sends. -/
def Setup.request (i : ι) (r : Request δ) : Message δ :=
  .integer (S.retch i) :: .string r.command :: tableUnpack r.args

/-- `poll` is the part of the service's loop that serves its sockets and sends what they have
to the channels of socket objects. -/
inductive Event (ι δ σ : Type*) where
  | call (i : ι) (r : Request δ)
  | select (i : ι)
  | recv (i : ι)
  | serve
  | reply
  | poll (srv : σ) (sends : List (ChannelId × Message δ))

variable [DecidableEq ι]

def next (s : State ι δ σ) : Event ι δ σ → State ι δ σ
  | .call i r =>
    { s with
      channel := ltaskSend s.channel S.input (S.request i r)
      client := Function.update s.client i .select
      entered := s.entered ++ [(i, r)] }
  | .select i =>
    if (s.channel (S.retch i)).isEmpty then s
    else { s with client := Function.update s.client i .recv }
  | .recv i =>
    let r := ltaskRecv s.channel (S.retch i)
    { s with
      channel := r.2
      client := Function.update s.client i .idle
      returned := Function.update s.returned i (s.returned i ++ [r.1.drop 1]) }
  | .serve =>
    let r := ltaskRecv s.channel S.input
    match dispatch S r.1 s.srv with
    | .stop => { s with channel := r.2 }
    | .raise => { s with channel := r.2, raised := true }
    | .reply retch results srv =>
      { s with
        channel := r.2
        service := .reply retch results
        srv := srv
        executed := s.executed ++
          [⟨r.1.getD 1 .nil, r.1.getD 2 .nil, r.1.drop 3, s.srv, results⟩] }
  | .reply =>
    match s.service with
    | .recv => s
    | .reply (.integer id) results =>
      { s with channel := ltaskSend s.channel id.toNat results, service := .recv }
    | .reply _ _ => { s with raised := true }
  | .poll srv sends =>
    { s with
      srv := srv
      channel := sends.foldl (fun ch m => ltaskSend ch m.1 m.2) s.channel }

def ServicePc.atRecv : ServicePc δ → Bool
  | .recv => true
  | .reply .. => false

/-- A client calls a command that there is, with arguments that are not `nil`, and has no
other call under way. No socket object shares its channel with a command object. -/
def Enabled (s : State ι δ σ) : Event ι δ σ → Prop
  | .call i r => s.client i = .idle ∧ (S.command r.command).isSome ∧ ∀ v ∈ r.args, v.isNil = false
  | .select i => s.client i = .select
  | .recv i => s.client i = .recv
  | .serve => s.service.atRecv = true ∧ s.raised = false
  | .poll _ sends =>
    (s.service.atRecv = true ∧ s.raised = false) ∧
      ∀ m ∈ sends, m.1 ≠ S.input ∧ ∀ i, m.1 ≠ S.retch i
  | .reply => s.service.atRecv = false ∧ s.raised = false

def initial (srv : σ) : State ι δ σ :=
  ⟨fun _ => [], fun _ => .idle, .recv, srv, [], [], fun _ => [], false⟩

def callSystem : System (State ι δ σ) (Event ι δ σ) where
  start s := ∃ srv, s = initial srv
  enabled := Enabled S
  next := next S

/-- The requests that client `i` has made, in order. -/
def State.requestsOf (s : State ι δ σ) (i : ι) : List (Request δ) :=
  (s.entered.filter fun r => r.1 = i).map Prod.snd

def Value.isChannel (id : ChannelId) : Value δ → Bool
  | .integer n => n = id
  | _ => false

/-- What has been executed of them, in the order of execution. -/
def State.executedFor (s : State ι δ σ) (i : ι) : List (Execution δ σ) :=
  s.executed.filter fun e => e.retch.isChannel (S.retch i)

/-- The results that the service is about to send to client `i`. -/
def State.replying (s : State ι δ σ) (i : ι) : List (Message δ) :=
  match s.service with
  | .recv => []
  | .reply retch results => if retch.isChannel (S.retch i) then [results] else []

/-- The results are those of the command function. -/
def Execution.Runs (e : Execution δ σ) : Prop :=
  ∃ name cmdfn, e.command = .string name ∧ S.command name = some cmdfn ∧
    e.results = (cmdfn e.args e.before).1

structure Answered (s : State ι δ σ) : Prop where
  calm : s.raised = false
  known : ∀ r ∈ s.entered, (S.command r.2.command).isSome = true
  clean : ∀ r ∈ s.entered, ∀ v ∈ r.2.args, v.isNil = false
  /-- Every request has been executed or waits in the channel. -/
  order : s.executed.map Execution.message ++ s.channel S.input =
    s.entered.map fun r => S.request r.1 r.2
  runs : ∀ e ∈ s.executed, e.Runs S
  /-- Every result has been returned, waits in the reply channel or is about to be sent. -/
  results : ∀ i, (s.executedFor S i).map Execution.results =
    s.returned i ++ s.channel (S.retch i) ++ s.replying S i
  recv : ∀ i, s.client i = .recv → s.channel (S.retch i) ≠ []
  target : ∀ retch results, s.service = .reply retch results → ∃ i, retch = .integer (S.retch i)
  /-- A client has one call under way, or none. -/
  calls : ∀ i, (s.requestsOf i).length =
    (s.returned i).length + if s.client i = .idle then 0 else 1

variable {S} {s : State ι δ σ} {i j : ι}

theorem tableUnpack_clean {args : Message δ} (h : ∀ v ∈ args, v.isNil = false) :
    tableUnpack args = args := by
  apply List.takeWhile_eq_self_iff.mpr
  intro v hv
  rw [h v hv]
  rfl

omit [DecidableEq ι] in
theorem isChannel_retch : (Value.integer (S.retch j) : Value δ).isChannel (S.retch i) = true ↔
    j = i := by
  rw [Value.isChannel, decide_eq_true_iff, Int.ofNat_inj]
  exact ⟨fun h => S.retch_injective h, fun h => by rw [h]⟩

theorem ltaskSend_self (ch : Channels δ) (id : ChannelId) (msg : Message δ) :
    ltaskSend ch id msg id = ch id ++ [msg] := Function.update_self ..

theorem ltaskSend_other (ch : Channels δ) {id k : ChannelId} (h : k ≠ id) (msg : Message δ) :
    ltaskSend ch id msg k = ch k := Function.update_of_ne h ..

theorem sends_other {ch : Channels δ} {k : ChannelId} {sends : List (ChannelId × Message δ)}
    (h : ∀ m ∈ sends, m.1 ≠ k) : sends.foldl (fun ch m => ltaskSend ch m.1 m.2) ch k = ch k := by
  induction sends generalizing ch with
  | nil => rfl
  | cons m sends ih =>
    rw [List.foldl_cons, ih fun m hm => h m (List.mem_cons_of_mem _ hm)]
    exact ltaskSend_other ch (h m (List.mem_cons_self ..)).symm m.2

theorem ltaskRecv_cons {ch : Channels δ} {id : ChannelId} {msg : Message δ}
    {rest : List (Message δ)} (h : ch id = msg :: rest) :
    ltaskRecv ch id = (.boolean true :: msg, Function.update ch id rest) := by
  rw [ltaskRecv, h]

theorem ltaskRecv_nil {ch : Channels δ} {id : ChannelId} (h : ch id = []) :
    ltaskRecv ch id = ([.boolean false], ch) := by
  rw [ltaskRecv, h]

omit [DecidableEq ι] in
theorem executedFor_singleton {e : Execution δ σ} (he : e.retch = .integer (S.retch i)) :
    ([e].filter fun e => e.retch.isChannel (S.retch j)).map Execution.results =
      if (Value.integer (S.retch i) : Value δ).isChannel (S.retch j) then [e.results] else [] := by
  rw [List.filter_cons, he]
  split <;> rfl

omit [DecidableEq ι] in
/-- The service executes a request of a known command. -/
theorem dispatch_request {r : Request δ} (hclean : ∀ v ∈ r.args, v.isNil = false)
    {cmdfn : Message δ → σ → Message δ × σ} (h : S.command r.command = some cmdfn) (srv : σ) :
    dispatch S (.boolean true :: S.request i r) srv =
      .reply (.integer (S.retch i)) (cmdfn r.args srv).1 (cmdfn r.args srv).2 := by
  rw [Setup.request, tableUnpack_clean hclean]
  simp [dispatch, Value.truthy, Setup.lookup, h]

theorem initial_answered (srv : σ) : Answered S (initial srv) where
  calm := rfl
  known r h := by cases h
  clean r h := by cases h
  order := rfl
  runs e h := by cases h
  results i := rfl
  recv i h := by cases h
  target retch results h := by cases h
  calls i := rfl

theorem call_answered (h : Answered S s) {r : Request δ} (he : Enabled S s (.call i r)) :
    Answered S (next S s (.call i r)) := by
  obtain ⟨hidle, hknown, hclean⟩ := he
  have hother : ∀ j, ltaskSend s.channel S.input (S.request i r) (S.retch j) =
      s.channel (S.retch j) := fun j => ltaskSend_other _ (S.retch_ne_input j) _
  constructor
  · exact h.calm
  · intro q hq
    rcases List.mem_append.mp hq with hq | hq
    · exact h.known q hq
    · rw [List.mem_singleton.mp hq]
      exact hknown
  · intro q hq
    rcases List.mem_append.mp hq with hq | hq
    · exact h.clean q hq
    · rw [List.mem_singleton.mp hq]
      exact hclean
  · change s.executed.map _ ++ ltaskSend s.channel S.input _ S.input = (s.entered ++ [(i, r)]).map _
    rw [ltaskSend_self, ← List.append_assoc, h.order, List.map_append]
    rfl
  · exact h.runs
  · intro j
    change (s.executedFor S j).map _ = s.returned j ++ ltaskSend _ _ _ (S.retch j) ++ _
    rw [hother]
    exact h.results j
  · intro j hj
    change ltaskSend _ _ _ (S.retch j) ≠ []
    rw [hother]
    by_cases hji : j = i
    · subst hji
      change Function.update s.client j .select j = .recv at hj
      rw [Function.update_self] at hj
      cases hj
    · change Function.update s.client i .select j = .recv at hj
      rw [Function.update_of_ne hji] at hj
      exact h.recv j hj
  · exact h.target
  · intro j
    change ((s.entered ++ [(i, r)]).filter _ |>.map _).length =
      (s.returned j).length + if Function.update s.client i .select j = .idle then 0 else 1
    have hcalls := h.calls j
    rw [List.filter_append, List.map_append, List.length_append, ← State.requestsOf]
    by_cases hji : j = i
    · subst hji
      rw [hidle, if_pos rfl] at hcalls
      rw [Function.update_self, if_neg ClientPc.noConfusion, hcalls]
      simp
    · rw [Function.update_of_ne hji]
      simp [hcalls, Ne.symm hji]

theorem select_answered (h : Answered S s) (he : s.client i = .select) :
    Answered S (next S s (.select i)) := by
  simp only [next]
  split
  · exact h
  · rename_i hsome
    constructor
    · exact h.calm
    · exact h.known
    · exact h.clean
    · exact h.order
    · exact h.runs
    · exact h.results
    · intro j hj
      by_cases hji : j = i
      · subst hji
        exact fun hnil => hsome (List.isEmpty_iff.mpr hnil)
      · exact h.recv j ((Function.update_of_ne hji ..).symm.trans hj)
    · exact h.target
    · intro j
      have hcalls := h.calls j
      change (s.requestsOf j).length =
        (s.returned j).length + if Function.update s.client i .recv j = .idle then 0 else 1
      by_cases hji : j = i
      · subst hji
        rw [he, if_neg ClientPc.noConfusion] at hcalls
        rw [Function.update_self, if_neg ClientPc.noConfusion, hcalls]
      · rw [Function.update_of_ne hji]
        exact hcalls

theorem recv_answered (h : Answered S s) (he : s.client i = .recv) :
    Answered S (next S s (.recv i)) := by
  obtain ⟨msg, rest, hchannel⟩ := List.exists_cons_of_ne_nil (h.recv i he)
  simp only [next, ltaskRecv_cons hchannel]
  have hother : ∀ j, j ≠ i → Function.update s.channel (S.retch i) rest (S.retch j) =
      s.channel (S.retch j) := fun j hj => Function.update_of_ne (S.retch_injective.ne hj) ..
  constructor
  · exact h.calm
  · exact h.known
  · exact h.clean
  · change _ ++ Function.update s.channel (S.retch i) rest S.input = _
    rw [Function.update_of_ne (S.retch_ne_input i).symm]
    exact h.order
  · exact h.runs
  · intro j
    have hresults := h.results j
    change (s.executedFor S j).map _ = Function.update s.returned i _ j ++
      Function.update s.channel (S.retch i) rest (S.retch j) ++ s.replying S j
    by_cases hji : j = i
    · subst hji
      rw [hchannel] at hresults
      rw [Function.update_self, Function.update_self, hresults]
      simp
    · rw [Function.update_of_ne hji, hother j hji]
      exact hresults
  · intro j hj
    change Function.update s.client i .idle j = .recv at hj
    change Function.update s.channel (S.retch i) rest (S.retch j) ≠ []
    by_cases hji : j = i
    · subst hji
      rw [Function.update_self] at hj
      cases hj
    · rw [Function.update_of_ne hji] at hj
      rw [hother j hji]
      exact h.recv j hj
  · exact h.target
  · intro j
    have hcalls := h.calls j
    change (s.requestsOf j).length = (Function.update s.returned i _ j).length +
      if Function.update s.client i .idle j = .idle then 0 else 1
    by_cases hji : j = i
    · subst hji
      rw [he, if_neg ClientPc.noConfusion] at hcalls
      rw [Function.update_self, Function.update_self, if_pos rfl, hcalls]
      simp
    · rw [Function.update_of_ne hji, Function.update_of_ne hji]
      exact hcalls

theorem serve_answered (h : Answered S s) (he : s.service.atRecv = true) :
    Answered S (next S s .serve) := by
  have hservice : s.service = .recv := by
    cases hs : s.service with
    | recv => rfl
    | reply retch results =>
      rw [hs] at he
      cases he
  cases hchannel : s.channel S.input with
  | nil =>
    simp only [next, ltaskRecv_nil hchannel]
    exact h
  | cons msg rest =>
    have horder := h.order
    rw [hchannel] at horder
    have hmem : msg ∈ s.entered.map fun r => S.request r.1 r.2 := by
      rw [← horder]
      simp
    obtain ⟨⟨i, r⟩, hr, rfl⟩ := List.mem_map.mp hmem
    obtain ⟨cmdfn, hcmd⟩ := Option.isSome_iff_exists.mp (h.known _ hr)
    have hclean := h.clean _ hr
    have hrest : ∀ j, Function.update s.channel S.input rest (S.retch j) =
        s.channel (S.retch j) := fun j => Function.update_of_ne (S.retch_ne_input j) ..
    simp only [next, ltaskRecv_cons hchannel, dispatch_request hclean hcmd]
    constructor
    · exact h.calm
    · exact h.known
    · exact h.clean
    · change (s.executed ++ [_]).map _ ++ Function.update s.channel S.input rest S.input = _
      rw [Function.update_self, List.map_append, List.append_assoc, ← horder]
      rfl
    · intro e hmem
      rcases List.mem_append.mp hmem with hmem | hmem
      · exact h.runs e hmem
      · rw [List.mem_singleton.mp hmem]
        refine ⟨r.command, cmdfn, rfl, hcmd, ?_⟩
        change _ = (cmdfn (tableUnpack r.args) s.srv).1
        rw [tableUnpack_clean hclean]
    · intro j
      have hresults := h.results j
      rw [State.replying, hservice, List.append_nil] at hresults
      change ((s.executed ++ [_]).filter _).map _ =
        s.returned j ++ Function.update s.channel S.input rest (S.retch j) ++
          if (Value.integer (S.retch i)).isChannel (S.retch j) then [_] else []
      rw [hrest, List.filter_append, List.map_append, ← State.executedFor, hresults]
      congr 1
      exact executedFor_singleton rfl
    · intro j hj
      change Function.update s.channel S.input rest (S.retch j) ≠ []
      rw [hrest]
      exact h.recv j hj
    · intro retch results hreply
      obtain ⟨rfl, -⟩ := ServicePc.reply.inj hreply
      exact ⟨i, rfl⟩
    · exact h.calls

theorem reply_answered (h : Answered S s) (he : s.service.atRecv = false) :
    Answered S (next S s .reply) := by
  cases hservice : s.service with
  | recv =>
    rw [hservice] at he
    cases he
  | reply retch results =>
    obtain ⟨i, rfl⟩ := h.target retch results hservice
    simp only [next, hservice, Int.toNat_natCast]
    constructor
    · exact h.calm
    · exact h.known
    · exact h.clean
    · change _ ++ ltaskSend s.channel (S.retch i) results S.input = _
      rw [ltaskSend_other _ (S.retch_ne_input i).symm]
      exact h.order
    · exact h.runs
    · intro j
      have hresults := h.results j
      rw [State.replying, hservice] at hresults
      change (s.executedFor S j).map _ =
        s.returned j ++ ltaskSend s.channel (S.retch i) results (S.retch j) ++ []
      rw [List.append_nil, hresults]
      by_cases hij : i = j
      · subst hij
        rw [ltaskSend_self, List.append_assoc]
        simp only [isChannel_retch, ↓reduceIte]
      · rw [ltaskSend_other _ (S.retch_injective.ne (Ne.symm hij))]
        simp only [isChannel_retch, hij, ↓reduceIte, List.append_nil]
    · intro j hj
      change ltaskSend s.channel (S.retch i) results (S.retch j) ≠ []
      by_cases hij : i = j
      · subst hij
        rw [ltaskSend_self]
        simp
      · rw [ltaskSend_other _ (S.retch_injective.ne (Ne.symm hij))]
        exact h.recv j hj
    · intro retch results hreply
      cases hreply
    · exact h.calls

theorem poll_answered (h : Answered S s) {srv : σ} {sends : List (ChannelId × Message δ)}
    (he : ∀ m ∈ sends, m.1 ≠ S.input ∧ ∀ i, m.1 ≠ S.retch i) :
    Answered S (next S s (.poll srv sends)) := by
  have hretch : ∀ i, (next S s (.poll srv sends)).channel (S.retch i) = s.channel (S.retch i) :=
    fun i => sends_other fun m hm => (he m hm).2 i
  constructor
  · exact h.calm
  · exact h.known
  · exact h.clean
  · have hinput : (next S s (.poll srv sends)).channel S.input = s.channel S.input :=
      sends_other fun m hm => (he m hm).1
    rw [hinput]
    exact h.order
  · exact h.runs
  · intro i
    rw [hretch]
    exact h.results i
  · intro i hi
    rw [hretch]
    exact h.recv i hi
  · exact h.target
  · exact h.calls

theorem next_answered (h : Answered S s) {e : Event ι δ σ} (he : Enabled S s e) :
    Answered S (next S s e) := by
  cases e with
  | call i r => exact call_answered h he
  | select i => exact select_answered h he
  | recv i => exact recv_answered h he
  | serve => exact serve_answered h he.1
  | reply => exact reply_answered h he.1
  | poll srv sends => exact poll_answered h he.2

theorem reachable_answered (h : Reachable (callSystem S) s) : Answered S s := by
  apply h.invariant (I := Answered S)
  · rintro t ⟨srv, rfl⟩
    exact initial_answered srv
  · intro t e _ ih he
    exact next_answered ih he

/-- The `n`-th execution for a client is that of its `n`-th request. -/
theorem Answered.executedFor_prefix (h : Answered S s) (i : ι) :
    ∃ waiting, (s.executedFor S i).map Execution.message ++ waiting =
      (s.requestsOf i).map (S.request i) := by
  have hmine : ∀ j r, (S.request j r).head?.any (Value.isChannel (S.retch i)) = decide (j = i) := by
    intro j r
    rw [Setup.request, List.head?_cons, Option.any_some, Bool.eq_iff_iff, isChannel_retch,
      decide_eq_true_iff]
  have horder := congrArg (List.filter fun m => m.head?.any (Value.isChannel (S.retch i))) h.order
  rw [List.filter_append, List.filter_map, List.filter_map] at horder
  refine ⟨_, Eq.trans horder ?_⟩
  rw [State.requestsOf, List.map_map]
  have hfilter : (s.entered.filter ((fun m => m.head?.any (Value.isChannel (S.retch i))) ∘
      fun r => S.request r.1 r.2)) = s.entered.filter fun r => r.1 = i :=
    List.filter_congr fun r _ => hmine r.1 r.2
  rw [hfilter]
  apply List.map_congr_left
  intro r hr
  rw [of_decide_eq_true (List.mem_filter.mp hr).2]
  rfl

/-- The service executes the requests once each in the order in which they entered its channel,
with the results of the command functions; what a client's `n`-th call returns are the
results of its `n`-th request, and what else is on the way to the client are the results of
those that follow. -/
theorem calls_answered (h : Reachable (callSystem S) s) :
    s.raised = false ∧
      s.executed.map Execution.message ++ s.channel S.input =
        s.entered.map (fun r => S.request r.1 r.2) ∧
      (∀ e ∈ s.executed, e.Runs S) ∧
      (∀ i, (s.executedFor S i).map Execution.results =
        s.returned i ++ s.channel (S.retch i) ++ s.replying S i) ∧
      (∀ i, (s.requestsOf i).length = (s.returned i).length +
        if s.client i = .idle then 0 else 1) ∧
      ∀ (i : ι) (n : ℕ) (results : Message δ), (s.returned i)[n]? = some results →
        ∃ (r : Request δ) (e : Execution δ σ), (s.requestsOf i)[n]? = some r ∧
          (s.executedFor S i)[n]? = some e ∧ e.message = S.request i r ∧ e.results = results := by
  have hs := reachable_answered h
  refine ⟨hs.calm, hs.order, hs.runs, hs.results, hs.calls, fun i n results hn => ?_⟩
  have hlt : n < (s.returned i).length := by
    by_contra hle
    rw [List.getElem?_eq_none (Nat.not_lt.mp hle)] at hn
    cases hn
  have hresult : ((s.executedFor S i).map Execution.results)[n]? = some results := by
    rw [hs.results i, List.append_assoc, List.getElem?_append_left hlt]
    exact hn
  obtain ⟨e, he, rfl⟩ := Option.map_eq_some_iff.mp ((List.getElem?_map ..).symm.trans hresult)
  obtain ⟨waiting, hwaiting⟩ := hs.executedFor_prefix i
  have hmessage : ((s.requestsOf i).map (S.request i))[n]? = some e.message := by
    rw [← hwaiting, List.getElem?_append_left, List.getElem?_map, he]
    · rfl
    · rw [List.length_map]
      exact (List.getElem?_eq_some_iff.mp he).1
  obtain ⟨r, hr, hreq⟩ := Option.map_eq_some_iff.mp ((List.getElem?_map ..).symm.trans hmessage)
  exact ⟨r, e, hr, he, hreq.symm, rfl⟩

instance [Fintype ι] (s : State ι δ σ) (e : Event ι δ σ) : Decidable (Enabled S s e) :=
  match e with
  | .call .. => inferInstanceAs (Decidable (_ = _ ∧ _ = true ∧ ∀ _ ∈ _, _ = false))
  | .select _ | .recv _ => inferInstanceAs (Decidable (_ = _))
  | .serve | .reply => inferInstanceAs (Decidable (_ = _ ∧ _ = false))
  | .poll .. => inferInstanceAs (Decidable ((_ = _ ∧ _ = false) ∧ ∀ _ ∈ _, _ ≠ _ ∧ ∀ _, _ ≠ _))

instance [Fintype ι] (s : State ι δ σ) (e : Event ι δ σ) :
    Decidable ((callSystem S).enabled s e) :=
  inferInstanceAs (Decidable (Enabled S s e))

/-- A service that counts its calls and answers with the count and the arguments. -/
def counter : Setup Bool ℕ ℕ where
  input := 1
  retch i := if i then 2 else 3
  command name :=
    if name = "count" then some fun args srv => (.other srv :: args, srv + 1) else none
  retch_injective i j h := by cases i <;> cases j <;> first | rfl | cases h
  retch_ne_input i h := by cases i <;> cases h

/-- The second client enters before the first one is answered. -/
def countRun : State Bool ℕ ℕ :=
  runTrace (callSystem counter) (initial 0)
    [.call true ⟨"count", [.integer 8]⟩, .call false ⟨"count", [.integer 9]⟩, .select true, .serve,
      .reply, .serve, .select true, .recv true]

theorem calls_answered_countRun :
    countRun.returned true = [[.other 0, .integer 8]] ∧
      ∃ e : Execution ℕ ℕ, (countRun.executedFor counter true)[0]? = some e ∧
        e.results = [.other 0, .integer 8] :=
  have hret : countRun.returned true = [[.other 0, .integer 8]] := by decide +kernel
  have h := calls_answered (S := counter) (s := countRun)
    (.run (.start ⟨0, rfl⟩) (by decide +kernel))
  have ⟨_, e, _, he, _, hresults⟩ := h.2.2.2.2.2 true 0 [.other 0, .integer 8] (by rw [hret]; rfl)
  ⟨hret, e, he, hresults⟩

end SystemCommand
