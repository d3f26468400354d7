import Mathlib.Data.Fintype.Basic
import Grt.TransitionSystem

/-! The start of the socket service. Every task that loads `socket.lua` looks the service up in
the table of `system.c`, which all `lua_State`s share, and starts one when there is none; the
look-up, the creation of the channel and of the task and the store are separate calls. -/
namespace SocketLoader

open TransitionSystem

abbrev ChannelId := ℕ

def SERVICE_SOCKET : ℕ := 1

def SERVICE_MAX : ℕ := 2

/-- `srv_table`, which starts with zeros. -/
abbrev SrvTable := Fin SERVICE_MAX → ChannelId

/-- `csystem.get`; `none` is `nil`. -/
def lget (t : SrvTable) (srvId : Fin SERVICE_MAX) : Option ChannelId :=
  if t srvId = 0 then none else some (t srvId)

/-- `csystem.set`. -/
def lset (t : SrvTable) (srvId : Fin SERVICE_MAX) (chId : ChannelId) : SrvTable :=
  Function.update t srvId chId

def SOCKET : Fin SERVICE_MAX := ⟨SERVICE_SOCKET, Nat.lt_succ_self _⟩

/-- Where a task is in the initialisation of `socket_chan`; `loaded` has its final value. -/
inductive Pc where
  | get
  | channel
  | task (socketChan : ChannelId)
  | set (socketChan : ChannelId)
  | loaded (socketChan : ChannelId)
  | failed
  deriving DecidableEq

/-- `services` lists the channels that `socket_service` tasks were created with, and
`channels` those that `ltask.channel` returned. -/
structure State (ι : Type*) where
  srvTable : SrvTable
  channels : List ChannelId
  services : List ChannelId
  pc : ι → Pc

variable {ι : Type*} [DecidableEq ι]

def initial : State ι := ⟨fun _ => 0, [], [], fun _ => .get⟩

def State.goto (s : State ι) (i : ι) (pc : Pc) : State ι :=
  { s with pc := Function.update s.pc i pc }

/-- `channel` comes with the handle that `ltask.channel` returns; `ltask.task` may fail. -/
inductive Event (ι : Type*) where
  | get (i : ι)
  | channel (i : ι) (ch : ChannelId)
  | task (i : ι)
  | taskFails (i : ι)
  | set (i : ι)
  deriving DecidableEq

def next (s : State ι) : Event ι → State ι
  | .get i =>
    match lget s.srvTable SOCKET with
    | some ch => s.goto i (.loaded ch)
    | none => s.goto i .channel
  | .channel i ch => { s with channels := ch :: s.channels }.goto i (.task ch)
  | .task i =>
    match s.pc i with
    | .task ch => { s with services := ch :: s.services }.goto i (.set ch)
    | _ => s
  | .taskFails i => s.goto i .failed
  | .set i =>
    match s.pc i with
    | .set ch => { s with srvTable := lset s.srvTable SOCKET ch }.goto i (.loaded ch)
    | _ => s

def Pc.isTask : Pc → Bool
  | .task _ => true
  | _ => false

def Pc.isSet : Pc → Bool
  | .set _ => true
  | _ => false

/-- A new channel has a new handle. -/
def Enabled (s : State ι) : Event ι → Prop
  | .get i => s.pc i = .get
  | .channel i ch => s.pc i = .channel ∧ ch ≠ 0 ∧ ch ∉ s.channels
  | .task i | .taskFails i => (s.pc i).isTask
  | .set i => (s.pc i).isSet

def loaderSystem : System (State ι) (Event ι) where
  start s := s = initial
  enabled := Enabled
  next := next

/-- Between a look-up that found no service and the store. -/
def Pc.starting : Pc → Bool
  | .channel | .task _ | .set _ => true
  | .get | .loaded _ | .failed => false

/-- A look-up that finds no service finds no other task that is starting one. -/
def Alone (s : State ι) : Event ι → Prop
  | .get i => lget s.srvTable SOCKET = none → ∀ j, j ≠ i → (s.pc j).starting = false
  | _ => True

theorem isTask_eq {pc : Pc} (h : pc.isTask = true) : ∃ ch, pc = .task ch := by
  cases pc with
  | task ch => exact ⟨ch, rfl⟩
  | _ => cases h

theorem isSet_eq {pc : Pc} (h : pc.isSet = true) : ∃ ch, pc = .set ch := by
  cases pc with
  | set ch => exact ⟨ch, rfl⟩
  | _ => cases h

/-- The service a task has created but not yet stored. -/
def Pc.created : Pc → Option ChannelId
  | .set ch => some ch
  | _ => none

/-- One task at a time starts a service, while the table has none; the service that there is
is the one it has created, or else the one in the table. -/
structure Single (s : State ι) : Prop where
  alone : ∀ i j, (s.pc i).starting = true → (s.pc j).starting = true → i = j
  unset : ∀ i, (s.pc i).starting = true → lget s.srvTable SOCKET = none
  starting : ∀ i, (s.pc i).starting = true → s.services = (s.pc i).created.toList
  idle : (∀ i, (s.pc i).starting = false) → s.services = (lget s.srvTable SOCKET).toList
  fresh : ∀ i ch, s.pc i = .task ch ∨ s.pc i = .set ch → ch ≠ 0
  loaded : ∀ i ch, s.pc i = .loaded ch → lget s.srvTable SOCKET = some ch

variable {s t : State ι} {i : ι} {ch : ChannelId} {pc : Pc}

theorem goto_self (s : State ι) (i : ι) (pc : Pc) : (s.goto i pc).pc i = pc :=
  Function.update_self ..

theorem goto_other (s : State ι) {j : ι} (h : j ≠ i) (pc : Pc) : (s.goto i pc).pc j = s.pc j :=
  Function.update_of_ne h ..

omit [DecidableEq ι] in
theorem Single.not_starting (h : Single s) (hi : (s.pc i).starting = true) {j : ι} (hj : j ≠ i) :
    (s.pc j).starting = false := by
  by_contra hother
  exact hj (h.alone j i (Bool.eq_true_of_not_eq_false hother) hi)

/-- The task that is starting the service goes on with it. -/
theorem Single.start (h : Single s) (hothers : ∀ j, j ≠ i → (s.pc j).starting = false)
    (hpc : t.pc = s.pc) (htable : t.srvTable = s.srvTable) (hnone : lget s.srvTable SOCKET = none)
    (hstart : pc.starting = true) (hservices : t.services = pc.created.toList)
    (hfresh : ∀ ch, pc = .task ch ∨ pc = .set ch → ch ≠ 0) : Single (t.goto i pc) := by
  have hme : ∀ j, ((t.goto i pc).pc j).starting = true → j = i := by
    intro j hj
    by_contra hji
    rw [goto_other _ hji, hpc, hothers j hji] at hj
    cases hj
  constructor
  · intro j k hj hk
    rw [hme j hj, hme k hk]
  · intro j _
    exact htable ▸ hnone
  · intro j hj
    obtain rfl := hme j hj
    rw [goto_self]
    exact hservices
  · intro hall
    have hi := hall i
    rw [goto_self, hstart] at hi
    cases hi
  · intro j c hj
    by_cases hji : j = i
    · subst hji
      rw [goto_self] at hj
      exact hfresh c hj
    · rw [goto_other _ hji, hpc] at hj
      exact h.fresh j c hj
  · intro j c hj
    change lget t.srvTable SOCKET = some c
    rw [htable]
    by_cases hji : j = i
    · subst hji
      rw [goto_self] at hj
      rw [hj] at hstart
      cases hstart
    · rw [goto_other _ hji, hpc] at hj
      exact h.loaded j c hj

/-- A task ends its part, and nobody is starting a service. -/
theorem single_of_idle (hothers : ∀ j, j ≠ i → (s.pc j).starting = false)
    (hpc : t.pc = s.pc) (hstop : pc.starting = false)
    (hservices : t.services = (lget t.srvTable SOCKET).toList)
    (hmine : ∀ ch, pc = .loaded ch → lget t.srvTable SOCKET = some ch)
    (hkeep : ∀ j ch, s.pc j = .loaded ch → lget t.srvTable SOCKET = some ch) :
    Single (t.goto i pc) := by
  have hall : ∀ j, ((t.goto i pc).pc j).starting = false := by
    intro j
    by_cases hji : j = i
    · subst hji
      rw [goto_self]
      exact hstop
    · rw [goto_other _ hji, hpc]
      exact hothers j hji
  constructor
  · intro j k hj
    rw [hall j] at hj
    cases hj
  · intro j hj
    rw [hall j] at hj
    cases hj
  · intro j hj
    rw [hall j] at hj
    cases hj
  · intro _
    exact hservices
  · intro j c hj
    have hstart := hall j
    rcases hj with hj | hj
    · rw [hj] at hstart
      cases hstart
    · rw [hj] at hstart
      cases hstart
  · intro j c hj
    by_cases hji : j = i
    · subst hji
      rw [goto_self] at hj
      exact hmine c hj
    · rw [goto_other _ hji, hpc] at hj
      exact hkeep j c hj

omit [DecidableEq ι] in
theorem initial_single : Single (initial : State ι) where
  alone i j hi := by cases hi
  unset i hi := by cases hi
  starting i hi := by cases hi
  idle _ := rfl
  fresh i ch hi := by rcases hi with hi | hi <;> cases hi
  loaded i ch hi := by cases hi

theorem get_single (h : Single s) (hpc : s.pc i = .get) (halone : Alone s (.get i)) :
    Single (next s (.get i)) := by
  have hi : (s.pc i).starting = false := by
    rw [hpc]
    rfl
  simp only [next]
  split
  · rename_i ch hch
    have hidle : ∀ j, (s.pc j).starting = false := by
      intro j
      by_contra hj
      have hnone := h.unset j (Bool.eq_true_of_not_eq_false hj)
      rw [hch] at hnone
      cases hnone
    apply single_of_idle (fun j _ => hidle j) rfl rfl (h.idle hidle)
    · intro c hc
      rw [hch, Pc.loaded.inj hc]
    · exact h.loaded
  · rename_i hnone
    have hothers := halone hnone
    have hidle : ∀ j, (s.pc j).starting = false := by
      intro j
      by_cases hji : j = i
      · rw [hji]
        exact hi
      · exact hothers j hji
    apply h.start hothers rfl rfl hnone rfl
    · rw [h.idle hidle, hnone]
      rfl
    · intro c hc
      rcases hc with hc | hc <;> cases hc

theorem next_single (h : Single s) {e : Event ι} (he : Enabled s e) (halone : Alone s e) :
    Single (next s e) := by
  cases e with
  | get i => exact get_single h he halone
  | channel i ch =>
    obtain ⟨hpc, hch, -⟩ := he
    have hi : (s.pc i).starting = true := by
      rw [hpc]
      rfl
    apply h.start (t := { s with channels := ch :: s.channels })
      (fun j hj => h.not_starting hi hj) rfl rfl (h.unset i hi) rfl
    · change s.services = _
      rw [h.starting i hi, hpc]
      rfl
    · intro c hc
      rcases hc with hc | hc
      · exact Pc.task.inj hc ▸ hch
      · cases hc
  | task i =>
    obtain ⟨ch, hpc⟩ := isTask_eq he
    have hi : (s.pc i).starting = true := by
      rw [hpc]
      rfl
    have hservices := h.starting i hi
    simp only [next, hpc]
    rw [hpc] at hservices
    apply h.start (t := { s with services := ch :: s.services })
      (fun j hj => h.not_starting hi hj) rfl rfl (h.unset i hi) rfl
    · change ch :: s.services = _
      rw [hservices]
      rfl
    · intro c hc
      rcases hc with hc | hc
      · cases hc
      · exact Pc.set.inj hc ▸ h.fresh i ch (Or.inl hpc)
  | taskFails i =>
    obtain ⟨ch, hpc⟩ := isTask_eq he
    have hi : (s.pc i).starting = true := by
      rw [hpc]
      rfl
    apply single_of_idle (fun j hj => h.not_starting hi hj) rfl rfl
    · rw [h.starting i hi, h.unset i hi, hpc]
      rfl
    · intro c hc
      cases hc
    · exact h.loaded
  | set i =>
    obtain ⟨ch, hpc⟩ := isSet_eq he
    have hi : (s.pc i).starting = true := by
      rw [hpc]
      rfl
    have hfound : lget (lset s.srvTable SOCKET ch) SOCKET = some ch := by
      rw [lget, lset, Function.update_self, if_neg (h.fresh i ch (Or.inr hpc))]
    have hservices := h.starting i hi
    simp only [next, hpc]
    rw [hpc] at hservices
    apply single_of_idle (t := { s with srvTable := lset s.srvTable SOCKET ch })
      (fun j hj => h.not_starting hi hj) rfl rfl
    · rw [hfound]
      exact hservices
    · intro c hc
      rw [hfound, Pc.loaded.inj hc]
    · -- nobody has found a service in a table that had none
      intro j c hj
      have hnone := h.unset i hi
      rw [h.loaded j c hj] at hnone
      cases hnone

theorem reachable_single (h : Reachable (loaderSystem.when Alone) s) : Single s := by
  apply h.invariant (I := Single)
  · rintro t rfl
    exact initial_single
  · intro t e _ ih he
    exact next_single ih he.1 he.2

/-- Loaders that do not look the service up while another one is starting it create one
service, and all that have loaded the module use its channel. -/
theorem one_socket_service (h : Reachable (loaderSystem.when Alone) s) :
    s.services.length ≤ 1 ∧ ∀ i ch, s.pc i = .loaded ch → s.services = [ch] := by
  have hs := reachable_single h
  by_cases hidle : ∀ i, (s.pc i).starting = false
  · rw [hs.idle hidle]
    refine ⟨?_, fun i ch hi => by rw [hs.loaded i ch hi]; rfl⟩
    cases lget s.srvTable SOCKET with
    | none => exact Nat.zero_le 1
    | some ch => exact le_rfl
  · obtain ⟨i, hi⟩ := not_forall.mp hidle
    have hstart := Bool.eq_true_of_not_eq_false hi
    refine ⟨?_, fun j ch hj => ?_⟩
    · rw [hs.starting i hstart]
      cases (s.pc i).created with
      | none => exact Nat.zero_le 1
      | some ch => exact le_rfl
    · have hnone := hs.unset i hstart
      rw [hs.loaded j ch hj] at hnone
      cases hnone

instance (s : State ι) (e : Event ι) : Decidable (Enabled s e) :=
  match e with
  | .get _ => inferInstanceAs (Decidable (_ = _))
  | .channel .. => inferInstanceAs (Decidable (_ = _ ∧ _ ≠ 0 ∧ _ ∉ _))
  | .task _ | .taskFails _ | .set _ => inferInstanceAs (Decidable (_ = true))

instance [Fintype ι] (s : State ι) (e : Event ι) : Decidable (Alone s e) :=
  match e with
  | .get _ => inferInstanceAs (Decidable (_ → ∀ _, _ → _))
  | .channel .. | .task _ | .taskFails _ | .set _ => isTrue trivial

instance (s : State ι) (e : Event ι) : Decidable (loaderSystem.enabled s e) :=
  inferInstanceAs (Decidable (Enabled s e))

instance [Fintype ι] (s : State ι) (e : Event ι) :
    Decidable ((loaderSystem.when Alone).enabled s e) :=
  inferInstanceAs (Decidable (Enabled s e ∧ Alone s e))

/-- The second task looks up after the first one has stored its channel. -/
def onceRun : State Bool :=
  runTrace (loaderSystem.when Alone) initial
    [.get true, .channel true 5, .task true, .set true, .get false]

theorem one_socket_service_onceRun : onceRun.pc false = .loaded 5 ∧ onceRun.services = [5] :=
  have hpc : onceRun.pc false = .loaded 5 := by decide +kernel
  have h := one_socket_service (s := onceRun) (.run (.start rfl) (by decide +kernel))
  ⟨hpc, h.2 false 5 hpc⟩

/-- Two tasks look up before either one stores. -/
def twiceRun : State Bool :=
  runTrace loaderSystem initial
    [.get true, .get false, .channel true 5, .channel false 6, .task true, .task false,
      .set true, .set false]

theorem two_socket_services :
    Reachable loaderSystem twiceRun ∧ twiceRun.services = [6, 5] ∧
      twiceRun.pc true = .loaded 5 ∧ twiceRun.pc false = .loaded 6 :=
  ⟨.run (.start rfl) (by decide +kernel), by decide +kernel, by decide +kernel,
    by decide +kernel⟩

end SocketLoader
