import Mathlib.Data.List.Nodup
import Grt.SocketPoll
import Grt.TransitionSystem

/-! The pool of the `select` backend, `socket_select.h`: an array that grows, against the
sockets that were added and not deleted since. -/
namespace SelectPool

open TransitionSystem
open SocketPoll (Sock)

def DEFAULT_CAP : ℕ := 16

structure SocketFd where
  fd : Sock
  ud : Sock
  write : Bool
  deriving DecidableEq

/-- `struct select_pool`. What lies at and after `socketN` in the array `fd` is arbitrary. -/
structure Pool where
  selectN : ℕ
  cap : ℕ
  socketN : ℕ
  fd : ℕ → SocketFd

/-- `realloc` keeps what the array holds. -/
def expand (p : Pool) : Pool :=
  { p with
    cap := p.cap * 2
    selectN := 0
    socketN := 0 }

/-- `fd` is what `malloc` returned. -/
def spCreate (fd : ℕ → SocketFd) : Pool := ⟨0, DEFAULT_CAP, 0, fd⟩

def spAdd (p : Pool) (sock ud : Sock) : ℕ × Pool :=
  let p := if p.cap ≤ p.socketN then expand p else p
  (0, { p with
    socketN := p.socketN + 1
    fd := Function.update p.fd p.socketN ⟨sock, ud, false⟩ })

/-- The loop of `sp_del` for `k` turns from `i` on. -/
def delLoop (sock : Sock) : ℕ → ℕ → Bool → (ℕ → SocketFd) → Bool × (ℕ → SocketFd)
  | 0, _, move, fd => (move, fd)
  | k + 1, i, move, fd =>
    if move then delLoop sock k (i + 1) move (Function.update fd (i - 1) (fd i))
    else delLoop sock k (i + 1) (decide ((fd i).fd = sock)) fd

def spDel (p : Pool) (sock : Sock) : Pool :=
  let r := delLoop sock p.socketN 0 false p.fd
  { p with
    socketN := if r.1 then p.socketN - 1 else p.socketN
    fd := r.2 }

def writeLoop (sock : Sock) (enable : Bool) : ℕ → ℕ → (ℕ → SocketFd) → ℕ → SocketFd
  | 0, _, fd => fd
  | k + 1, i, fd =>
    if (fd i).fd = sock then Function.update fd i { fd i with write := enable }
    else writeLoop sock enable k (i + 1) fd

/-- `sp_write`, which does not look at its `ud`. -/
def spWrite (p : Pool) (sock : Sock) (enable : Bool) : Pool :=
  { p with fd := writeLoop sock enable p.socketN 0 p.fd }

/-- The `k` entries from `i` on. -/
def entries (fd : ℕ → SocketFd) : ℕ → ℕ → List SocketFd
  | _, 0 => []
  | i, k + 1 => fd i :: entries fd (i + 1) k

/-- `fd[0..socket_n)` -/
def Pool.contents (p : Pool) : List SocketFd := entries p.fd 0 p.socketN

/-- Sockets in the order in which they were added, each once. -/
structure Registry where
  list : List SocketFd
  nodup : (list.map SocketFd.fd).Nodup

namespace Registry

def socks (r : Registry) : List Sock := r.list.map SocketFd.fd

def empty : Registry := ⟨[], List.nodup_nil⟩

def add (r : Registry) (sock ud : Sock) : Registry :=
  if h : sock ∈ r.socks then r
  else
    { list := r.list ++ [⟨sock, ud, false⟩]
      nodup := by
        rw [List.map_append, List.nodup_append]
        refine ⟨r.nodup, List.nodup_singleton _, ?_⟩
        intro x hx y hy hxy
        rw [hxy, List.mem_singleton.mp hy] at hx
        exact h hx }

def del (r : Registry) (sock : Sock) : Registry where
  list := r.list.filter fun e => e.fd ≠ sock
  nodup := r.nodup.sublist (List.filter_sublist.map _)

def setWrite (sock : Sock) (enable : Bool) (e : SocketFd) : SocketFd :=
  if e.fd = sock then { e with write := enable } else e

theorem setWrite_fd (sock : Sock) (enable : Bool) (e : SocketFd) :
    (setWrite sock enable e).fd = e.fd := by
  rw [setWrite]
  split <;> rfl

def write (r : Registry) (sock : Sock) (enable : Bool) : Registry where
  list := r.list.map (setWrite sock enable)
  nodup := by
    rw [List.map_map]
    exact (List.map_congr_left fun e _ => setWrite_fd sock enable e) ▸ r.nodup

end Registry

inductive Event where
  | add (sock ud : Sock)
  | del (sock : Sock)
  | write (sock : Sock) (enable : Bool)

abbrev State := Pool × Registry

def next (s : State) : Event → State
  | .add sock ud => ((spAdd s.1 sock ud).2, s.2.add sock ud)
  | .del sock => (spDel s.1 sock, s.2.del sock)
  | .write sock enable => (spWrite s.1 sock enable, s.2.write sock enable)

/-- Only sockets that are not in the pool are added. -/
def Enabled (s : State) : Event → Prop
  | .add sock _ => sock ∉ s.2.socks
  | .del _ | .write .. => True

def selectSystem : System State Event where
  start s := ∃ fd, s = (spCreate fd, .empty)
  enabled := Enabled
  next := next

def Refines (s : State) : Prop := s.1.contents = s.2.list

/-- Deleting a socket that is not there changes nothing. -/
def AbsentDel (s : State) : Event → Prop
  | .add .. | .write .. => True
  | .del sock => sock ∉ s.2.socks → spDel s.1 sock = s.1

/-- The array is not full when a socket is added. -/
def HasRoom (s : State) : Event → Prop
  | .add .. => s.1.socketN < s.1.cap
  | .del _ | .write .. => True

variable {fd fd' : ℕ → SocketFd} {sock : Sock} {i j k : ℕ}

theorem entries_length (fd : ℕ → SocketFd) (i k : ℕ) : (entries fd i k).length = k := by
  induction k generalizing i with
  | zero => rfl
  | succ k ih => rw [entries, List.length_cons, ih]

theorem entries_congr (h : ∀ j, i ≤ j → j < i + k → fd j = fd' j) :
    entries fd i k = entries fd' i k := by
  induction k generalizing i with
  | zero => rfl
  | succ k ih =>
    rw [entries, entries, h i le_rfl (by omega), ih fun j hj hk => h j (by omega) (by omega)]

theorem entries_update (fd : ℕ → SocketFd) (e : SocketFd) (h : j < i ∨ i + k ≤ j) :
    entries (Function.update fd j e) i k = entries fd i k :=
  entries_congr fun m hm hk => Function.update_of_ne (by omega) ..

theorem entries_add (fd : ℕ → SocketFd) (i k l : ℕ) :
    entries fd i (k + l) = entries fd i k ++ entries fd (i + k) l := by
  induction k generalizing i with
  | zero => rw [Nat.zero_add, entries, List.nil_append, Nat.add_zero]
  | succ k ih => rw [Nat.succ_add, entries, entries, ih, List.cons_append, Nat.succ_add_eq_add_succ]

/-- Once it has found the socket, the loop moves the rest of the entries one place down. -/
theorem delLoop_move (sock : Sock) (k : ℕ) (fd : ℕ → SocketFd) (hi : 0 < i) :
    (delLoop sock k i true fd).1 = true ∧
    entries (delLoop sock k i true fd).2 (i - 1) k = entries fd i k ∧
    ∀ j, j + 1 < i → (delLoop sock k i true fd).2 j = fd j := by
  induction k generalizing i fd with
  | zero => exact ⟨rfl, rfl, fun _ _ => rfl⟩
  | succ k ih =>
    rw [delLoop, if_pos rfl]
    obtain ⟨hmove, hrest, hbelow⟩ := ih (i := i + 1) (Function.update fd (i - 1) (fd i))
      (Nat.succ_pos i)
    refine ⟨hmove, ?_, fun j hj => ?_⟩
    · rw [Nat.add_sub_cancel, entries_update _ _ (by omega)] at hrest
      rw [entries, entries, Nat.sub_add_cancel hi, hrest, hbelow _ (by omega),
        Function.update_self]
    · rw [hbelow j (by omega), Function.update_of_ne (by omega)]

theorem delLoop_absent (h : ∀ e ∈ entries fd i k, e.fd ≠ sock) :
    delLoop sock k i false fd = (false, fd) := by
  induction k generalizing i with
  | zero => rfl
  | succ k ih =>
    rw [entries, List.forall_mem_cons] at h
    rw [delLoop, if_neg Bool.false_ne_true, decide_eq_false h.1]
    exact ih h.2

theorem filter_of_absent {l : List SocketFd} (h : ∀ e ∈ l, e.fd ≠ sock) :
    l.filter (fun e => e.fd ≠ sock) = l :=
  List.filter_eq_self.mpr fun e he => decide_eq_true (h e he)

theorem delLoop_present (hnodup : ((entries fd i k).map SocketFd.fd).Nodup)
    (h : ∃ e ∈ entries fd i k, e.fd = sock) :
    (delLoop sock k i false fd).1 = true ∧
    entries (delLoop sock k i false fd).2 i (k - 1) =
      (entries fd i k).filter (fun e => e.fd ≠ sock) ∧
    ∀ j < i, (delLoop sock k i false fd).2 j = fd j := by
  induction k generalizing i with
  | zero =>
    obtain ⟨e, he, -⟩ := h
    cases he
  | succ k ih =>
    rw [entries, List.map_cons, List.nodup_cons] at hnodup
    rw [delLoop, if_neg Bool.false_ne_true, entries, Nat.add_sub_cancel]
    by_cases hhere : (fd i).fd = sock
    · obtain ⟨hmove, hrest, hbelow⟩ := delLoop_move sock k fd (Nat.succ_pos i)
      rw [decide_eq_true hhere, List.filter_cons_of_neg (by simp [hhere]), filter_of_absent]
      · exact ⟨hmove, hrest, fun j hj => hbelow j (Nat.succ_lt_succ hj)⟩
      · rintro e he rfl
        exact hnodup.1 (hhere ▸ List.mem_map_of_mem he)
    · rw [entries, List.exists_mem_cons_iff] at h
      have hlater := h.resolve_left hhere
      obtain ⟨hmove, hrest, hbelow⟩ := ih hnodup.2 hlater
      rw [decide_eq_false hhere, List.filter_cons_of_pos (by simp [hhere]), ← hrest]
      refine ⟨hmove, ?_, fun j hj => hbelow j (Nat.lt_succ_of_lt hj)⟩
      cases k with
      | zero =>
        obtain ⟨e, he, -⟩ := hlater
        cases he
      | succ k => rw [entries, hbelow i (Nat.lt_succ_self i), Nat.add_sub_cancel]

theorem writeLoop_entries (enable : Bool) (hnodup : ((entries fd i k).map SocketFd.fd).Nodup) :
    entries (writeLoop sock enable k i fd) i k =
      (entries fd i k).map (Registry.setWrite sock enable) ∧
    ∀ j < i, writeLoop sock enable k i fd j = fd j := by
  induction k generalizing i with
  | zero => exact ⟨rfl, fun _ _ => rfl⟩
  | succ k ih =>
    rw [entries, List.map_cons, List.nodup_cons] at hnodup
    rw [writeLoop, entries, entries, List.map_cons, Registry.setWrite]
    by_cases hhere : (fd i).fd = sock
    · have hother : ∀ e ∈ entries fd (i + 1) k, Registry.setWrite sock enable e = e := by
        intro e he
        refine if_neg fun heq => hnodup.1 ?_
        rw [hhere, ← heq]
        exact List.mem_map_of_mem he
      rw [if_pos hhere, if_pos hhere, Function.update_self,
        entries_update _ _ (Or.inl (Nat.lt_succ_self i)), List.map_congr_left hother, List.map_id']
      exact ⟨rfl, fun j hj => Function.update_of_ne (Nat.ne_of_lt hj) ..⟩
    · obtain ⟨hrest, hbelow⟩ := ih hnodup.2
      rw [if_neg hhere, if_neg hhere, hrest, hbelow i (Nat.lt_succ_self i)]
      exact ⟨rfl, fun j hj => hbelow j (Nat.lt_succ_of_lt hj)⟩

variable {p : Pool} {r : Registry} {ud : Sock} {s : State}

theorem Refines.nodup (h : Refines (p, r)) : (p.contents.map SocketFd.fd).Nodup :=
  congrArg (fun l => (l.map SocketFd.fd).Nodup) h ▸ r.nodup

theorem Refines.socketN (h : Refines (p, r)) : p.socketN = r.list.length := by
  rw [← congrArg List.length h]
  exact (entries_length ..).symm

/-- With room in the array the new socket comes last, and a full array is forgotten. -/
theorem spAdd_contents (p : Pool) (sock ud : Sock) : (spAdd p sock ud).2.contents =
    if p.socketN < p.cap then p.contents ++ [⟨sock, ud, false⟩] else [⟨sock, ud, false⟩] := by
  have hadd (q : Pool) : entries (Function.update q.fd q.socketN ⟨sock, ud, false⟩) 0
      (q.socketN + 1) = q.contents ++ [⟨sock, ud, false⟩] := by
    rw [entries_add, Nat.zero_add, entries, entries, Function.update_self,
      entries_update _ _ (Or.inr (by omega))]
    rfl
  rw [spAdd, Pool.contents]
  by_cases hroom : p.socketN < p.cap
  · rw [if_pos hroom, if_neg hroom.not_ge]
    exact hadd p
  · rw [if_neg hroom, if_pos (Nat.not_lt.mp hroom)]
    exact hadd (expand p)

theorem spDel_refines (h : Refines (p, r)) (sock : Sock) :
    Refines (spDel p sock, r.del sock) ∧ (sock ∉ r.socks → spDel p sock = p) := by
  have hcontents : entries p.fd 0 p.socketN = r.list := h
  by_cases hmem : ∃ e ∈ entries p.fd 0 p.socketN, e.fd = sock
  · obtain ⟨hmove, hrest, -⟩ := delLoop_present h.nodup hmem
    constructor
    · rw [Refines, Pool.contents, spDel, hmove]
      rw [hcontents] at hrest
      exact hrest
    · intro habsent
      obtain ⟨e, he, rfl⟩ := hmem
      rw [hcontents] at he
      exact absurd (List.mem_map_of_mem he) habsent
  · have hnone : ∀ e ∈ entries p.fd 0 p.socketN, e.fd ≠ sock := fun e he heq => hmem ⟨e, he, heq⟩
    have hloop := delLoop_absent hnone
    have hsame : spDel p sock = p := by rw [spDel, hloop]; rfl
    refine ⟨?_, fun _ => hsame⟩
    rw [hcontents] at hnone
    rw [hsame]
    exact h.trans (filter_of_absent hnone).symm

theorem spWrite_refines (h : Refines (p, r)) (sock : Sock) (enable : Bool) :
    Refines (spWrite p sock enable, r.write sock enable) := by
  have hcontents : p.contents = r.list := h
  exact (writeLoop_entries enable h.nodup).1.trans
    (congrArg (List.map (Registry.setWrite sock enable)) hcontents)

theorem next_cap (s : State) (e : Event) (h : 0 < s.1.cap) : 0 < (next s e).1.cap := by
  cases e with
  | add sock ud =>
    change 0 < (spAdd s.1 sock ud).2.cap
    rw [spAdd]
    split
    · exact Nat.mul_pos h Nat.two_pos
    · exact h
  | del sock => exact h
  | write sock enable => exact h

theorem step_iff (s : State) (e : Event) (hcap : 0 < s.1.cap) (h : Refines s)
    (he : Enabled s e) :
    AbsentDel s e ∧ Refines (next s e) ↔ HasRoom s e := by
  obtain ⟨p, r⟩ := s
  cases e with
  | add sock ud =>
    have hlist : (r.add sock ud).list = r.list ++ [⟨sock, ud, false⟩] := by
      rw [Registry.add, dif_neg he]
    have hcontents : p.contents = r.list := h
    change True ∧ (spAdd p sock ud).2.contents = (r.add sock ud).list ↔ p.socketN < p.cap
    rw [true_and, spAdd_contents, hlist, ← hcontents]
    by_cases hroom : p.socketN < p.cap
    · rw [if_pos hroom]
      exact iff_of_true rfl hroom
    · rw [if_neg hroom]
      refine iff_of_false (fun heq => ?_) hroom
      have hnil : p.contents = [] := List.append_cancel_right (heq.symm.trans rfl)
      have hzero : p.contents.length = p.socketN := entries_length ..
      rw [hnil] at hzero
      exact hroom (hzero ▸ hcap)
  | del sock => exact iff_of_true (spDel_refines h sock).symm trivial
  | write sock enable => exact iff_of_true ⟨trivial, spWrite_refines h sock enable⟩ trivial

/-- Over a run of calls the pool holds the sockets added and not deleted since, in order, with
their `ud` and `write`, if and only if no socket is added to a full array. -/
theorem pool_refines_iff (fd : ℕ → SocketFd) {es : List Event}
    (h : ValidTrace selectSystem (spCreate fd, .empty) es) :
    Throughout selectSystem Refines AbsentDel (spCreate fd, .empty) es ↔
      ValidTrace (selectSystem.when HasRoom) (spCreate fd, .empty) es :=
  throughout_iff_of_invariant (K := fun s : State => 0 < s.1.cap) (fun s e hs _ => next_cap s e hs)
    step_iff (Nat.succ_pos _) rfl h

instance (s : State) (e : Event) : Decidable (Enabled s e) := by
  cases e <;> unfold Enabled <;> infer_instance

instance (s : State) (e : Event) : Decidable (HasRoom s e) := by
  cases e <;> unfold HasRoom <;> infer_instance

instance (s : State) (e : Event) : Decidable (selectSystem.enabled s e) :=
  inferInstanceAs (Decidable (Enabled s e))

def garbage : ℕ → SocketFd := fun _ => ⟨0, 0, true⟩

def sampleRun : List Event := [.add 3 30, .add 4 40, .write 3 true, .del 4, .del 9, .add 5 50]

theorem pool_refines_iff_sampleRun :
    Throughout selectSystem Refines AbsentDel (spCreate garbage, .empty) sampleRun :=
  (pool_refines_iff garbage (by decide)).mpr (by decide)

/-- One socket more than `DEFAULT_CAP`. -/
def fullRun : List Event := (List.range 17).map fun i => .add i i

/-- Growing the array forgets the sockets that were there. -/
theorem seventeenth_forgets : ValidTrace selectSystem (spCreate garbage, .empty) fullRun ∧
    (runTrace selectSystem (spCreate garbage, .empty) fullRun).1.contents = [⟨16, 16, false⟩] ∧
    (runTrace selectSystem (spCreate garbage, .empty) fullRun).2.list.length = 17 ∧
    ¬ Refines (runTrace selectSystem (spCreate garbage, .empty) fullRun) := by
  refine ⟨by decide, by decide, by decide, fun h => ?_⟩
  exact absurd (congrArg List.length h) (by decide)

end SelectPool
