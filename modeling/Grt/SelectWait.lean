import Mathlib.Data.Finset.Card
import Grt.SelectPool

/-! `sp_wait` of the `select` backend. It polls the pool window by window, from `select_n` on,
until a call of `select` reports something or the pool is through; what `select` finds ready
within its timeout comes with its calls. -/
namespace SelectWait

open SelectPool (Pool Registry SocketFd entries)
open SocketPoll (Event Sock)

/-- The value in `winsock2.h`. -/
def FD_SETSIZE : ℕ := 64

abbrev FdSet := Finset Sock

/-- What is ready when `select` is called, and whether the call fails if nothing is. -/
structure Outcome where
  readable : FdSet
  writable : FdSet
  fails : Bool

/-- `select` reduces the sets to their ready members and returns the number of members left in
both together. -/
def select (o : Outcome) (rd wt : FdSet) : ℤ × FdSet × FdSet :=
  let rd := rd ∩ o.readable
  let wt := wt ∩ o.writable
  let left := rd.card + wt.card
  (if left = 0 then if o.fails then -1 else 0 else left, rd, wt)

/-- The loop before `select`, for `k` turns from `idx` on. -/
def fillLoop (p : Pool) : ℕ → ℕ → FdSet → FdSet → FdSet × FdSet
  | 0, _, rd, wt => (rd, wt)
  | k + 1, idx, rd, wt =>
    if p.socketN ≤ idx then (rd, wt)
    else
      let e := p.fd idx
      fillLoop p k (idx + 1) (insert e.fd rd) (if e.write then insert e.fd wt else wt)

/-- The loop after `select`, which has stored the events `es` so far. -/
def collectLoop (p : Pool) (rd wt : FdSet) (ret : ℤ) : ℕ → ℕ → List Event → List Event
  | 0, _, es => es
  | k + 1, idx, es =>
    if p.socketN ≤ idx then es
    else
      let fd := (p.fd idx).fd
      let readFlag := decide (fd ∈ rd)
      let writeFlag := decide (fd ∈ wt)
      if readFlag || writeFlag then
        let es := es ++ [⟨(p.fd idx).ud, readFlag, writeFlag⟩]
        if es.length = ret then es else collectLoop p rd wt ret k (idx + 1) es
      else collectLoop p rd wt ret k (idx + 1) es

inductive Result where
  | returned (t : ℤ) (es : List Event) (p : Pool)
  | assertFailed

/-- The turns of `sp_wait`; `outcomes` are those of its calls of `select`. `none` when `fuel`
turns are not enough. -/
def waitLoop (n : ℕ) : ℕ → (ℕ → Outcome) → Pool → Option Result
  | 0, _, _ => none
  | fuel + 1, outcomes, p =>
    let sets := fillLoop p n p.selectN ∅ ∅
    let r := select (outcomes 0) sets.1 sets.2
    let selectN := p.selectN + n
    if r.1 ≤ 0 then
      if p.socketN ≤ selectN then some (.returned r.1 [] { p with selectN := 0 })
      else waitLoop n fuel (fun k => outcomes (k + 1)) { p with selectN := selectN }
    else
      let es := collectLoop p r.2.1 r.2.2 r.1 n p.selectN []
      if es.length = r.1 then
        some (.returned r.1 es
          { p with selectN := if p.socketN ≤ selectN then 0 else selectN })
      else some .assertFailed

def spWait (fuel : ℕ) (outcomes : ℕ → Outcome) (p : Pool) (n : ℕ) : Option Result :=
  waitLoop (min n FD_SETSIZE) fuel outcomes p

/-- The entries from `idx` on, `n` at most. -/
def window (p : Pool) (idx n : ℕ) : List SocketFd := entries p.fd idx (min n (p.socketN - idx))

def socks (w : List SocketFd) : FdSet := (w.map SocketFd.fd).toFinset

/-- What `select` leaves of the read set of a window. -/
def readSet (o : Outcome) (w : List SocketFd) : FdSet := socks w ∩ o.readable

/-- What `select` leaves of the write set of a window. -/
def writeSet (o : Outcome) (w : List SocketFd) : FdSet :=
  socks (w.filter SocketFd.write) ∩ o.writable

def left (o : Outcome) (w : List SocketFd) : ℕ := (readSet o w).card + (writeSet o w).card

def ready (rd wt : FdSet) (e : SocketFd) : Bool := e.fd ∈ rd || e.fd ∈ wt

def event (rd wt : FdSet) (e : SocketFd) : Event := ⟨e.ud, e.fd ∈ rd, e.fd ∈ wt⟩

/-- The entries of a window that are in the read set or in the write set. -/
def readyEntries (o : Outcome) (w : List SocketFd) : List SocketFd :=
  w.filter (ready (readSet o w) (writeSet o w))

def eventsOf (o : Outcome) (w : List SocketFd) : List Event :=
  (readyEntries o w).map (event (readSet o w) (writeSet o w))

/-- The window of the `k`-th call of `select`. -/
def polled (p : Pool) (n k : ℕ) : List SocketFd := window p (p.selectN + k * n) n

/-- The `k`-th call of `select` is the first one that reports anything. -/
structure FirstReport (outcomes : ℕ → Outcome) (p : Pool) (n k : ℕ) : Prop where
  reports : left (outcomes k) (polled p n k) ≠ 0
  first : ∀ j < k, left (outcomes j) (polled p n j) = 0

/-- The events are exactly the ready sockets of the window, each once. -/
structure Exact (o : Outcome) (w : List SocketFd) (t : ℤ) (es : List Event) : Prop where
  count : t = es.length
  events : es = eventsOf o w
  once : ((readyEntries o w).map SocketFd.fd).Nodup

/-- The assertion holds, and a positive count comes with the events of the window polled last. -/
structure WaitOk (outcomes : ℕ → Outcome) (p : Pool) (n : ℕ) (r : Result) : Prop where
  assert : r ≠ .assertFailed
  exact : ∀ t es q, r = .returned t es q → 0 < t →
    ∃ k, FirstReport outcomes p n k ∧ Exact (outcomes k) (polled p n k) t es

/-- No socket is in both sets, and none that is ready is in the window twice. -/
structure NoneTwice (o : Outcome) (w : List SocketFd) : Prop where
  disjoint : Disjoint (readSet o w) (writeSet o w)
  once : ((readyEntries o w).map SocketFd.fd).Nodup

variable {p : Pool} {n k idx m : ℕ} {o : Outcome} {w : List SocketFd} {rd wt : FdSet}
  {es : List Event} {outcomes : ℕ → Outcome} {r : Result}

theorem window_nil (h : p.socketN ≤ idx) : window p idx n = [] := by
  rw [window, Nat.sub_eq_zero_of_le h, Nat.min_zero, entries]

theorem window_succ (h : ¬ p.socketN ≤ idx) :
    window p idx (n + 1) = p.fd idx :: window p (idx + 1) n := by
  have hmin : min (n + 1) (p.socketN - idx) = min n (p.socketN - (idx + 1)) + 1 := by omega
  rw [window, hmin, entries, window]

theorem fillLoop_eq (p : Pool) (k idx : ℕ) (rd wt : FdSet) : fillLoop p k idx rd wt =
    (rd ∪ socks (window p idx k), wt ∪ socks ((window p idx k).filter SocketFd.write)) := by
  induction k generalizing idx rd wt with
  | zero => simp [fillLoop, window, entries, socks]
  | succ k ih =>
    rw [fillLoop]
    split
    · rename_i hend
      simp [window_nil hend, socks]
    · rename_i hlt
      rw [ih, window_succ hlt]
      simp only [socks, List.map_cons, List.toFinset_cons, Finset.insert_union,
        Finset.union_insert, List.filter_cons]
      split
      · simp
      · rfl

/-- The loop stores the first ready entries, `m` in all at most. -/
theorem collectLoop_eq (p : Pool) (rd wt : FdSet) (k idx : ℕ) (h : es.length < m) :
    collectLoop p rd wt m k idx es =
      es ++ (((window p idx k).filter (ready rd wt)).take (m - es.length)).map (event rd wt) := by
  induction k generalizing idx es with
  | zero => simp [collectLoop, window, entries]
  | succ k ih =>
    rw [collectLoop]
    split
    · rename_i hend
      simp [window_nil hend]
    · rename_i hlt
      rw [window_succ hlt, List.filter_cons]
      dsimp only
      have hready : (decide ((p.fd idx).fd ∈ rd) || decide ((p.fd idx).fd ∈ wt)) =
          ready rd wt (p.fd idx) := rfl
      rw [hready]
      by_cases hr : ready rd wt (p.fd idx)
      · rw [if_pos hr, if_pos hr]
        simp only [List.length_append, List.length_singleton, Int.ofNat_inj]
        split
        · rename_i hfull
          obtain rfl : m = es.length + 1 := hfull.symm
          rw [Nat.add_sub_cancel_left, List.take_succ_cons, List.take_zero]
          rfl
        · rename_i hmore
          have hrest : m - es.length = m - (es.length + 1) + 1 := by omega
          rw [ih _ (by rw [List.length_append, List.length_singleton]; omega),
            List.length_append, List.length_singleton, hrest, List.take_succ_cons,
            List.append_assoc]
          rfl
      · rw [if_neg hr, if_neg hr, ih _ h]

/-- What `sp_wait` makes of a call of `select` that reports something. -/
def report (o : Outcome) (w : List SocketFd) (q : Pool) : Result :=
  if left o w ≤ (readyEntries o w).length then
    .returned (left o w) ((eventsOf o w).take (left o w)) q
  else .assertFailed

theorem select_eq (o : Outcome) (w : List SocketFd) :
    select o (socks w) (socks (w.filter SocketFd.write)) =
      ((if left o w = 0 then if o.fails then -1 else 0 else left o w : ℤ), readSet o w,
        writeSet o w) :=
  rfl

theorem eventsOf_length (o : Outcome) (w : List SocketFd) :
    (eventsOf o w).length = (readyEntries o w).length := List.length_map ..

theorem collectLoop_report (hleft : left o (window p idx n) ≠ 0) :
    collectLoop p (readSet o (window p idx n)) (writeSet o (window p idx n))
        (left o (window p idx n)) n idx [] =
      (eventsOf o (window p idx n)).take (left o (window p idx n)) := by
  rw [collectLoop_eq _ _ _ _ _ (Nat.pos_of_ne_zero hleft), List.nil_append, List.length_nil,
    Nat.sub_zero, List.map_take]
  rfl

theorem polled_zero (p : Pool) (n : ℕ) : polled p n 0 = window p p.selectN n := by
  rw [polled, Nat.zero_mul, Nat.add_zero]

theorem polled_succ (p : Pool) (n k : ℕ) :
    polled p n (k + 1) = polled { p with selectN := p.selectN + n } n k := by
  rw [polled, polled, Nat.succ_mul, Nat.add_comm (k * n), ← Nat.add_assoc]
  rfl

theorem waitLoop_nothing (h : left (outcomes 0) (polled p n 0) = 0) (fuel : ℕ) :
    waitLoop n (fuel + 1) outcomes p =
      if p.socketN ≤ p.selectN + n then
        some (.returned (if (outcomes 0).fails then -1 else 0) [] { p with selectN := 0 })
      else waitLoop n fuel (fun k => outcomes (k + 1)) { p with selectN := p.selectN + n } := by
  have hret : (if (outcomes 0).fails then -1 else 0 : ℤ) ≤ 0 := by split <;> decide
  rw [polled_zero] at h
  rw [waitLoop, fillLoop_eq, Finset.empty_union, Finset.empty_union]
  simp only [select_eq, h, if_true, hret]

theorem waitLoop_report (h : left (outcomes 0) (polled p n 0) ≠ 0) (fuel : ℕ) :
    waitLoop n (fuel + 1) outcomes p = some (report (outcomes 0) (polled p n 0)
      { p with selectN := if p.socketN ≤ p.selectN + n then 0 else p.selectN + n }) := by
  rw [polled_zero] at h ⊢
  have hpos : ¬ (left (outcomes 0) (window p p.selectN n) : ℤ) ≤ 0 := by omega
  rw [waitLoop, fillLoop_eq, Finset.empty_union, Finset.empty_union]
  simp only [select_eq, h, if_false, hpos, collectLoop_report h, List.length_take,
    eventsOf_length, report, Int.ofNat_inj, min_eq_left_iff]
  split <;> rfl

theorem left_nil (o : Outcome) : left o [] = 0 := by simp [left, readSet, writeSet, socks]

/-- The result of the first report, or one without events if there is no report. -/
def Decided (outcomes : ℕ → Outcome) (p : Pool) (n : ℕ) (r : Result) : Prop :=
  (∃ k q, FirstReport outcomes p n k ∧ r = report (outcomes k) (polled p n k) q) ∨
  ((∀ k, left (outcomes k) (polled p n k) = 0) ∧ ∃ t q, t ≤ 0 ∧ r = .returned t [] q)

/-- A turn that reports nothing leaves the decision to the later ones. -/
theorem decided_later (hnone : left (outcomes 0) (polled p n 0) = 0)
    (h : Decided (fun k => outcomes (k + 1)) { p with selectN := p.selectN + n } n r) :
    Decided outcomes p n r := by
  rcases h with ⟨k, q, hk, hr⟩ | ⟨hall, hr⟩
  · refine Or.inl ⟨k + 1, q, ⟨?_, ?_⟩, by rw [polled_succ]; exact hr⟩
    · rw [polled_succ]
      exact hk.reports
    · intro j hj
      cases j with
      | zero => exact hnone
      | succ j =>
        rw [polled_succ]
        exact hk.first j (Nat.lt_of_succ_lt_succ hj)
  · refine Or.inr ⟨fun k => ?_, hr⟩
    cases k with
    | zero => exact hnone
    | succ k =>
      rw [polled_succ]
      exact hall k

/-- The last turn reports nothing, and no later window has an entry. -/
theorem decided_end (hnone : left (outcomes 0) (polled p n 0) = 0)
    (hend : p.socketN ≤ p.selectN + n) (q : Pool) :
    Decided outcomes p n (.returned (if (outcomes 0).fails then -1 else 0) [] q) := by
  refine Or.inr ⟨fun k => ?_, _, q, ?_, rfl⟩
  · cases k with
    | zero => exact hnone
    | succ k => rw [polled, window_nil (hend.trans (by rw [Nat.succ_mul]; omega)), left_nil]
  · split <;> decide

/-- Each turn moves the window on, and `d` is how far it has to go. -/
theorem waitLoop_decided (hn : 0 < n) (d : ℕ) : ∀ outcomes p, p.socketN ≤ p.selectN + d →
    ∃ r, (∀ fuel, d < fuel → waitLoop n fuel outcomes p = some r) ∧ Decided outcomes p n r := by
  induction d using Nat.strong_induction_on with
  | _ d ih =>
    intro outcomes p hd
    have succ_of_lt {P : ℕ → Prop} (h : ∀ fuel, P (fuel + 1)) (fuel : ℕ) (hfuel : d < fuel) :
        P fuel := by
      cases fuel with
      | zero => exact absurd hfuel (Nat.not_lt_zero d)
      | succ fuel => exact h fuel
    by_cases hleft : left (outcomes 0) (polled p n 0) = 0
    · by_cases hend : p.socketN ≤ p.selectN + n
      · exact ⟨_, succ_of_lt fun fuel => (waitLoop_nothing hleft fuel).trans (if_pos hend),
          decided_end hleft hend _⟩
      · obtain ⟨r, hloop, hr⟩ := ih (d - n) (by omega) (fun k => outcomes (k + 1))
          { p with selectN := p.selectN + n } (by change p.socketN ≤ p.selectN + n + _; omega)
        refine ⟨r, fun fuel hfuel => ?_, decided_later hleft hr⟩
        cases fuel with
        | zero => exact absurd hfuel (Nat.not_lt_zero d)
        | succ fuel =>
          rw [waitLoop_nothing hleft, if_neg hend]
          exact hloop fuel (by omega)
    · exact ⟨_, succ_of_lt (waitLoop_report hleft),
        Or.inl ⟨0, _, ⟨hleft, fun j hj => absurd hj (Nat.not_lt_zero j)⟩, rfl⟩⟩

/-- Only one call of `select` is the first that reports. -/
theorem FirstReport.unique {k' : ℕ} (h : FirstReport outcomes p n k)
    (h' : FirstReport outcomes p n k') : k' = k := by
  rcases Nat.lt_trichotomy k k' with hlt | heq | hgt
  · exact absurd (h'.first k hlt) h.reports
  · exact heq.symm
  · exact absurd (h.first k' hgt) h'.reports

theorem readyEntries_toFinset (o : Outcome) (w : List SocketFd) :
    ((readyEntries o w).map SocketFd.fd).toFinset = readSet o w ∪ writeSet o w := by
  ext x
  simp only [List.mem_toFinset, List.mem_map, Finset.mem_union]
  constructor
  · rintro ⟨e, he, rfl⟩
    simpa [ready] using (List.mem_filter.mp he).2
  · intro hx
    obtain ⟨e, he, rfl⟩ : ∃ e ∈ w, e.fd = x := by
      rcases hx with hx | hx
      · exact List.mem_map.mp (List.mem_toFinset.mp (Finset.mem_inter.mp hx).1)
      · obtain ⟨e, he, heq⟩ := List.mem_map.mp (List.mem_toFinset.mp (Finset.mem_inter.mp hx).1)
        exact ⟨e, (List.mem_filter.mp he).1, heq⟩
    refine ⟨e, List.mem_filter.mpr ⟨he, ?_⟩, rfl⟩
    simpa [ready] using hx

/-- Ready entries for different sockets are as many as `select` says if and only if no socket
is in both sets. -/
theorem readyEntries_length (honce : ((readyEntries o w).map SocketFd.fd).Nodup) :
    (readyEntries o w).length = left o w ↔ Disjoint (readSet o w) (writeSet o w) := by
  have hcard : (readyEntries o w).length = (readSet o w ∪ writeSet o w).card := by
    rw [← readyEntries_toFinset, List.toFinset_card_of_nodup honce, List.length_map]
  have hsum := Finset.card_union_add_card_inter (readSet o w) (writeSet o w)
  rw [Finset.disjoint_iff_inter_eq_empty, ← Finset.card_eq_zero, hcard, left]
  omega

theorem report_exact_iff (q : Pool) :
    (report o w q ≠ .assertFailed ∧
      ∀ t es q', report o w q = .returned t es q' → Exact o w t es) ↔ NoneTwice o w := by
  constructor
  · rintro ⟨hassert, hexact⟩
    have hle : left o w ≤ (readyEntries o w).length := by
      by_contra hlt
      exact hassert (if_neg hlt)
    obtain ⟨-, hevents, honce⟩ := hexact _ _ _ (if_pos hle)
    have hall : (readyEntries o w).length ≤ left o w := by
      rw [← eventsOf_length]
      exact List.take_eq_self_iff _ |>.mp hevents
    exact ⟨(readyEntries_length honce).mp (hall.antisymm hle), honce⟩
  · intro h
    have hlen := (readyEntries_length h.once).mpr h.disjoint
    have htake : (eventsOf o w).take (left o w) = eventsOf o w :=
      List.take_of_length_le (by rw [eventsOf_length, hlen])
    have hreport : report o w q = .returned (left o w) (eventsOf o w) q := by
      rw [report, if_pos hlen.ge, htake]
    rw [hreport]
    refine ⟨Result.noConfusion, fun t es q' heq => ?_⟩
    cases heq
    exact ⟨by rw [eventsOf_length, hlen], rfl, h.once⟩

theorem report_count {q q' : Pool} {t : ℤ} (h : report o w q = .returned t es q') :
    t = left o w := by
  rw [report] at h
  split at h
  · cases h
    rfl
  · cases h

theorem decided_ok_iff (h : Decided outcomes p n r) : WaitOk outcomes p n r ↔
    ∀ k, FirstReport outcomes p n k → NoneTwice (outcomes k) (polled p n k) := by
  rcases h with ⟨k, q, hk, rfl⟩ | ⟨hnone, t, q, ht, rfl⟩
  · have hok : WaitOk outcomes p n (report (outcomes k) (polled p n k) q) ↔
        NoneTwice (outcomes k) (polled p n k) := by
      rw [← report_exact_iff q]
      constructor
      · rintro ⟨hassert, hexact⟩
        refine ⟨hassert, fun t es q' heq => ?_⟩
        have hpos : 0 < t := by
          rw [report_count heq]
          exact Int.natCast_pos.mpr (Nat.pos_of_ne_zero hk.reports)
        obtain ⟨k', hk', hexact⟩ := hexact t es q' heq hpos
        rwa [hk.unique hk'] at hexact
      · rintro ⟨hassert, hexact⟩
        exact ⟨hassert, fun t es q' heq _ => ⟨k, hk, hexact t es q' heq⟩⟩
    rw [hok]
    constructor
    · intro hnone k' hk'
      rw [hk.unique hk']
      exact hnone
    · exact fun hall => hall k hk
  · refine iff_of_true ⟨Result.noConfusion, fun t' es q' heq hpos => ?_⟩ fun k hk => ?_
    · cases heq
      exact absurd hpos ht.not_gt
    · exact absurd (hnone k) hk.reports

/-- `sp_wait` with room for an event returns, and its assertion holds and its events are exact
if and only if the first call of `select` that reports anything finds no socket ready for both
and none twice. -/
theorem wait_ok_iff (outcomes : ℕ → Outcome) (p : Pool) (hn : 0 < n) :
    ∃ r, (∀ fuel, p.socketN < fuel → spWait fuel outcomes p n = some r) ∧
      (WaitOk outcomes p (min n FD_SETSIZE) r ↔
        ∀ k, FirstReport outcomes p (min n FD_SETSIZE) k →
          NoneTwice (outcomes k) (polled p (min n FD_SETSIZE) k)) := by
  obtain ⟨r, hloop, hr⟩ := waitLoop_decided (lt_min hn (by decide : 0 < FD_SETSIZE)) p.socketN
    outcomes p (Nat.le_add_left _ _)
  exact ⟨r, hloop, decided_ok_iff hr⟩

theorem polled_sublist (p : Pool) (n k : ℕ) : (polled p n k).Sublist p.contents := by
  rw [polled, Pool.contents]
  generalize p.selectN + k * n = idx
  by_cases hend : p.socketN ≤ idx
  · rw [window_nil hend]
    exact List.nil_sublist _
  · obtain ⟨rest, hrest⟩ : ∃ rest, p.socketN = idx + (min n (p.socketN - idx) + rest) :=
      ⟨p.socketN - idx - min n (p.socketN - idx), by omega⟩
    rw [window, hrest, SelectPool.entries_add, SelectPool.entries_add, Nat.zero_add, ← hrest]
    exact (List.sublist_append_left ..).trans (List.sublist_append_right ..)

/-- In a pool whose sockets were added once, none is in a window twice. -/
theorem noneTwice_iff {registry : Registry} (h : SelectPool.Refines (p, registry)) (o : Outcome)
    (n k : ℕ) : NoneTwice o (polled p n k) ↔
      Disjoint (readSet o (polled p n k)) (writeSet o (polled p n k)) := by
  refine ⟨NoneTwice.disjoint, fun hdisjoint => ⟨hdisjoint, ?_⟩⟩
  exact h.nodup.sublist ((List.filter_sublist.trans (polled_sublist p n k)).map _)

/-- Socket 3 can be read and socket 4 written; both are reported. -/
def samplePool : Pool := ⟨0, 16, 2, fun i => if i = 0 then ⟨3, 30, false⟩ else ⟨4, 40, true⟩⟩

def sampleOutcome : Outcome := ⟨{3}, {4}, false⟩

theorem wait_ok_iff_sample :
    ∃ r, spWait 3 (fun _ => sampleOutcome) samplePool 2 = some r ∧
      WaitOk (fun _ => sampleOutcome) samplePool 2 r := by
  obtain ⟨r, hloop, hok⟩ := wait_ok_iff (fun _ => sampleOutcome) samplePool (n := 2) (by decide)
  have hfirst : FirstReport (fun _ => sampleOutcome) samplePool 2 0 :=
    ⟨by decide, fun j hj => absurd hj (Nat.not_lt_zero j)⟩
  refine ⟨r, hloop 3 (by decide), hok.mpr fun k hk => ?_⟩
  rw [hfirst.unique hk]
  exact ⟨by decide, by decide⟩

/-- One socket that can be read and written. -/
def bothPool : Pool := ⟨0, 16, 1, fun _ => ⟨3, 30, true⟩⟩

def bothOutcome : Outcome := ⟨{3}, {3}, false⟩

/-- `select` returns 2 for one socket, and the assertion fails. -/
theorem both_ready_assert_fails :
    spWait 2 (fun _ => bothOutcome) bothPool 1 = some .assertFailed ∧
      ¬ WaitOk (fun _ => bothOutcome) bothPool 1 .assertFailed :=
  ⟨rfl, fun h => h.assert rfl⟩

end SelectWait
