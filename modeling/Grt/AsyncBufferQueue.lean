import Mathlib.Data.List.Range
import Mathlib.Logic.Function.Basic
import Mathlib.Algebra.Order.Ring.Int
import Grt.TransitionSystem

/-! The queue of `async.lua`: two Lua tables, one that values are pushed to and one that they
are popped from, which change places when the second is used up. As a FIFO list it does not
matter where the values lie. -/
namespace AsyncBufferQueue

open TransitionSystem

variable {α : Type*}

/-- The integer keys of a Lua table; those above `top` are `nil`. -/
structure Table (α : Type*) where
  get : ℤ → Option α
  top : ℕ
  nil_above : ∀ i : ℤ, top < i → get i = none

namespace Table

def empty : Table α := ⟨fun _ => none, 0, fun _ _ => rfl⟩

def set (t : Table α) (i : ℤ) (v : Option α) : Table α where
  get := Function.update t.get i v
  top := max t.top i.toNat
  nil_above j hj := by
    have hne : j ≠ i := by omega
    rw [Function.update_of_ne hne]
    exact t.nil_above j (by omega)

/-- The first border from `n` on. -/
def borderFrom (t : Table α) : ℕ → ℕ → ℕ
  | 0, n => n
  | fuel + 1, n => if (t.get (n + 1)).isNone then n else borderFrom t fuel (n + 1)

/-- `#t`, which for a sequence is its length whatever border Lua takes. -/
def border (t : Table α) : ℕ := t.borderFrom t.top 0

/-- `table.insert(t, x)`. -/
def insert (t : Table α) (x : α) : Table α := t.set (t.border + 1) (some x)

end Table

structure BufferQueue (α : Type*) where
  head : ℤ
  tail : ℤ
  deque : Table α
  enque : Table α

def newBufferQueue : BufferQueue α := ⟨1, 1, .empty, .empty⟩

namespace BufferQueue

def push (q : BufferQueue α) (x : α) : BufferQueue α := { q with enque := q.enque.insert x }

def pop (q : BufferQueue α) : Option α × BufferQueue α :=
  let q := if q.head = q.tail then ⟨1, q.enque.border + 1, q.enque, q.deque⟩ else q
  if q.head < q.tail then
    (q.deque.get q.head, { q with deque := q.deque.set q.head none, head := q.head + 1 })
  else (none, q)

def pushBack (q : BufferQueue α) (x : α) : BufferQueue α :=
  { q with head := q.head - 1, deque := q.deque.set (q.head - 1) (some x) }

/-- The queued values in the order they are popped. -/
def contents (q : BufferQueue α) : List α :=
  (List.range (q.tail - q.head).toNat).filterMap (fun i : ℕ => q.deque.get (q.head + i)) ++
    (List.range q.enque.border).filterMap fun i : ℕ => q.enque.get (1 + i)

end BufferQueue

/-- The values of `l` stand at `lo`, `lo + 1`, ... and nothing else does. -/
def IsSeq (t : Table α) (lo : ℤ) (l : List α) : Prop :=
  ∀ i : ℤ, t.get i = if lo ≤ i then l[(i - lo).toNat]? else none

variable {t : Table α} {lo : ℤ} {l : List α} {x : α}

theorem empty_isSeq (lo : ℤ) : IsSeq (.empty : Table α) lo [] := by
  intro i
  split <;> rfl

/-- A sequence without values is one from anywhere. -/
theorem IsSeq.nil (h : IsSeq t lo []) (hi : ℤ) : IsSeq t hi [] := by
  intro i
  rw [h i]
  simp

theorem IsSeq.head (h : IsSeq t lo (x :: l)) : t.get lo = some x := by
  rw [h lo, if_pos le_rfl, sub_self]
  rfl

theorem IsSeq.tail (h : IsSeq t lo (x :: l)) : IsSeq (t.set lo none) (lo + 1) l := by
  intro i
  change Function.update t.get lo none i = _
  by_cases hi : i = lo
  · subst hi
    rw [Function.update_self, if_neg (by omega)]
  · rw [Function.update_of_ne hi, h i]
    by_cases hle : lo ≤ i
    · rw [if_pos hle, if_pos (by omega), show (i - lo).toNat = (i - (lo + 1)).toNat + 1 by omega,
        List.getElem?_cons_succ]
    · rw [if_neg hle, if_neg (by omega)]

theorem IsSeq.cons (h : IsSeq t lo l) (x : α) :
    IsSeq (t.set (lo - 1) (some x)) (lo - 1) (x :: l) := by
  intro i
  change Function.update t.get (lo - 1) (some x) i = _
  by_cases hi : i = lo - 1
  · subst hi
    rw [Function.update_self, if_pos le_rfl, sub_self]
    rfl
  · rw [Function.update_of_ne hi, h i]
    by_cases hle : lo ≤ i
    · rw [if_pos hle, if_pos (by omega),
        show (i - (lo - 1)).toNat = (i - lo).toNat + 1 by omega, List.getElem?_cons_succ]
    · rw [if_neg hle, if_neg (by omega)]

theorem IsSeq.borderFrom (h : IsSeq t 1 l) (fuel n : ℕ) (hn : n ≤ l.length)
    (hfuel : l.length ≤ n + fuel) : t.borderFrom fuel n = l.length := by
  induction fuel generalizing n with
  | zero =>
    rw [Table.borderFrom]
    omega
  | succ fuel ih =>
    have hget : t.get (n + 1) = l[n]? := by
      rw [h, if_pos (by omega)]
      congr 1
      omega
    by_cases hlen : l.length ≤ n
    · have hnone : l[n]?.isNone := Option.isNone_iff_eq_none.mpr (List.getElem?_eq_none hlen)
      rw [Table.borderFrom, hget, if_pos hnone]
      omega
    · rw [Table.borderFrom, hget, List.getElem?_eq_getElem (by omega), if_neg (by simp)]
      exact ih (n + 1) (by omega) (by omega)

/-- The border of a sequence is its length. -/
theorem IsSeq.border (h : IsSeq t 1 l) : t.border = l.length := by
  apply h.borderFrom t.top 0 (Nat.zero_le _)
  by_contra hlong
  have hget := h (l.length : ℤ)
  rw [t.nil_above _ (by omega), if_pos (by omega)] at hget
  have hlast := List.getElem?_eq_none_iff.mp hget.symm
  omega

theorem IsSeq.insert (h : IsSeq t 1 l) (x : α) : IsSeq (t.insert x) 1 (l ++ [x]) := by
  intro i
  rw [Table.insert, h.border]
  change Function.update t.get _ (some x) i = _
  by_cases hi : i = l.length + 1
  · subst hi
    have hlast : ((l.length : ℤ) + 1 - 1).toNat = l.length := by omega
    rw [Function.update_self, if_pos (by omega), hlast, List.getElem?_concat_length]
  · rw [Function.update_of_ne hi, h i]
    by_cases hle : 1 ≤ i
    · rw [if_pos hle, if_pos hle]
      by_cases hlt : (i - 1).toNat < l.length
      · rw [List.getElem?_append_left hlt]
      · rw [List.getElem?_eq_none (by omega), List.getElem?_eq_none]
        rw [List.length_append, List.length_singleton]
        omega
    · rw [if_neg hle, if_neg hle]

theorem filterMap_getElem? (l : List α) : (List.range l.length).filterMap (fun i => l[i]?) = l := by
  induction l with
  | nil => rfl
  | cons a l ih =>
    rw [List.length_cons, List.range_succ_eq_map, List.filterMap_cons, List.filterMap_map]
    exact congrArg (a :: ·) ih

theorem IsSeq.read (h : IsSeq t lo l) :
    (List.range l.length).filterMap (fun i : ℕ => t.get (lo + i)) = l := by
  have hget : ∀ i ∈ List.range l.length, t.get (lo + (i : ℤ)) = l[i]? := by
    intro i _
    rw [h, if_pos (by omega)]
    congr 1
    omega
  rw [List.filterMap_congr hget, filterMap_getElem?]

/-- The values of `l` lie first in `deque`, from `head` on, and then in `enque`. -/
def Holds (q : BufferQueue α) (l : List α) : Prop :=
  ∃ front back, l = front ++ back ∧ IsSeq q.deque q.head front ∧
    q.tail = q.head + front.length ∧ IsSeq q.enque 1 back

variable {q : BufferQueue α}

theorem Holds.contents (h : Holds q l) : q.contents = l := by
  obtain ⟨front, back, rfl, hfront, htail, hback⟩ := h
  have hlen : (q.tail - q.head).toNat = front.length := by omega
  rw [BufferQueue.contents, hlen, hfront.read, hback.border, hback.read]

theorem newBufferQueue_holds : Holds (newBufferQueue : BufferQueue α) [] :=
  ⟨[], [], rfl, empty_isSeq 1, rfl, empty_isSeq 1⟩

theorem push_holds (h : Holds q l) (x : α) : Holds (q.push x) (l ++ [x]) := by
  obtain ⟨front, back, rfl, hfront, htail, hback⟩ := h
  exact ⟨front, back ++ [x], List.append_assoc .., hfront, htail, hback.insert x⟩

theorem pushBack_holds (h : Holds q l) (x : α) : Holds (q.pushBack x) (x :: l) := by
  obtain ⟨front, back, rfl, hfront, htail, hback⟩ := h
  refine ⟨x :: front, back, rfl, hfront.cons x, ?_, hback⟩
  change q.tail = q.head - 1 + _
  rw [List.length_cons, htail]
  omega

/-- Popping from a `deque` that is not used up. -/
theorem pop_front {front back : List α} (hfront : IsSeq q.deque q.head (x :: front))
    (htail : q.tail = q.head + (x :: front).length) (hback : IsSeq q.enque 1 back) :
    q.pop.1 = some x ∧ Holds q.pop.2 (front ++ back) := by
  rw [List.length_cons] at htail
  have hne : ¬q.head = q.tail := by omega
  have hlt : q.head < q.tail := by omega
  simp only [BufferQueue.pop, if_neg hne, if_pos hlt]
  refine ⟨hfront.head, front, back, rfl, hfront.tail, ?_, hback⟩
  change q.tail = q.head + 1 + _
  omega

/-- The tables change places before anything is popped. -/
theorem pop_swap (h : q.head = q.tail) (hborder : q.enque.border ≠ 0) :
    q.pop = BufferQueue.pop ⟨1, q.enque.border + 1, q.enque, q.deque⟩ := by
  have hne : ¬(1 : ℤ) = q.enque.border + 1 := by omega
  simp only [BufferQueue.pop, if_pos h, if_neg hne]

theorem pop_cons (h : Holds q (x :: l)) : q.pop.1 = some x ∧ Holds q.pop.2 l := by
  obtain ⟨front, back, hl, hfront, htail, hback⟩ := h
  cases front with
  | cons y front =>
    obtain ⟨rfl, rfl⟩ := List.cons.inj hl
    exact pop_front hfront htail hback
  | nil =>
    subst hl
    have hempty : q.head = q.tail := by
      rw [htail]
      exact (Int.add_zero _).symm
    have hborder : q.enque.border ≠ 0 := by
      rw [hback.border]
      exact Nat.succ_ne_zero _
    rw [pop_swap hempty hborder]
    have hseq := pop_front (q := ⟨1, q.enque.border + 1, q.enque, q.deque⟩) hback
      (by rw [hback.border]; exact Int.add_comm _ _) (hfront.nil 1)
    rwa [List.append_nil] at hseq

theorem pop_nil (h : Holds q []) : q.pop.1 = none ∧ Holds q.pop.2 [] := by
  obtain ⟨front, back, hl, hfront, htail, hback⟩ := h
  obtain ⟨rfl, rfl⟩ := List.append_eq_nil_iff.mp hl.symm
  have hempty : q.head = q.tail := by
    rw [htail]
    exact (Int.add_zero _).symm
  have hborder : q.enque.border = 0 := hback.border
  have hpop : q.pop = (none, ⟨1, 1, q.enque, q.deque⟩) := by
    simp [BufferQueue.pop, hempty, hborder]
  rw [hpop]
  exact ⟨rfl, [], [], rfl, hback, rfl, hfront.nil 1⟩

theorem pop_holds (h : Holds q l) : q.pop.1 = l.head? ∧ Holds q.pop.2 l.tail := by
  cases l with
  | nil => exact pop_nil h
  | cons x l => exact pop_cons h

/-- What `#t` may be. -/
def IsBorder (t : Table α) (n : ℕ) : Prop := (n = 0 ∨ t.get n ≠ none) ∧ t.get (n + 1) = none

/-- A sequence has no other border than its length. -/
theorem IsSeq.isBorder_iff (h : IsSeq t 1 l) {n : ℕ} : IsBorder t n ↔ n = t.border := by
  have hnext : t.get (n + 1) = l[n]? := by
    rw [h, if_pos (by omega)]
    congr 1
    omega
  rw [IsBorder, hnext, List.getElem?_eq_none_iff, h.border]
  constructor
  · rintro ⟨hn, hle⟩
    rcases hn with rfl | hn
    · omega
    · by_contra hne
      have hout : t.get n = none := by
        rw [h]
        split
        · exact List.getElem?_eq_none (by omega)
        · rfl
      exact hn hout
  · rintro rfl
    refine ⟨?_, le_rfl⟩
    by_cases hzero : l.length = 0
    · exact .inl hzero
    · right
      have hlast : ((l.length : ℤ) - 1).toNat < l.length := by omega
      rw [h, if_pos (by omega), List.getElem?_eq_getElem hlast]
      exact Option.some_ne_none _

inductive Call (α : Type*) where
  | push (x : α)
  | pop
  | pushBack (x : α)

/-- A call with what it returns. -/
def queueCall (q : BufferQueue α) : Call α → Option α × BufferQueue α
  | .push x => (none, q.push x)
  | .pop => q.pop
  | .pushBack x => (none, q.pushBack x)

/-- The same calls on a list with put-back. -/
def listCall (l : List α) : Call α → Option α × List α
  | .push x => (none, l ++ [x])
  | .pop => (l.head?, l.tail)
  | .pushBack x => (none, x :: l)

theorem queueCall_refines (q : BufferQueue α) (l : List α) (c : Call α) (h : Holds q l) :
    (queueCall q c).1 = (listCall l c).1 ∧ Holds (queueCall q c).2 (listCall l c).2 := by
  cases c with
  | push x => exact ⟨rfl, push_holds h x⟩
  | pop => exact pop_holds h
  | pushBack x => exact ⟨rfl, pushBack_holds h x⟩

/-- The values that calls give to the queue. -/
def given : List (Call α) → List α
  | [] => []
  | .push x :: calls | .pushBack x :: calls => x :: given calls
  | .pop :: calls => given calls

/-- The list keeps what it is given until it is popped. -/
theorem list_conserves (calls : List (Call α)) (l : List α) :
    (l ++ given calls).Perm
      ((runAnswers listCall l calls).1.filterMap id ++ (runAnswers listCall l calls).2) := by
  induction calls generalizing l with
  | nil => simp [given, runAnswers]
  | cons c calls ih =>
    cases c with
    | push x =>
      have h := ih (l ++ [x])
      rwa [List.append_assoc] at h
    | pushBack x => exact List.perm_middle.trans (ih (x :: l))
    | pop =>
      cases l with
      | nil => exact ih []
      | cons y l => exact (ih l).cons y

/-- On every sequence of calls the queue answers as the list with put-back does and has its
contents: `pop` returns the first value, and `nil` exactly when there is none. What was given
is what was popped and what is left, and the table that `#` is applied to has one border. -/
theorem buffer_queue_refines_list (calls : List (Call α)) :
    let r := runAnswers queueCall (newBufferQueue : BufferQueue α) calls
    let f := runAnswers listCall ([] : List α) calls
    r.1 = f.1 ∧ r.2.contents = f.2 ∧ (given calls).Perm (r.1.filterMap id ++ r.2.contents) ∧
      (r.2.pop.1 = none ↔ r.2.contents = []) ∧
      ∀ n, IsBorder r.2.enque n ↔ n = r.2.enque.border := by
  intro r f
  obtain ⟨hanswers, hholds⟩ : r.1 = f.1 ∧ Holds r.2 f.2 :=
    runAnswers_refines queueCall_refines newBufferQueue_holds
  have hcontents := hholds.contents
  obtain ⟨front, back, -, -, -, hback⟩ := id hholds
  refine ⟨hanswers, hcontents, ?_, ?_, fun n => hback.isBorder_iff⟩
  · rw [hanswers, hcontents]
    exact list_conserves calls []
  · rw [(pop_holds hholds).1, hcontents, List.head?_eq_none_iff]

end AsyncBufferQueue
