import Mathlib.Data.List.Range
import Mathlib.Tactic.Common

/-! The queue of `queue.c`: a ring buffer that doubles when a push would make `head` and
`tail` meet. `Cells` is the struct itself; a `Queue` is one whose indices are in range, and
it is a FIFO list whatever the head position and however often it has grown. -/
namespace LtaskQueue

/-- `struct queue` less its spin lock; each operation is atomic under it. -/
structure Cells (α : Type*) where
  n : ℕ
  head : ℕ
  tail : ℕ
  data : ℕ → α

variable {α : Type*}

def DEFAULT_LEN : ℕ := 16

def queueCreate [Inhabited α] : Cells α := ⟨DEFAULT_LEN, 0, 0, fun _ => default⟩

/-- `++tail`, back to the start at the end of the buffer. -/
def Cells.nextTail (q : Cells α) : ℕ := if q.tail + 1 ≥ q.n then 0 else q.tail + 1

def queuePush [Inhabited α] (q : Cells α) (ud : α) : Cells α :=
  let data := Function.update q.data q.tail ud
  if q.nextTail = q.head then
    { n := q.n * 2
      head := 0
      tail := q.n
      data := fun i => if i < q.n then data ((q.head + i) % q.n) else default }
  else { q with data := data, tail := q.nextTail }

def queuePop (q : Cells α) : Option (α × Cells α) :=
  if q.head = q.tail then none
  else
    let head := q.head + 1
    some (q.data q.head, { q with head := if head = q.n then 0 else head })

def queueEmpty (q : Cells α) : Bool := q.head = q.tail

def Cells.length (q : Cells α) : ℕ :=
  (if q.tail < q.head then q.tail + q.n else q.tail) - q.head

/-- The values in the order `queue_release` hands them to its destructor. -/
def Cells.contents (q : Cells α) : List α :=
  (List.range' q.head q.length).map fun i => q.data (i % q.n)

/-- A queue whose indices lie in `[0, n)`. -/
structure Queue (α : Type*) extends Cells α where
  head_lt : head < n
  tail_lt : tail < n

theorem length_contents (q : Cells α) : q.contents.length = q.length := by
  simp [Cells.contents]

theorem length_cases (q : Cells α) :
    (q.tail < q.head ∧ q.length = q.tail + q.n - q.head) ∨
      (q.head ≤ q.tail ∧ q.length = q.tail - q.head) := by
  unfold Cells.length
  split <;> omega

theorem nextTail_cases (q : Queue α) :
    (q.tail + 1 = q.n ∧ q.nextTail = 0) ∨ (q.tail + 1 < q.n ∧ q.nextTail = q.tail + 1) := by
  have := q.tail_lt
  unfold Cells.nextTail
  split <;> omega

theorem mod_of_window {i n : ℕ} (h : n ≤ i) (hi : i < 2 * n) : i % n = i - n := by
  rw [Nat.mod_eq_sub_mod h, Nat.mod_eq_of_lt (by omega)]

/-- An index of the window, reduced, is never the tail; the one past the window is. -/
theorem window_mod (q : Queue α) {i : ℕ} (hi : q.head ≤ i) (hle : i ≤ q.head + q.length) :
    i % q.n = q.tail ↔ i = q.head + q.length := by
  have hh := q.head_lt
  have ht := q.tail_lt
  rcases length_cases q.toCells with ⟨hw, hl⟩ | ⟨hw, hl⟩
  · by_cases hn : i < q.n
    · rw [Nat.mod_eq_of_lt hn]; omega
    · rw [mod_of_window (by omega) (by omega)]; omega
  · rw [Nat.mod_eq_of_lt (by omega)]; omega

/-- The window one longer, read with the new value stored at the old tail. -/
theorem window_push (q : Queue α) (ud : α) :
    (List.range' q.head (q.length + 1)).map
        (fun i => Function.update q.data q.tail ud (i % q.n)) = q.contents ++ [ud] := by
  rw [List.range'_concat, List.map_append, Cells.contents]
  congr 1
  · refine List.map_congr_left fun i hi => ?_
    obtain ⟨h1, h2⟩ := List.mem_range'_1.mp hi
    have hne : i % q.n ≠ q.tail := fun h => by
      have := (window_mod q h1 h2.le).mp h
      omega
    rw [Function.update_of_ne hne]
  · have hend := (window_mod q (Nat.le_add_right _ _) le_rfl).mpr rfl
    rw [List.map_singleton, Nat.one_mul, hend, Function.update_self]

theorem queueEmpty_iff (q : Queue α) : queueEmpty q.toCells = true ↔ q.contents = [] := by
  have hh := q.head_lt
  have ht := q.tail_lt
  rw [queueEmpty, decide_eq_true_iff, Cells.contents, List.map_eq_nil_iff, List.range'_eq_nil_iff]
  rcases length_cases q.toCells with ⟨hw, hl⟩ | ⟨hw, hl⟩ <;> omega

/-- `queue_pop` on a queue in range. -/
def Queue.pop (q : Queue α) : Option (α × Queue α) :=
  if q.head = q.tail then none
  else
    some (q.data q.head,
      { q.toCells with
        head := if q.head + 1 = q.n then 0 else q.head + 1
        head_lt := by
          have := q.head_lt
          split <;> omega
        tail_lt := q.tail_lt })

theorem pop_queuePop (q : Queue α) :
    queuePop q.toCells = q.pop.map fun r => (r.1, r.2.toCells) := by
  unfold queuePop Queue.pop
  by_cases h : q.head = q.tail <;> simp [h]

/-- A pop takes the first value off, and answers none only on an empty queue. -/
theorem pop_cases (q : Queue α) :
    (q.pop = none ∧ q.contents = []) ∨
      ∃ x c, q.pop = some (x, c) ∧ q.contents = x :: c.contents := by
  have hh := q.head_lt
  have ht := q.tail_lt
  by_cases he : q.head = q.tail
  · exact Or.inl ⟨if_pos he, (queueEmpty_iff q).mp (decide_eq_true he)⟩
  · refine Or.inr ⟨_, _, if_neg he, ?_⟩
    generalize hc : Queue.mk _ _ _ = c
    have hch : (q.head + 1 = q.n ∧ c.head = 0) ∨ (q.head + 1 < q.n ∧ c.head = q.head + 1) := by
      subst hc
      simp only
      split <;> omega
    have hcn : c.n = q.n := by subst hc; rfl
    have hct : c.tail = q.tail := by subst hc; rfl
    have hcd : c.data = q.data := by subst hc; rfl
    have hlen : q.length = c.length + 1 := by
      have hq := length_cases q.toCells
      have hc := length_cases c.toCells
      omega
    rw [Cells.contents, Cells.contents, hlen, hcn, hcd, List.range'_succ, List.map_cons,
      Nat.mod_eq_of_lt hh]
    congr 1
    rcases hch with ⟨hw, hc0⟩ | ⟨-, hc1⟩
    · rw [hc0, hw, List.range'_eq_map_range, List.range'_eq_map_range, List.map_map, List.map_map]
      refine List.map_congr_left fun i _ => ?_
      simp
    · rw [hc1]

theorem pop_none {q : Queue α} (h : q.pop = none) : q.contents = [] := by
  rcases pop_cases q with ⟨-, he⟩ | ⟨x, c, hs, -⟩
  · exact he
  · rw [h] at hs; cases hs

theorem pop_some {q c : Queue α} {x : α} (h : q.pop = some (x, c)) :
    q.contents = x :: c.contents := by
  rcases pop_cases q with ⟨hn, -⟩ | ⟨y, d, hs, he⟩
  · rw [h] at hn; cases hn
  · rw [h] at hs; cases hs; exact he

variable [Inhabited α]

theorem queuePush_contents (q : Queue α) (ud : α) :
    (queuePush q.toCells ud).contents = q.contents ++ [ud] := by
  have hh := q.head_lt
  have ht := q.tail_lt
  rw [← window_push q ud]
  by_cases hfull : q.nextTail = q.head
  · have hlen : q.length + 1 = q.n := by
      have hn := nextTail_cases q
      have hq := length_cases q.toCells
      omega
    rw [queuePush, if_pos hfull, hlen, List.range'_eq_map_range, List.map_map]
    simp only [Cells.contents, Cells.length, Nat.not_lt_zero, ↓reduceIte, Nat.sub_zero,
      List.range'_eq_map_range, List.map_map]
    refine List.map_congr_left fun i hi => ?_
    have hi : i < q.n := List.mem_range.mp hi
    simp [Nat.mod_eq_of_lt (show i < q.n * 2 by omega), hi]
  · let c : Cells α :=
      { q.toCells with data := Function.update q.data q.tail ud, tail := q.nextTail }
    have hlen : c.length = q.length + 1 := by
      have hch : c.head = q.head := rfl
      have hcn : c.n = q.n := rfl
      have hct : c.tail = q.nextTail := rfl
      have hn := nextTail_cases q
      have hq := length_cases q.toCells
      have hc := length_cases c
      omega
    rw [queuePush, if_neg hfull]
    change c.contents = _
    rw [Cells.contents, hlen]

theorem queuePush_lt (q : Queue α) (ud : α) :
    (queuePush q.toCells ud).head < (queuePush q.toCells ud).n ∧
      (queuePush q.toCells ud).tail < (queuePush q.toCells ud).n := by
  have hh := q.head_lt
  have ht := q.tail_lt
  unfold queuePush
  by_cases hfull : q.nextTail = q.head
  · rw [if_pos hfull]
    simp only
    omega
  · rw [if_neg hfull]
    refine ⟨hh, ?_⟩
    rcases nextTail_cases q with ⟨h1, h2⟩ | ⟨h1, h2⟩ <;> simp only [h2] <;> omega

def Queue.create : Queue α where
  toCells := queueCreate
  head_lt := Nat.succ_pos 15
  tail_lt := Nat.succ_pos 15

def Queue.push (q : Queue α) (ud : α) : Queue α where
  toCells := queuePush q.toCells ud
  head_lt := (queuePush_lt q ud).1
  tail_lt := (queuePush_lt q ud).2

@[simp] theorem push_contents (q : Queue α) (ud : α) : (q.push ud).contents = q.contents ++ [ud] :=
  queuePush_contents q ud

@[simp] theorem create_contents : (Queue.create : Queue α).contents = [] := rfl

end LtaskQueue
