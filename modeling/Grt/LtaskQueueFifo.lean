import Grt.LtaskQueue
import Grt.TransitionSystem

/-! The queue against a FIFO list, over every sequence of calls from `queue_create`. A value
of `α` stands for a pointer other than `NULL`; the answer `none` of a pop is `NULL`. -/
namespace LtaskQueueFifo

open LtaskQueue TransitionSystem

variable {α σ : Type*}

inductive QueueCall (α : Type*) where
  | push (ud : α)
  | pop
  | empty

inductive Answer (α : Type*) where
  | pushed
  | popped (ud : Option α)
  | isEmpty (b : Bool)

def queueCall [Inhabited α] (q : Cells α) : QueueCall α → Answer α × Cells α
  | .push ud => (.pushed, queuePush q ud)
  | .pop =>
    match queuePop q with
    | some (ud, q) => (.popped (some ud), q)
    | none => (.popped none, q)
  | .empty => (.isEmpty (queueEmpty q), q)

/-- What the queue is for: the list of the values in it, the oldest first. -/
def fifoCall (xs : List α) : QueueCall α → Answer α × List α
  | .push ud => (.pushed, xs ++ [ud])
  | .pop => (.popped xs.head?, xs.tail)
  | .empty => (.isEmpty xs.isEmpty, xs)

/-- The loop of `queue_release`, with `k` turns left at index `i`. -/
def releaseLoop (dtor : σ → α → σ) (q : Cells α) (i : ℕ) : ℕ → σ → σ
  | 0, st => st
  | k + 1, st => releaseLoop dtor q (i + 1) k (dtor st (q.data (i % q.n)))

/-- `queue_release`, less the two calls of `free`; a destructor acts on the state of its
caller. -/
def queueRelease (dtor : Option (σ → α → σ)) (q : Cells α) (st : σ) : σ :=
  match dtor with
  | none => st
  | some dtor =>
    let head := q.head
    let tail := if q.tail < head then q.tail + q.n else q.tail
    releaseLoop dtor q head (tail - head) st

/-- The values given to the queue and the values it gave back. -/
def pushed (calls : List (QueueCall α)) : List α :=
  calls.filterMap fun
    | .push ud => some ud
    | _ => none

def popped (answers : List (Answer α)) : List α :=
  answers.filterMap fun
    | .popped ud => ud
    | _ => none

theorem releaseLoop_foldl (dtor : σ → α → σ) (q : Cells α) (k : ℕ) :
    ∀ i st, releaseLoop dtor q i k st =
      ((List.range' i k).map fun i => q.data (i % q.n)).foldl dtor st := by
  induction k with
  | zero => intro i st; rfl
  | succ k ih =>
    intro i st
    rw [List.range'_succ, List.map_cons, List.foldl_cons]
    exact ih (i + 1) _

theorem queueRelease_contents (dtor : σ → α → σ) (q : Cells α) (st : σ) :
    queueRelease (some dtor) q st = q.contents.foldl dtor st :=
  releaseLoop_foldl dtor q q.length q.head st

/-- The FIFO list loses, doubles and reorders nothing. -/
theorem fifo_conserves (calls : List (QueueCall α)) :
    ∀ xs, xs ++ pushed calls =
      popped (runAnswers fifoCall xs calls).1 ++ (runAnswers fifoCall xs calls).2 := by
  induction calls with
  | nil => intro xs; simp [pushed, popped, runAnswers]
  | cons c calls ih =>
    intro xs
    cases c with
    | push ud =>
      have h := ih (xs ++ [ud])
      simpa [pushed, popped, runAnswers, fifoCall] using h
    | pop =>
      have h := ih xs.tail
      cases xs with
      | nil => simpa [pushed, popped, runAnswers, fifoCall] using h
      | cons x xs => simpa [pushed, popped, runAnswers, fifoCall] using h
    | empty =>
      have h := ih xs
      simpa [pushed, popped, runAnswers, fifoCall] using h

/-- The struct is one in range whose window reads as the list. -/
def Represents (c : Cells α) (xs : List α) : Prop :=
  ∃ q : Queue α, q.toCells = c ∧ q.contents = xs

variable [Inhabited α]

theorem queueCall_refines (c : Cells α) (xs : List α) (e : QueueCall α) (h : Represents c xs) :
    (queueCall c e).1 = (fifoCall xs e).1 ∧ Represents (queueCall c e).2 (fifoCall xs e).2 := by
  obtain ⟨q, rfl, rfl⟩ := h
  cases e with
  | push ud => exact ⟨rfl, q.push ud, rfl, push_contents q ud⟩
  | pop =>
    rcases pop_cases q with ⟨hp, he⟩ | ⟨x, d, hp, he⟩
    · simp only [queueCall, fifoCall, pop_queuePop, hp, he, Option.map_none]
      exact ⟨rfl, q, rfl, he⟩
    · simp only [queueCall, fifoCall, pop_queuePop, hp, he, Option.map_some]
      exact ⟨rfl, d, rfl, rfl⟩
  | empty =>
    have hb : queueEmpty q.toCells = q.contents.isEmpty := by
      rw [Bool.eq_iff_iff, queueEmpty_iff, List.isEmpty_iff]
    exact ⟨congrArg Answer.isEmpty hb, q, rfl, rfl⟩

/-- The ring buffer answers every sequence of calls as the FIFO list does: a pop gives the
oldest value pushed and not yet popped. Its indices stay in range, what was pushed is what
was popped and what is left, and a release hands what is left to the destructor in order. -/
theorem queue_refines_fifo (calls : List (QueueCall α)) (dtor : σ → α → σ) (st : σ) :
    let r := runAnswers queueCall (queueCreate : Cells α) calls
    let f := runAnswers fifoCall ([] : List α) calls
    r.1 = f.1 ∧ r.2.head < r.2.n ∧ r.2.tail < r.2.n ∧
      pushed calls = popped r.1 ++ f.2 ∧ queueRelease (some dtor) r.2 st = f.2.foldl dtor st := by
  intro r f
  have hcreate : Represents (queueCreate : Cells α) [] := ⟨Queue.create, rfl, create_contents⟩
  obtain ⟨hanswers, q, hq, hcontents⟩ : r.1 = f.1 ∧ Represents r.2 f.2 :=
    runAnswers_refines queueCall_refines hcreate
  refine ⟨hanswers, ?_, ?_, ?_, ?_⟩
  · rw [← hq]; exact q.head_lt
  · rw [← hq]; exact q.tail_lt
  · rw [hanswers]
    exact fifo_conserves calls []
  · rw [queueRelease_contents, ← hq, hcontents]

end LtaskQueueFifo
