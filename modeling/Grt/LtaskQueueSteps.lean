import Grt.LtaskQueueFifo

/-! The queue between the assignments of one call. `queue_pop` and `queue_empty` compare
`head` and `tail` without the lock, so they see every state that a push or a pop of another
thread passes through. A push that grows the buffer while `head` is 1 passes through one in
which a full queue looks empty. -/
namespace LtaskQueueSteps

open LtaskQueue LtaskQueueFifo TransitionSystem

variable {α : Type*}

/-- The assignments of `queue_pop` to the struct, in program order. -/
def popAssignments (q : Cells α) : List (Cells α → Cells α) :=
  if q.head = q.tail then []
  else
    (fun c => { c with head := c.head + 1 }) ::
      if q.head + 1 = q.n then [fun c => { c with head := 0 }] else []

/-- The states that follow one assignment after the other. -/
def trail (q : Cells α) : List (Cells α → Cells α) → List (Cells α)
  | [] => []
  | a :: as => a q :: trail (a q) as

variable [Inhabited α]

/-- The assignments of `queue_push` to the struct; `tail` and the copy of the buffer are
locals. -/
def pushAssignments (q : Cells α) (ud : α) : List (Cells α → Cells α) :=
  (fun c => { c with data := Function.update c.data q.tail ud }) ::
    if q.nextTail = q.head then
      [fun c =>
        { c with data := fun i => if i < c.n then c.data ((c.head + i) % c.n) else default },
      fun c => { c with head := 0 },
      fun c => { c with tail := c.n },
      fun c => { c with n := c.n * 2 }]
    else [fun c => { c with tail := q.nextTail }]

def assignments (q : Cells α) : QueueCall α → List (Cells α → Cells α)
  | .push ud => pushAssignments q ud
  | .pop => popAssignments q
  | .empty => []

/-- No state on the way looks empty, unless the queue is empty before or after the call. -/
def TestSound (q : Cells α) (e : QueueCall α) : Prop :=
  ∀ c ∈ trail q (assignments q e), queueEmpty c = true →
    q.contents = [] ∨ (queueCall q e).2.contents = []

instance [DecidableEq α] (q : Cells α) (e : QueueCall α) : Decidable (TestSound q e) :=
  inferInstanceAs (Decidable (∀ c ∈ trail q (assignments q e), queueEmpty c = true →
    q.contents = [] ∨ (queueCall q e).2.contents = []))

/-- A push that meets `head` at index 1 with the advanced tail. -/
def GrowsAtOne (q : Cells α) : QueueCall α → Prop
  | .push _ => q.nextTail = q.head ∧ q.head = 1
  | _ => False

/-- The assignments together are the call. -/
theorem assignments_complete (q : Cells α) (e : QueueCall α) :
    (assignments q e).foldl (fun c a => a c) q = (queueCall q e).2 := by
  cases e with
  | push ud =>
    by_cases hfull : q.nextTail = q.head
    · simp [assignments, pushAssignments, queueCall, queuePush, hfull]
    · simp [assignments, pushAssignments, queueCall, queuePush, hfull]
  | pop =>
    by_cases he : q.head = q.tail
    · simp [assignments, popAssignments, queueCall, queuePop, he]
    · by_cases hw : q.head + 1 = q.n
      · simp [assignments, popAssignments, queueCall, queuePop, he, hw]
      · simp [assignments, popAssignments, queueCall, queuePop, he, hw]
  | empty => rfl

/-- What a push leaves is never empty. -/
theorem push_nonempty (q : Queue α) (ud : α) :
    (queueCall q.toCells (.push ud)).2.contents ≠ [] := by
  have h : (queueCall q.toCells (.push ud)).2.contents = q.contents ++ [ud] :=
    queuePush_contents q ud
  simp [h]

theorem push_testSound (q : Queue α) (ud : α) :
    TestSound q.toCells (.push ud) ↔ ¬ (q.nextTail = q.head ∧ q.head = 1) := by
  have hh := q.head_lt
  have ht := q.tail_lt
  have hempty : q.head = q.tail → q.contents = [] := fun h =>
    (queueEmpty_iff q).mp (decide_eq_true h)
  have hne := push_nonempty q ud
  by_cases hfull : q.nextTail = q.head
  · have hn := nextTail_cases q
    -- the state between `head = 0` and `tail = n` is the only one that can look empty
    have hmiddle : TestSound q.toCells (.push ud) ↔ (0 = q.tail → q.contents = []) := by
      simp only [TestSound, assignments, pushAssignments, if_pos hfull, trail, List.mem_cons,
        List.not_mem_nil, or_false, forall_eq_or_imp, forall_eq, queueEmpty, decide_eq_true_eq,
        hne]
      constructor
      · exact fun h => h.2.2.1
      · intro h
        refine ⟨hempty, hempty, h, ?_, ?_⟩ <;> intro h0 <;> omega
    rw [hmiddle, not_and]
    constructor
    · intro h _ h1
      have hcontents := h (by omega)
      have := (queueEmpty_iff q).mpr hcontents
      have : q.head = q.tail := of_decide_eq_true this
      omega
    · intro h h0
      have := h hfull
      exact hempty (by omega)
  · simp only [TestSound, assignments, pushAssignments, if_neg hfull, trail, List.mem_cons,
      List.not_mem_nil, or_false, forall_eq_or_imp, forall_eq, queueEmpty, decide_eq_true_eq,
      hne]
    constructor
    · exact fun _ h => hfull h.1
    · exact fun _ => ⟨hempty, fun h => absurd h.symm hfull⟩

/-- The only state on the way that can look empty is the last one. -/
theorem pop_testSound (q : Queue α) : TestSound q.toCells .pop := by
  have ht := q.tail_lt
  rcases pop_cases q with ⟨-, he⟩ | ⟨x, d, hpop, -⟩
  · exact fun c _ _ => Or.inl he
  have hcall : (queueCall q.toCells .pop).2 = d.toCells := by
    simp only [queueCall, pop_queuePop, hpop, Option.map_some]
  have hlast : (assignments q.toCells .pop).foldl (fun c a => a c) q.toCells = d.toCells := by
    rw [assignments_complete, hcall]
  have hne : q.head ≠ q.tail := fun h => by
    have hnone : q.pop = none := if_pos h
    rw [hpop] at hnone
    cases hnone
  intro c hc he
  refine Or.inr ?_
  rw [hcall]
  refine (queueEmpty_iff d).mp ?_
  by_cases hw : q.head + 1 = q.n
  · simp only [assignments, popAssignments, if_neg hne, if_pos hw, List.foldl_cons,
      List.foldl_nil] at hlast
    simp only [assignments, popAssignments, if_neg hne, if_pos hw, trail, List.mem_cons,
      List.not_mem_nil, or_false] at hc
    rcases hc with rfl | rfl
    · have : q.head + 1 = q.tail := of_decide_eq_true he
      omega
    · rwa [← hlast]
  · simp only [assignments, popAssignments, if_neg hne, if_neg hw, List.foldl_cons,
      List.foldl_nil] at hlast
    simp only [assignments, popAssignments, if_neg hne, if_neg hw, trail, List.mem_cons,
      List.not_mem_nil, or_false] at hc
    subst hc
    rwa [← hlast]

theorem testSound_iff (q : Queue α) (e : QueueCall α) :
    TestSound q.toCells e ↔ ¬ GrowsAtOne q.toCells e := by
  cases e with
  | push ud => exact push_testSound q ud
  | pop => exact ⟨fun _ h => h, fun _ => pop_testSound q⟩
  | empty => exact ⟨fun _ h => h, fun _ c hc => absurd hc List.not_mem_nil⟩

/-- In every state that calls on a new queue lead to, the unlocked test is sound during the
next call exactly when that call does not grow the buffer with `head` at 1. -/
theorem unlocked_test_sound_iff (calls : List (QueueCall α)) (e : QueueCall α) :
    TestSound (runAnswers queueCall (queueCreate : Cells α) calls).2 e ↔
      ¬ GrowsAtOne (runAnswers queueCall (queueCreate : Cells α) calls).2 e := by
  have hcreate : Represents (queueCreate : Cells α) [] := ⟨Queue.create, rfl, create_contents⟩
  have hrun : Represents (runAnswers queueCall (queueCreate : Cells α) calls).2
      (runAnswers fifoCall [] calls).2 := (runAnswers_refines queueCall_refines hcreate).2
  obtain ⟨q, hq, -⟩ := hrun
  rw [← hq]
  exact testSound_iff q e

/-- Sixteen pushes with one pop after the first: the buffer is full but one, `head` is 1,
and during the next push the queue of fifteen values looks empty. -/
theorem full_queue_looks_empty :
    ¬ TestSound (runAnswers queueCall (queueCreate : Cells ℕ)
      ([.push 1, .pop] ++ List.replicate 15 (.push 1))).2 (.push 1) := by
  decide

end LtaskQueueSteps
