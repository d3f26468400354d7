import Grt.TimerAllocation

/-! `timer_del` of an event that is no longer in the timer. It trusts the `i` of the event, which
is -1 once the event has fired and an old position once it was deleted, and it takes an entry out
of the heap in any case. -/
namespace TimerStaleDelete

open TransitionSystem TimerHeap TimerInvariant TimerAllocation

variable {t u : Timer} {P : Finset EventPtr} {e : EventPtr}

/-- The events that were added and have left since. -/
def departed (gone : Finset EventPtr) (s : State) (c : Call) : Finset EventPtr :=
  (gone ∪ s.pending) \ (next s c).pending

/-- The runs of the timer with the events that have left it. -/
def departures : System (State × Finset EventPtr) Call :=
  timerSystem.monitor ∅ departed fun _ _ => True

/-- `timer_del` of `e` changes neither the size nor the pending events, their positions and
their order. -/
def Harmless (t : Timer) (P : Finset EventPtr) (e : EventPtr) : Prop :=
  ∃ u, timerDel t e = some u ∧ u.size = t.size ∧ HeapInvariant u P ∧
    ∀ d ∈ P, (u.event d).i = (t.event d).i

theorem departed_invariant {p : State × Finset EventPtr} (h : Reachable departures p) :
    HeapInvariant p.1.timer p.1.pending ∧ Disjoint p.2 p.1.pending := by
  apply h.invariant
    (I := fun p => HeapInvariant p.1.timer p.1.pending ∧ Disjoint p.2 p.1.pending)
  · rintro ⟨s, gone⟩ ⟨⟨event, rfl⟩, rfl⟩
    exact ⟨initial_invariant event, Finset.disjoint_empty_left _⟩
  · rintro ⟨s, gone⟩ c - ⟨hinv, -⟩ he
    exact ⟨step_preserves_invariant hinv c he.1, Finset.sdiff_disjoint⟩

theorem timerDel_smaller (h : timerDel t e = some u) : u.size < t.size := by
  obtain ⟨last, hs, ⟨i, rfl⟩ | rfl⟩ := timerDel_cases h
  · rw [(timerSiftdown_slots _ i).size, (timerSiftup_slots _ i).size]
    exact hs ▸ Nat.lt_succ_self last
  · exact hs ▸ Nat.lt_succ_self last

/-- `timer_del` sees no more of an event than its `i`. -/
theorem timerDel_congr {d : EventPtr} (h : (t.event e).i = (t.event d).i) :
    timerDel t e = timerDel t d := by
  rw [timerDel, timerDel, h]

theorem timerDel_negative (h : (t.event e).i < 0) : timerDel t e = none := by
  obtain ⟨i, hi⟩ := Int.eq_negSucc_of_lt_zero h
  unfold timerDel
  rw [hi]
  cases t.size <;> rfl

/-- The event that is at the old position of `e` leaves in its place. -/
theorem timerDel_other (h : HeapInvariant t P) {i : ℕ} (hi : (t.event e).i = i)
    (hlt : i < t.size) :
    t.heap i ∈ P ∧ ∃ u, timerDel t e = some u ∧ HeapInvariant u (P.erase (t.heap i)) := by
  have hmem := h.holds.mem i hlt
  obtain ⟨u, hu, hinv, -⟩ := timerDel_invariant h hmem
  refine ⟨hmem, u, ?_, hinv⟩
  rw [timerDel_congr (hi.trans (h.holds.index i hlt).symm)]
  exact hu

/-- In no run does `timer_del` of an event that has left change nothing: with a negative `i` it
writes before the array, with a position in the heap it deletes the other event there, and in
every case it takes an entry away. -/
theorem stale_del_harmful {s : State} {gone : Finset EventPtr}
    (h : Reachable departures (s, gone)) (he : e ∈ gone) :
    ¬ Harmless s.timer s.pending e ∧
      ((s.timer.event e).i < 0 → timerDel s.timer e = none) ∧
      ∀ i : ℕ, (s.timer.event e).i = i → i < s.timer.size →
        s.timer.heap i ∈ s.pending ∧ s.timer.heap i ≠ e ∧
          ∃ u, timerDel s.timer e = some u ∧
            HeapInvariant u (s.pending.erase (s.timer.heap i)) := by
  obtain ⟨hinv, hdisjoint⟩ := departed_invariant h
  refine ⟨?_, timerDel_negative, fun i hi hlt => ?_⟩
  · rintro ⟨u, hu, hsize, -⟩
    exact (timerDel_smaller hu).ne hsize
  · obtain ⟨hmem, hdel⟩ := timerDel_other hinv hi hlt
    refine ⟨hmem, ?_, hdel⟩
    rintro rfl
    exact Finset.disjoint_left.mp hdisjoint he hmem

instance (p : State × Finset EventPtr) (c : Call) : Decidable (departures.enabled p c) :=
  inferInstanceAs (Decidable (Enabled p.1 c ∧ True))

/-- The first of two timers is deleted, and the second moves to its position. -/
def deletedRun : State × Finset EventPtr :=
  runTrace departures (⟨timerInit fun _ => ⟨0, 0, 0⟩, ∅, .idle⟩, ∅)
    [.add 1 5 0, .add 2 7 0, .del 1]

theorem deletedRun_reachable : Reachable departures deletedRun :=
  .run (.start ⟨⟨_, rfl⟩, rfl⟩) (by decide +kernel)

theorem stale_del_harmful_deletedRun :
    ¬ Harmless deletedRun.1.timer deletedRun.1.pending 1 ∧
      deletedRun.1.timer.heap 0 ∈ deletedRun.1.pending ∧ deletedRun.1.timer.heap 0 ≠ 1 := by
  have hrun : Reachable departures (deletedRun.1, deletedRun.2) := deletedRun_reachable
  have h := stale_del_harmful (e := 1) hrun (by decide +kernel)
  obtain ⟨hmem, hne, -⟩ := h.2.2 0 (by decide +kernel) (by decide +kernel)
  exact ⟨h.1, hmem, hne⟩

/-- A second `timer_del` of the first timer deletes the second one. -/
theorem second_del_removes_other : Reachable departures deletedRun ∧ 1 ∈ deletedRun.2 ∧
    deletedRun.1.pending = {2} ∧ (timerDel deletedRun.1.timer 1).map Timer.size = some 0 ∧
    ¬ Harmless deletedRun.1.timer deletedRun.1.pending 1 := by
  refine ⟨deletedRun_reachable, by decide +kernel, by decide +kernel, by decide +kernel, ?_⟩
  rintro ⟨u, hu, hsize, -⟩
  exact (timerDel_smaller hu).ne hsize

end TimerStaleDelete
