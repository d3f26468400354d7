import Mathlib.Data.Finset.Card
import Mathlib.Algebra.Order.Ring.Nat
import Mathlib.Logic.Function.Iterate
import Grt.LtaskHandleMapGrowth

/-! The search loop of `handlemap_new` has no bound of its own. It ends because the load check
leaves free slots and the handles that are tried sweep all of them, whatever the calls before
have left in the map, also when a growth has lost a handle and when `lastid` wraps. -/
namespace LtaskHandleMap

open RefCountedMap TransitionSystem

variable {α : Type*} {m : HandleMap α} {s : State α} {x : ℕ}

/-- The load check of `handlemap_new`, in `int` arithmetic. -/
def LoadCheck (m : HandleMap α) : Prop := (int32 (m.cap * 3)).tdiv 4 ≤ m.n

instance (m : HandleMap α) : Decidable (LoadCheck m) := inferInstanceAs (Decidable (_ ≤ _))

/-- A call that grows the map asks `calloc` for `cap * 2` slots, an `int`. A negative one is
converted to a size that no memory has. -/
def CanAllocate (s : State α) : Call α → Prop
  | .new (some _) => LoadCheck s.map → 0 < int32 (s.map.cap * 2)
  | _ => True

theorem loadCheck_iff (hcap : m.cap ≤ 2 ^ 29) : LoadCheck m ↔ m.n ≥ m.cap * 3 / 4 := by
  rw [LoadCheck, int32_small (by omega) (by omega), Int.tdiv_eq_ediv_of_nonneg (by omega)]
  omega

/-- With `2 ^ 30` slots the check overflows and every call asks for a negative number. -/
theorem cap_le_of_allocated (h : Indexed m) (hcap : m.cap ≤ 2 ^ 30)
    (halloc : LoadCheck m → 0 < int32 (m.cap * 2)) : m.cap ≤ 2 ^ 29 := by
  by_contra hbig
  obtain ⟨k, -, hk⟩ := h.pow
  have hlow : 29 < k := (Nat.pow_lt_pow_iff_right Nat.one_lt_two).mp (by omega)
  have hhigh : k ≤ 30 := (Nat.pow_le_pow_iff_right Nat.one_lt_two).mp (by omega)
  obtain rfl : k = 30 := by omega
  have hcheck : (int32 (((2 ^ 30 : ℕ) : ℤ) * 3)).tdiv 4 = -2 ^ 28 := by decide
  have hslots : int32 (((2 ^ 30 : ℕ) : ℤ) * 2) = -2 ^ 31 := by decide
  rw [LoadCheck, hk, hcheck, hslots] at halloc
  have := halloc (by omega)
  omega

theorem Indexed.setSlot (h : Indexed m) {j : ℕ} (s : HandleSlot α) (hs : s.id = (m.slot j).id) :
    Indexed { m with slot := Function.update m.slot j s } := by
  refine ⟨h.pow, h.lastid_lt, fun k hk hne => ?_, ?_, h.load⟩
  · by_cases hkj : k = j
    · subst hkj
      simp only [Function.update_self, hs] at hne ⊢
      exact h.home k hk hne
    · simp only [Function.update_of_ne hkj] at hne ⊢
      exact h.home k hk hne
  · rw [occupied_update_ref s hs]
    exact h.count

theorem Indexed.clear (h : Indexed m) {j : ℕ} (hj : j < m.cap) (hlive : (m.slot j).id ≠ 0)
    (s : HandleSlot α) (hs : s.id = 0) :
    Indexed { m with slot := Function.update m.slot j s, n := m.n - 1 } := by
  refine ⟨h.pow, h.lastid_lt, fun k hk hne => ?_, ?_, (Nat.sub_le _ _).trans h.load⟩
  · by_cases hkj : k = j
    · subst hkj
      simp [hs] at hne
    · simp only [Function.update_of_ne hkj] at hne ⊢
      exact h.home k hk hne
  · rw [occupied_clear s hs, Finset.card_erase_of_mem (mem_occupied.mpr ⟨hj, hlive⟩)]
    exact Nat.sub_le_sub_right h.count 1

theorem grab_indexed (h : Indexed m) (id : ℕ) :
    Indexed (handlemapGrab m id).2 ∧ (handlemapGrab m id).2.cap = m.cap := by
  unfold handlemapGrab
  split
  · exact ⟨h, rfl⟩
  · dsimp only
    split
    · exact ⟨h, rfl⟩
    · exact ⟨h.setSlot _ rfl, rfl⟩

theorem releaseRef_indexed (h : Indexed m) (id : ℕ) :
    Indexed (releaseRef m id).2 ∧ (releaseRef m id).2.cap = m.cap := by
  unfold releaseRef
  split
  · exact ⟨h, rfl⟩
  · dsimp only
    split
    · exact ⟨h, rfl⟩
    · exact ⟨h.setSlot _ rfl, rfl⟩

theorem tryDelete_indexed (h : Indexed m) (id : ℕ) :
    Indexed (tryDelete m id).2 ∧ (tryDelete m id).2.cap = m.cap := by
  unfold tryDelete
  split
  · exact ⟨h, rfl⟩
  · rename_i hid
    dsimp only
    split
    · exact ⟨h, rfl⟩
    · rename_i hsame
      split
      · exact ⟨h, rfl⟩
      · have hlt : m.slotOf id < m.cap := h.mask_eq id ▸ Nat.mod_lt id h.cap_pos
        exact ⟨h.clear hlt (by rwa [of_not_not hsame]) _ rfl, rfl⟩

theorem release_indexed (h : Indexed m) (id : ℕ) :
    Indexed (handlemapRelease m id).2 ∧ (handlemapRelease m id).2.cap = m.cap := by
  obtain ⟨hdrop, hcap⟩ := releaseRef_indexed h id
  unfold handlemapRelease
  generalize releaseRef m id = r at hdrop hcap
  obtain ⟨ud, m'⟩ := r
  cases ud with
  | none => exact ⟨hdrop, hcap⟩
  | some u =>
    obtain ⟨hdel, hcap'⟩ := tryDelete_indexed hdrop id
    exact ⟨hdel, hcap'.trans hcap⟩

theorem next_indexed (h : Indexed s.map) (hcap : s.map.cap ≤ 2 ^ 30) {c : Call α}
    (halloc : CanAllocate s c) : Indexed (next s c).map ∧ (next s c).map.cap ≤ 2 ^ 30 := by
  cases c with
  | new ud =>
    cases ud with
    | none => exact ⟨h, hcap⟩
    | some u =>
      have hcap := cap_le_of_allocated h hcap halloc
      obtain ⟨hgrown, hcap', hroom⟩ := grown_indexed h hcap
      obtain ⟨id, -, h0, hlt, -, hnew⟩ := handlemapNew_found h hcap u
      simp only [next, hnew]
      exact ⟨hgrown.occupy h0 hlt hroom _ _, hcap'⟩
  | grab id =>
    obtain ⟨hgrab, hsame⟩ := grab_indexed h id
    exact ⟨hgrab, hsame.trans_le hcap⟩
  | release id =>
    obtain ⟨hrelease, hsame⟩ := release_indexed h id
    exact ⟨hrelease, hsame.trans_le hcap⟩

theorem reachable_indexed (h : Reachable (handleSystem.when CanAllocate) s) :
    Indexed s.map ∧ s.map.cap ≤ 2 ^ 30 := by
  refine h.invariant (I := fun t => Indexed t.map ∧ t.map.cap ≤ 2 ^ 30) ?_ ?_
  · rintro t rfl
    exact ⟨initial_placed.indexed, Nat.le_of_ble_eq_true rfl⟩
  · intro t c _ ih hc
    exact next_indexed ih.1 ih.2 hc.2

/-- In every state that calls reach at most three quarters of the slots are taken, and a
further `handlemap_new` finds a handle within `cap + 1` turns of its loop: one that is not 0 and
that no slot holds, with a free slot. It writes no other slot. -/
theorem handlemap_new_fresh (h : Reachable (handleSystem.when CanAllocate) s) :
    (occupied s.map).card ≤ s.map.n ∧ s.map.n ≤ s.map.cap * 3 / 4 ∧
      ∀ ud, CanAllocate s (.new (some ud)) →
        let m := if LoadCheck s.map then expandMap s.map else s.map
        ∃ id, findSlot m (m.cap + 1) m.lastid = some id ∧ id ≠ 0 ∧
          (∀ j < m.cap, (m.slot j).id ≠ id) ∧
          m.slotOf id < m.cap ∧ (m.slot (m.slotOf id)).id = 0 ∧
          handlemapNew s.map (some ud) = some (id, { m with
            lastid := id
            n := m.n + 1
            slot := Function.update m.slot (m.slotOf id) ⟨id, 1, some ud⟩ }) := by
  obtain ⟨hindexed, hcap⟩ := reachable_indexed h
  refine ⟨hindexed.count, hindexed.load, fun ud halloc => ?_⟩
  have hcap := cap_le_of_allocated hindexed hcap halloc
  obtain ⟨hgrown, -, -⟩ := grown_indexed hindexed hcap
  obtain ⟨id, hfind, h0, -, hfree, hnew⟩ := handlemapNew_found hindexed hcap ud
  simp only [loadCheck_iff hcap]
  refine ⟨id, hfind, h0, fun j hj hheld => ?_, ?_, ?_, ?_⟩
  · -- a slot that held the handle would be the one the search found free
    have hhome := hgrown.home j hj (by rwa [hheld])
    rw [hheld] at hhome
    rw [hhome, hheld] at hfree
    exact h0 hfree
  · rw [hgrown.mask_eq]
    exact Nat.mod_lt id hgrown.cap_pos
  · rwa [hgrown.mask_eq]
  · rw [hgrown.mask_eq]
    exact hnew

/-- A map of the first size without handles, after `x` of them have come and gone. -/
structure Emptied (m : HandleMap α) (x : ℕ) : Prop where
  lastid : m.lastid = x
  cap : m.cap = INIT_SLOTS
  n : m.n = 0
  free : ∀ j, (m.slot j).id = 0

theorem Emptied.new (h : Emptied m x) (u : α) : handlemapNew m (some u) =
    some (nextid x, { m with
      lastid := nextid x
      n := 1
      slot := Function.update m.slot (m.slotOf (nextid x)) ⟨nextid x, 1, some u⟩ }) := by
  have hroom : ¬ m.n ≥ m.cap * 3 / 4 := by
    rw [h.n, h.cap]
    decide
  rw [handlemapNew, if_neg hroom, findSlot, h.lastid, if_neg (not_not.mpr (h.free _)), h.n]
  rfl

/-- The only reference to a handle is given back. -/
theorem release_last {m : HandleMap α} {id : ℕ} (h0 : id ≠ 0) {u : α}
    (hslot : m.slot (m.slotOf id) = ⟨id, 1, some u⟩) :
    handlemapRelease m id = (some u, { m with
      slot := Function.update m.slot (m.slotOf id) ⟨0, 0, some u⟩
      n := m.n - 1 }) := by
  have href : int32 0 = 0 := by decide
  rw [HandleMap.slotOf] at hslot
  simp [handlemapRelease, releaseRef, tryDelete, HandleMap.slotOf, h0, hslot, href]

/-- A handle that comes and goes only moves `lastid` on. -/
theorem Emptied.new_release (h : Emptied s.map x) (hx : x < 2 ^ 32) (ud : α) :
    Emptied (next (next s (.new (some ud))) (.release (nextid x))).map (nextid x) := by
  have h0 : nextid x ≠ 0 := by
    rw [nextid_eq hx]
    split <;> omega
  simp only [next, h.new]
  rw [release_last h0 (Function.update_self ..)]
  refine ⟨rfl, h.cap, rfl, fun j => ?_⟩
  by_cases hj : j = mask (nextid x) s.map.cap
  · subst hj
    simp [HandleMap.slotOf]
  · simp [HandleMap.slotOf, hj, h.free]

/-- The handles 1 to `x` come and go. -/
def cycles : ℕ → State ℕ
  | 0 => ⟨handlemapInit, RefMap.empty⟩
  | x + 1 => next (next (cycles x) (.new (some 7))) (.release (nextid x))

theorem cycles_emptied {x : ℕ} (hx : x < 2 ^ 32) :
    Reachable (handleSystem.when CanAllocate) (cycles x) ∧ Emptied (cycles x).map x := by
  induction x with
  | zero => exact ⟨.start rfl, rfl, rfl, rfl, fun _ => rfl⟩
  | succ x ih =>
    obtain ⟨hreach, hempty⟩ := ih (by omega)
    have halloc : CanAllocate (cycles x) (.new (some 7)) := fun _ => by
      rw [hempty.cap]
      decide
    constructor
    · have hnew := Reachable.step hreach (e := .new (some 7)) ⟨trivial, halloc⟩
      exact Reachable.step hnew (e := Call.release (nextid x)) ⟨trivial, trivial⟩
    · have hnext : nextid x = x + 1 := by rw [nextid_eq (by omega), if_pos hx]
      have hmoved := hempty.new_release (by omega) 7
      rw [cycles]
      rwa [hnext] at hmoved ⊢

/-- After `2 ^ 32 - 1` handles the next one is 1 again. -/
theorem handlemap_new_fresh_wraps :
    let s := cycles (2 ^ 32 - 1)
    s.map.lastid = 2 ^ 32 - 1 ∧ s.map.n ≤ s.map.cap * 3 / 4 ∧
      ∃ m', handlemapNew s.map (some 7) = some (1, m') ∧ 1 ≠ 0 := by
  intro s
  obtain ⟨hreach, hempty⟩ := cycles_emptied (x := 2 ^ 32 - 1) (by omega)
  have halloc : CanAllocate s (.new (some 7)) := fun _ => by
    rw [hempty.cap]
    decide
  obtain ⟨-, hload, hnew⟩ := handlemap_new_fresh hreach
  obtain ⟨id, -, h0, -, -, -, hid⟩ := hnew 7 halloc
  have hone : id = 1 := congrArg Prod.fst (Option.some.inj (hid.symm.trans (hempty.new 7)))
  rw [hone] at hid h0
  exact ⟨hempty.lastid, hload, _, hid, h0⟩

end LtaskHandleMap
