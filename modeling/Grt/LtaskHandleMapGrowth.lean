import Mathlib.Data.Finset.Card
import Mathlib.Algebra.Order.Ring.Nat
import Mathlib.Logic.Function.Iterate
import Grt.LtaskHandleMap

/-! Growth of the handle map and the search for a free slot. The copying loop of `expand_map`
keeps the map exactly when no live handle has to stay at the new slot 0, and `handlemap_new`
finds a free slot within one turn round the table. -/
namespace LtaskHandleMap

open RefCountedMap TransitionSystem

variable {α : Type*} {m : HandleMap α} {A : RefMap α} {id : ℕ}

/-- A slot of the new array is untouched or is one of the copied slots, at its own place. -/
theorem expandLoop_cases (i j : ℕ) :
    expandLoop m i j = ⟨0, 0, none⟩ ∨
      ∃ k < i, expandLoop m i j = m.slot k ∧ mask (m.slot k).id (m.cap * 2) = j := by
  induction i with
  | zero => exact Or.inl rfl
  | succ i ih =>
    by_cases hj : j = mask (m.slot i).id (m.cap * 2)
    · refine Or.inr ⟨i, Nat.lt_succ_self i, ?_, hj.symm⟩
      rw [expandLoop, hj, Function.update_self]
    · rw [expandLoop, Function.update_of_ne hj]
      rcases ih with h | ⟨k, hk, h⟩
      · exact Or.inl h
      · exact Or.inr ⟨k, Nat.lt_succ_of_lt hk, h⟩

/-- Live slots move to different places of the new array. -/
theorem Indexed.mask_double_inj (h : Indexed m) {k i : ℕ} (hk : k < m.cap) (hi : i < m.cap)
    (hkl : (m.slot k).id ≠ 0) (hil : (m.slot i).id ≠ 0)
    (he : mask (m.slot k).id (m.cap * 2) = mask (m.slot i).id (m.cap * 2)) : k = i := by
  rw [h.mask_double, h.mask_double] at he
  rw [← h.home k hk hkl, ← h.home i hi hil, ← Nat.mod_mul_right_mod _ m.cap 2, he,
    Nat.mod_mul_right_mod]

/-- The only live slot that an empty one can overwrite is slot 0. -/
theorem Indexed.mask_double_zero (h : Indexed m) {k : ℕ} (hk : k < m.cap)
    (hkl : (m.slot k).id ≠ 0) (he : mask (m.slot k).id (m.cap * 2) = 0) : k = 0 := by
  rw [h.mask_double] at he
  rw [← h.home k hk hkl, ← Nat.mod_mul_right_mod _ m.cap 2, he, Nat.zero_mod]

theorem mask_zero (cap : ℕ) : mask 0 cap = 0 := Nat.zero_and _

theorem expandLoop_keeps (h : Indexed m) (hsafe : ExpandSafe m) {k i : ℕ} (hk : k < i)
    (hi : i ≤ m.cap) (hlive : (m.slot k).id ≠ 0) :
    expandLoop m i (mask (m.slot k).id (m.cap * 2)) = m.slot k := by
  induction i with
  | zero => exact absurd hk (Nat.not_lt_zero k)
  | succ i ih =>
    by_cases hki : k = i
    · subst hki
      rw [expandLoop, Function.update_self]
    · have hne : mask (m.slot k).id (m.cap * 2) ≠ mask (m.slot i).id (m.cap * 2) := by
        intro he
        by_cases hil : (m.slot i).id = 0
        · rw [hil, mask_zero] at he
          obtain rfl := h.mask_double_zero (by omega) hlive he
          exact hsafe.elim hlive fun hs => hs he
        · exact hki (h.mask_double_inj (by omega) (by omega) hlive hil he)
      rw [expandLoop, Function.update_of_ne hne]
      exact ih (by omega) (by omega)

/-- What is in the grown map was copied from a slot of the old one. -/
theorem expandMap_slot {j : ℕ} (hne : ((expandMap m).slot j).id ≠ 0) :
    ∃ k < m.cap, (m.slot k).id ≠ 0 ∧ (expandMap m).slot j = m.slot k ∧
      mask (m.slot k).id (m.cap * 2) = j := by
  rcases expandLoop_cases (m := m) m.cap j with hj | ⟨k, hk, hj, hm⟩
  · exact absurd (congrArg HandleSlot.id hj) hne
  · exact ⟨k, hk, fun h0 => hne ((congrArg HandleSlot.id hj).trans h0), hj, hm⟩

theorem expandMap_occupied_subset :
    occupied (expandMap m) ⊆ (occupied m).image fun k => mask (m.slot k).id (m.cap * 2) := by
  intro j hj
  obtain ⟨k, hk, hlive, -, hm⟩ := expandMap_slot (mem_occupied.mp hj).2
  exact Finset.mem_image.mpr ⟨k, mem_occupied.mpr ⟨hk, hlive⟩, hm⟩

theorem expandMap_occupied (h : Indexed m) (hsafe : ExpandSafe m) :
    occupied (expandMap m) =
      (occupied m).image fun k => mask (m.slot k).id (m.cap * 2) := by
  apply expandMap_occupied_subset.antisymm
  intro j hj
  obtain ⟨k, hk, rfl⟩ := Finset.mem_image.mp hj
  obtain ⟨hk, hne⟩ := mem_occupied.mp hk
  refine mem_occupied.mpr ⟨?_, ?_⟩
  · rw [h.mask_double]
    exact Nat.mod_lt _ (Nat.mul_pos h.cap_pos Nat.two_pos)
  · change (expandLoop m m.cap _).id ≠ 0
    rwa [expandLoop_keeps h hsafe hk le_rfl hne]

/-- Growth keeps the handles at home, whatever it loses. -/
theorem expand_indexed (h : Indexed m) : Indexed (expandMap m) := by
  constructor
  · obtain ⟨k, h4, hk⟩ := h.pow
    exact ⟨k + 1, by omega, by rw [expandMap, hk, pow_succ]⟩
  · exact h.lastid_lt
  · intro j _ hne
    obtain ⟨k, -, -, hslot, hm⟩ := expandMap_slot hne
    rw [hslot]
    exact (h.mask_double _).symm.trans hm
  · exact (Finset.card_le_card expandMap_occupied_subset).trans
      (Finset.card_image_le.trans h.count)
  · exact h.load.trans (Nat.div_le_div_right (by simp only [expandMap]; omega))

theorem expand_placed (h : Placed m A) (hsafe : ExpandSafe m) : Placed (expandMap m) A := by
  have hgrown := expand_indexed h.indexed
  constructor
  · exact hgrown.pow
  · exact hgrown.lastid_lt
  · intro i u c hA
    obtain ⟨h1, h2, h3⟩ := h.live i u c hA
    have hkeep := expandLoop_keeps h.indexed hsafe (Nat.mod_lt i h.indexed.cap_pos) le_rfl
      (by rw [h3]; exact h1)
    rw [h3, h.indexed.mask_double] at hkeep
    exact ⟨h1, h2, hkeep⟩
  · intro j hj hne
    refine ⟨hgrown.home j hj hne, ?_⟩
    obtain ⟨k, hk, hlive, hslot, -⟩ := expandMap_slot hne
    rw [hslot]
    exact (h.home k hk hlive).2
  · rw [expandMap_occupied h.indexed hsafe, Finset.card_image_of_injOn, ← h.count]
    · rfl
    · intro k hk i hi he
      obtain ⟨hk, hkl⟩ := mem_occupied.mp hk
      obtain ⟨hi, hil⟩ := mem_occupied.mp hi
      exact h.indexed.mask_double_inj hk hi hkl hil he
  · exact hgrown.load

/-- What the map says of a handle, without counting a reference. -/
def lookup (m : HandleMap α) (id : ℕ) : Option (Option α × ℤ) :=
  let slot := m.slot (m.slotOf id)
  if id = 0 ∨ slot.id ≠ id then none else some (slot.ud, slot.ref)

theorem lookup_placed (h : Placed m A) (id : ℕ) :
    lookup m id = (A id).map fun r => (some r.1, (r.2 : ℤ)) := by
  cases hA : A id with
  | none =>
    by_cases hid : id = 0
    · simp [lookup, hid]
    · have := h.absent hA hid
      simp [lookup, h.indexed.mask_eq, this]
  | some r =>
    obtain ⟨u, c⟩ := r
    obtain ⟨hid, -, hslot⟩ := h.live id u c hA
    simp [lookup, h.indexed.mask_eq, hslot, hid]

/-- The load limit leaves room, so some slot other than 0 is empty. -/
theorem exists_free (h : Indexed m) : ∃ j, 0 < j ∧ j < m.cap ∧ (m.slot j).id = 0 := by
  have hcap := h.cap_ge
  have hcard : (occupied m).card < ((Finset.range m.cap).erase 0).card := by
    rw [Finset.card_erase_of_mem (Finset.mem_range.mpr h.cap_pos), Finset.card_range]
    have := h.count.trans h.load
    omega
  obtain ⟨j, hj, hfree⟩ := Finset.exists_mem_notMem_of_card_lt_card hcard
  obtain ⟨h0, hj⟩ := Finset.mem_erase.mp hj
  have hj := Finset.mem_range.mp hj
  exact ⟨j, Nat.pos_of_ne_zero h0, hj, of_not_not fun hne => hfree (mem_occupied.mpr ⟨hj, hne⟩)⟩

/-- Once an empty slot has been copied over it, a live handle at the new slot 0 is gone. -/
theorem expandLoop_loses (h : Indexed m) {j i : ℕ} (h0 : 0 < j) (hfree : (m.slot j).id = 0)
    (hj : j < i) (hi : i ≤ m.cap) : (expandLoop m i 0).id = 0 := by
  induction i with
  | zero => exact absurd hj (Nat.not_lt_zero j)
  | succ i ih =>
    by_cases hil : (m.slot i).id = 0
    · rw [expandLoop, hil, mask_zero, Function.update_self, hil]
    · have hne : 0 ≠ mask (m.slot i).id (m.cap * 2) := fun he => by
        have := h.mask_double_zero (by omega) hil he.symm
        omega
      have hji : j ≠ i := by rintro rfl; exact hil hfree
      rw [expandLoop, Function.update_of_ne hne]
      exact ih (by omega) (by omega)

/-- Growth keeps the map exactly when it is safe. -/
theorem expand_lookup_iff (h : Placed m A) :
    (∀ id, lookup (expandMap m) id = lookup m id) ↔ ExpandSafe m := by
  constructor
  · intro hsame
    by_contra hunsafe
    obtain ⟨hlive, hmask⟩ := not_or.mp hunsafe
    have hmask := of_not_not hmask
    obtain ⟨j, h0, hj, hfree⟩ := exists_free h.indexed
    obtain ⟨hhome, u, c, hA⟩ := h.home 0 h.indexed.cap_pos hlive
    have hlost : lookup (expandMap m) (m.slot 0).id = none := by
      have hslot : (expandMap m).slotOf (m.slot 0).id = 0 := hmask
      have hgone : ((expandMap m).slot 0).id = 0 := expandLoop_loses h.indexed h0 hfree hj le_rfl
      simp only [lookup, hslot, hgone]
      exact if_pos (Or.inr (Ne.symm hlive))
    have hkept := (hsame (m.slot 0).id).symm.trans hlost
    rw [lookup_placed h, hA] at hkept
    cases hkept
  · intro hsafe i
    rw [lookup_placed (expand_placed h hsafe), lookup_placed h]

theorem nextid_eq {x : ℕ} (hx : x < 2 ^ 32) :
    nextid x = if x + 1 < 2 ^ 32 then x + 1 else 1 := by
  unfold nextid
  by_cases h : x + 1 < 2 ^ 32
  · rw [Nat.mod_eq_of_lt h, if_neg (Nat.succ_ne_zero x), if_pos h]
  · obtain rfl : x = 2 ^ 32 - 1 := by omega
    rfl

/-- Handles are issued round the numbers `1 .. 2^32 - 1`. -/
theorem nextid_iterate {x : ℕ} (hx : x < 2 ^ 32) {k : ℕ} (hk : k < 2 ^ 32) :
    nextid^[k] x = if x + k < 2 ^ 32 then x + k else x + k - 2 ^ 32 + 1 := by
  induction k with
  | zero => rw [Function.iterate_zero_apply, Nat.add_zero, if_pos hx]
  | succ k ih =>
    rw [Function.iterate_succ_apply', ih (by omega)]
    by_cases h : x + k < 2 ^ 32
    · rw [if_pos h, nextid_eq h]
      split <;> split <;> omega
    · rw [if_neg h, nextid_eq (by omega)]
      split <;> split <;> omega

theorem findSlot_some {fuel x : ℕ} (hfind : findSlot m fuel x = some id) (hx : x < 2 ^ 32) :
    id ≠ 0 ∧ id < 2 ^ 32 ∧ (m.slot (m.slotOf id)).id = 0 := by
  induction fuel generalizing x with
  | zero => cases hfind
  | succ fuel ih =>
    have hnext := nextid_eq hx
    rw [findSlot] at hfind
    split at hfind
    · exact ih hfind (by rw [hnext]; split <;> omega)
    · rename_i hfree
      obtain rfl := Option.some.inj hfind
      exact ⟨by rw [hnext]; split <;> omega, by rw [hnext]; split <;> omega, of_not_not hfree⟩

theorem findSlot_isSome {fuel x : ℕ} {k : ℕ} (hk : k < fuel)
    (hfree : (m.slot (m.slotOf (nextid^[k + 1] x))).id = 0) : (findSlot m fuel x).isSome := by
  induction fuel generalizing x k with
  | zero => exact absurd hk (Nat.not_lt_zero k)
  | succ fuel ih =>
    rw [findSlot]
    split
    · rename_i hlive
      cases k with
      | zero => exact absurd hfree hlive
      | succ k => exact ih (by omega) hfree
    · rfl

theorem exists_add_mod {M a j : ℕ} (hj : j < M) : ∃ d < M, (a + d) % M = j := by
  have hlt := Nat.mod_lt a (Nat.zero_lt_of_lt hj)
  refine ⟨(j + M - a % M) % M, Nat.mod_lt _ (Nat.zero_lt_of_lt hj), ?_⟩
  rw [Nat.add_mod_mod, ← Nat.mod_add_mod, show a % M + (j + M - a % M) = j + M by omega,
    Nat.add_mod_right, Nat.mod_eq_of_lt hj]

/-- Within one turn round the table the search comes to any slot but 0, which the skipped
handle 0 would have to name. -/
theorem exists_turn {x j c : ℕ} (hx : x < 2 ^ 32) (h0 : 0 < j) (hj : j < 2 ^ c) (hc : c ≤ 31) :
    ∃ k < 2 ^ c, nextid^[k + 1] x % 2 ^ c = j := by
  have hle : 2 ^ c ≤ 2 ^ 31 := Nat.pow_le_pow_right Nat.two_pos hc
  obtain ⟨t, ht⟩ : 2 ^ c ∣ 2 ^ 32 := Nat.pow_dvd_pow 2 (by omega)
  obtain ⟨d, hd, hmod⟩ := exists_add_mod (a := x + 1) hj
  by_cases hwrap : x + 1 + d < 2 ^ 32
  · refine ⟨d, hd, ?_⟩
    rw [nextid_iterate hx (by omega), if_pos (by omega), ← hmod]
    congr 1
    omega
  · have hne : x + 1 + d ≠ 2 ^ 32 := fun he => by
      rw [he, ht, Nat.mul_mod_right] at hmod
      omega
    refine ⟨d - 1, by omega, ?_⟩
    rw [nextid_iterate hx (by omega), if_neg (by omega), ← hmod,
      show x + 1 + d = x + (d - 1 + 1) - 2 ^ 32 + 1 + 2 ^ c * t by omega,
      Nat.add_mul_mod_self_left]

theorem findSlot_found (h : Indexed m) (hcap : m.cap ≤ 2 ^ 30) :
    (findSlot m (m.cap + 1) m.lastid).isSome := by
  obtain ⟨c, -, hc⟩ := h.pow
  have hc31 : c ≤ 31 := by
    have : c ≤ 30 := (Nat.pow_le_pow_iff_right (by omega)).mp (hc ▸ hcap)
    omega
  obtain ⟨j, h0, hj, hfree⟩ := exists_free h
  obtain ⟨k, hk, hturn⟩ := exists_turn h.lastid_lt h0 (hc ▸ hj) hc31
  refine findSlot_isSome (k := k) (by omega) ?_
  rw [h.mask_eq, hc, hturn]
  exact hfree

theorem occupied_fill {j last n : ℕ} (s : HandleSlot α) (hs : s.id ≠ 0) (hj : j < m.cap) :
    occupied { m with lastid := last, n := n, slot := Function.update m.slot j s } =
      insert j (occupied m) := by
  ext k
  rw [mem_occupied, Finset.mem_insert, mem_occupied]
  by_cases hk : k = j
  · subst hk; simp [hs, hj]
  · simp [hk]

/-- Taking a free slot. -/
theorem Indexed.occupy (h : Indexed m) (hid : id ≠ 0) (hlt : id < 2 ^ 32)
    (hroom : m.n < m.cap * 3 / 4) (r : ℤ) (v : Option α) :
    Indexed { m with
      lastid := id
      n := m.n + 1
      slot := Function.update m.slot (id % m.cap) ⟨id, r, v⟩ } := by
  constructor
  · exact h.pow
  · exact hlt
  · intro j hj hne
    by_cases hjj : j = id % m.cap
    · subst hjj; simp
    · simp only [Function.update_of_ne hjj] at hne ⊢
      exact h.home j hj hne
  · rw [occupied_fill _ hid (Nat.mod_lt _ h.cap_pos)]
    exact (Finset.card_insert_le _ _).trans (Nat.succ_le_succ h.count)
  · exact hroom

/-- Taking a free slot for a handle that nobody holds. -/
theorem Placed.occupy (h : Placed m A) (hid : id ≠ 0) (hlt : id < 2 ^ 32)
    (hfree : (m.slot (id % m.cap)).id = 0) (hroom : m.n < m.cap * 3 / 4) (u : α) :
    Placed { m with
        lastid := id
        n := m.n + 1
        slot := Function.update m.slot (id % m.cap) ⟨id, 1, some u⟩ }
      (A.register id u) := by
  have hindexed := h.indexed.occupy hid hlt hroom 1 (some u)
  have hother : ∀ i v d, A i = some (v, d) → i % m.cap ≠ id % m.cap := by
    intro i v d hi he
    obtain ⟨h1, -, h3⟩ := h.live i v d hi
    rw [he] at h3
    rw [h3] at hfree
    exact h1 hfree
  constructor
  · exact hindexed.pow
  · exact hindexed.lastid_lt
  · intro i v d hi
    by_cases hii : i = id
    · subst hii
      rw [register_same] at hi
      obtain ⟨rfl, rfl⟩ := Prod.mk.inj (Option.some.inj hi)
      exact ⟨hid, by omega, by simp⟩
    · rw [register_other _ _ hii] at hi
      obtain ⟨h1, h2, h3⟩ := h.live i v d hi
      exact ⟨h1, h2, by simpa [hother i v d hi] using h3⟩
  · intro j hj hne
    refine ⟨hindexed.home j hj hne, ?_⟩
    by_cases hjj : j = id % m.cap
    · subst hjj; exact ⟨u, 1, by simp⟩
    · simp only [Function.update_of_ne hjj] at hne ⊢
      obtain ⟨h1, v, e, h2⟩ := h.home j hj hne
      have hne : (m.slot j).id ≠ id := fun he => hjj (by rw [← he, h1])
      exact ⟨v, e, by rwa [register_other _ _ hne]⟩
  · rw [occupied_fill _ hid (Nat.mod_lt _ h.indexed.cap_pos), Finset.card_insert_of_notMem, h.count]
    exact fun hmem => (mem_occupied.mp hmem).2 hfree
  · exact hindexed.load

/-- The map as `handlemap_new` leaves it before it looks for a slot. -/
theorem grown_indexed (h : Indexed m) (hcap : m.cap ≤ 2 ^ 29) :
    let m' := if m.n ≥ m.cap * 3 / 4 then expandMap m else m
    Indexed m' ∧ m'.cap ≤ 2 ^ 30 ∧ m'.n < m'.cap * 3 / 4 := by
  by_cases hfull : m.n ≥ m.cap * 3 / 4
  · rw [if_pos hfull]
    have := h.load
    have := h.cap_ge
    exact ⟨expand_indexed h, by simp only [expandMap]; omega, by simp only [expandMap]; omega⟩
  · rw [if_neg hfull]
    exact ⟨h, by omega, by omega⟩

/-- What `handlemap_new` does: the search ends in the grown map. -/
theorem handlemapNew_found (h : Indexed m) (hcap : m.cap ≤ 2 ^ 29) (u : α) :
    let m' := if m.n ≥ m.cap * 3 / 4 then expandMap m else m
    ∃ id, findSlot m' (m'.cap + 1) m'.lastid = some id ∧ id ≠ 0 ∧ id < 2 ^ 32 ∧
      (m'.slot (id % m'.cap)).id = 0 ∧
      handlemapNew m (some u) = some (id, { m' with
        lastid := id
        n := m'.n + 1
        slot := Function.update m'.slot (id % m'.cap) ⟨id, 1, some u⟩ }) := by
  obtain ⟨hgrown, hcap', -⟩ := grown_indexed h hcap
  obtain ⟨id, hid⟩ := Option.isSome_iff_exists.mp (findSlot_found hgrown hcap')
  obtain ⟨h0, hlt, hfree⟩ := findSlot_some hid hgrown.lastid_lt
  rw [hgrown.mask_eq] at hfree
  refine ⟨id, hid, h0, hlt, hfree, ?_⟩
  rw [handlemapNew, hid, Option.map_some, hgrown.mask_eq]

theorem new_placed (h : Placed m A) (hcap : m.cap ≤ 2 ^ 29)
    (hsafe : m.n ≥ m.cap * 3 / 4 → ExpandSafe m) (u : α) :
    ∃ id m', handlemapNew m (some u) = some (id, m') ∧ id ≠ 0 ∧ A id = none ∧
      Placed m' (A.register id u) := by
  have hgrown : Placed (if m.n ≥ m.cap * 3 / 4 then expandMap m else m) A := by
    split
    · exact expand_placed h (hsafe ‹_›)
    · exact h
  obtain ⟨id, -, h0, hlt, hfree, hnew⟩ := handlemapNew_found h.indexed hcap u
  refine ⟨id, _, hnew, h0, ?_, ?_⟩
  · cases hA : A id with
    | none => rfl
    | some r =>
      have := (hgrown.live id r.1 r.2 hA).2.2
      rw [this] at hfree
      exact absurd hfree h0
  · exact hgrown.occupy h0 hlt hfree (grown_indexed h.indexed hcap).2.2 u

instance (m : HandleMap α) : Decidable (ExpandSafe m) := inferInstanceAs (Decidable (_ ∨ _))

instance (s : State α) : ∀ c, Decidable (Fits s c)
  | .new none => isTrue trivial
  | .new (some _) => inferInstanceAs (Decidable (_ ∧ (_ → _)))
  | .grab _ => inferInstanceAs (Decidable (_ → _))
  | .release _ => isTrue trivial

instance (s : State α) (c : Call α) : Decidable ((handleSystem.when Fits).enabled s c) :=
  inferInstanceAs (Decidable (True ∧ Fits s c))

theorem Refines.pos (h : Refines m A) (i : ℕ) (u : α) (c : ℕ) (hA : A i = some (u, c)) : 0 < c :=
  (h.live i u c hA).2.1

theorem next_refines {s : State α} (h : Refines s.map s.spec) {c : Call α} (hfit : Fits s c) :
    Refines (next s c).map (next s c).spec := by
  cases c with
  | new ud =>
    cases ud with
    | none => exact h
    | some u =>
      obtain ⟨id, m', hnew, -, -, hm⟩ := new_placed h.placed hfit.1 hfit.2 u
      simp only [next, hnew]
      exact hm.refines fun _ _ _ hA => pos_register _ h.pos hA
  | grab id => exact (grab_placed h.placed hfit).refines fun _ _ _ hA => pos_grab _ h.pos hA
  | release id =>
    exact (release_placed h.placed (h.pos id)).1.refines fun _ _ _ hA => pos_release _ h.pos hA

theorem reachable_refines {s : State α} (h : Reachable (handleSystem.when Fits) s) :
    Refines s.map s.spec := by
  refine h.invariant (I := fun t => Refines t.map t.spec) ?_ ?_
  · rintro t rfl
    exact initial_placed.refines fun _ _ _ hA => by cases hA
  · intro t c _ ih hc
    exact next_refines ih hc.2

/-- Along calls that fit, the map answers as the reference-counted map does, counts its slots
and keeps every handle at home; a search ends with a fresh handle; and from every such state
an expansion changes nothing exactly when it is safe. -/
theorem handlemap_refines_refmap {s : State α} (h : Reachable (handleSystem.when Fits) s) :
    (∀ id, (handlemapGrab s.map id).1 = s.spec.find id) ∧
      (∀ id, (handlemapRelease s.map id).1 =
        (s.spec id).bind fun r => if r.2 ≤ 1 then some r.1 else none) ∧
      s.map.n = (occupied s.map).card ∧
      (∀ j ∈ occupied s.map, (s.map.slot j).id &&& (s.map.cap - 1) = j) ∧
      (∀ u, Fits s (.new (some u)) → ∃ id m', handlemapNew s.map (some u) = some (id, m') ∧
        id ≠ 0 ∧ s.spec id = none) ∧
      ((∀ id, lookup (expandMap s.map) id = lookup s.map id) ↔ ExpandSafe s.map) := by
  have href := reachable_refines h
  have hplaced := href.placed
  refine ⟨fun id => handlemapGrab_find hplaced id,
    fun id => (release_placed hplaced (href.pos id)).2, href.count, fun j hj => ?_,
    fun u hu => ?_, expand_lookup_iff hplaced⟩
  · obtain ⟨hj, hne⟩ := mem_occupied.mp hj
    rw [← mask, ← HandleMap.slotOf, hplaced.indexed.mask_eq]
    exact (href.home j hj hne).1
  · obtain ⟨id, m', hnew, h0, hA, -⟩ := new_placed hplaced hu.1 hu.2 u
    exact ⟨id, m', hnew, h0, hA⟩

/-- Thirteen handles, the last of which doubles the map, and one of them released. -/
def sampleRun : State ℕ :=
  runTrace (handleSystem.when Fits) ⟨handlemapInit, RefMap.empty⟩
    (List.replicate 13 (.new (some 7)) ++ [.grab 5, .release 3])

theorem handlemap_refines_refmap_sampleRun :
    (∀ id, (handlemapGrab sampleRun.map id).1 = sampleRun.spec.find id) ∧
      sampleRun.map.n = (occupied sampleRun.map).card := by
  have h := handlemap_refines_refmap (s := sampleRun) (.run (.start rfl) (by decide +kernel))
  exact ⟨h.1, h.2.2.1⟩

/-- Handles 1 to 31 come and go, 32 to 43 stay, and the next one doubles the map. -/
def lossRun : State ℕ :=
  runTrace handleSystem ⟨handlemapInit, RefMap.empty⟩
    ((List.range 31).flatMap (fun i => [.new (some 7), .release (i + 1)]) ++
      List.replicate 13 (.new (some 7)))

set_option maxRecDepth 100000 in
theorem expand_map_loses_handle :
    Reachable handleSystem lossRun ∧
      (handlemapGrab lossRun.map 32).1 = none ∧ lossRun.spec.find 32 = some 7 :=
  ⟨.run (.start rfl) (by decide +kernel), by decide +kernel, by decide +kernel⟩

end LtaskHandleMap
