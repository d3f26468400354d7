import Mathlib.Data.Finset.Card
import Mathlib.Algebra.Order.Ring.Nat
import Mathlib.Logic.Function.Iterate
import Grt.RefCountedMap
import Grt.TransitionSystem

/-! The handle map of `handlemap.c`: slots indexed by the low bits of the handle, doubled when
three quarters are taken. Its locks make each operation atomic, so a run is a sequence of
calls. `NULL` is `none`, the array is a function of the slot number, and `ref` is an `int`. -/
namespace LtaskHandleMap

open RefCountedMap TransitionSystem

structure HandleSlot (α : Type*) where
  id : ℕ
  ref : ℤ
  ud : Option α

structure HandleMap (α : Type*) where
  lastid : ℕ
  cap : ℕ
  n : ℕ
  slot : ℕ → HandleSlot α

variable {α : Type*}

def INIT_SLOTS : ℕ := 16

def calloc : ℕ → HandleSlot α := fun _ => ⟨0, 0, none⟩

def handlemapInit : HandleMap α := ⟨0, INIT_SLOTS, 0, calloc⟩

/-- `x` as a C `int`. -/
def int32 (x : ℤ) : ℤ := x.bmod (2 ^ 32)

/-- `id & (cap - 1)`. -/
def mask (id cap : ℕ) : ℕ := id &&& (cap - 1)

def HandleMap.slotOf (m : HandleMap α) (id : ℕ) : ℕ := mask id m.cap

/-- The first `i` turns of the copying loop of `expand_map`; empty slots are copied too. -/
def expandLoop (m : HandleMap α) : ℕ → ℕ → HandleSlot α
  | 0 => calloc
  | i + 1 => Function.update (expandLoop m i) (mask (m.slot i).id (m.cap * 2)) (m.slot i)

def expandMap (m : HandleMap α) : HandleMap α :=
  { m with slot := expandLoop m m.cap, cap := m.cap * 2 }

/-- `++m->lastid`, once more when it wraps to the reserved 0. -/
def nextid (lastid : ℕ) : ℕ :=
  let id := (lastid + 1) % 2 ^ 32
  if id = 0 then (id + 1) % 2 ^ 32 else id

/-- The search loop of `handlemap_new`; the fuel bounds its turns. -/
def findSlot (m : HandleMap α) : ℕ → ℕ → Option ℕ
  | 0, _ => none
  | fuel + 1, lastid =>
    let id := nextid lastid
    if (m.slot (m.slotOf id)).id ≠ 0 then findSlot m fuel id else some id

/-- `none` when the search loop takes more than `cap + 1` turns. -/
def handlemapNew (m : HandleMap α) : Option α → Option (ℕ × HandleMap α)
  | none => some (0, m)
  | some ud =>
    let m := if m.n ≥ m.cap * 3 / 4 then expandMap m else m
    (findSlot m (m.cap + 1) m.lastid).map fun id =>
      (id, { m with
        lastid := id
        n := m.n + 1
        slot := Function.update m.slot (m.slotOf id) ⟨id, 1, some ud⟩ })

def releaseRef (m : HandleMap α) (id : ℕ) : Option α × HandleMap α :=
  if id = 0 then (none, m)
  else
    let slot := m.slot (m.slotOf id)
    if slot.id ≠ id then (none, m)
    else
      let ref := int32 (slot.ref - 1)
      (if ref ≤ 0 then slot.ud else none,
        { m with slot := Function.update m.slot (m.slotOf id) { slot with ref := ref } })

def tryDelete (m : HandleMap α) (id : ℕ) : Option α × HandleMap α :=
  if id = 0 then (none, m)
  else
    let slot := m.slot (m.slotOf id)
    if slot.id ≠ id then (none, m)
    else if slot.ref > 0 then (none, m)
    else
      (slot.ud,
        { m with
          slot := Function.update m.slot (m.slotOf id) { slot with id := 0 }
          n := m.n - 1 })

def handlemapGrab (m : HandleMap α) (id : ℕ) : Option α × HandleMap α :=
  if id = 0 then (none, m)
  else
    let slot := m.slot (m.slotOf id)
    if slot.id ≠ id then (none, m)
    else
      (slot.ud,
        { m with
          slot := Function.update m.slot (m.slotOf id)
            { slot with ref := int32 (slot.ref + 1) } })

def handlemapRelease (m : HandleMap α) (id : ℕ) : Option α × HandleMap α :=
  match releaseRef m id with
  | (none, m) => (none, m)
  | (some _, m) => tryDelete m id

/-- `spec` is what the calls made so far should have left in the map. -/
structure State (α : Type*) where
  map : HandleMap α
  spec : RefMap α

inductive Call (α : Type*) where
  | new (ud : Option α)
  | grab (id : ℕ)
  | release (id : ℕ)

def next (s : State α) : Call α → State α
  | .new none => s
  | .new (some ud) =>
    match handlemapNew s.map (some ud) with
    | none => s
    | some (id, m) => ⟨m, s.spec.register id ud⟩
  | .grab id => ⟨(handlemapGrab s.map id).2, s.spec.grab id⟩
  | .release id => ⟨(handlemapRelease s.map id).2, s.spec.release id⟩

def handleSystem : System (State α) (Call α) where
  start s := s = ⟨handlemapInit, RefMap.empty⟩
  enabled _ _ := True
  next := next

instance (s : State α) (c : Call α) : Decidable (handleSystem.enabled s c) :=
  inferInstanceAs (Decidable True)

/-- Slot 0 is free, or its handle moves to the upper half and is not overwritten by the
empty slots, which are all copied to the new slot 0. -/
def ExpandSafe (m : HandleMap α) : Prop :=
  (m.slot 0).id = 0 ∨ mask (m.slot 0).id (m.cap * 2) ≠ 0

/-- The steps on which the code does what it should: an expansion is safe, the slot count
still fits the `int` arithmetic of the load check, and no count is about to overflow. -/
def Fits (s : State α) : Call α → Prop
  | .new none => True
  | .new (some _) => s.map.cap ≤ 2 ^ 29 ∧ (s.map.n ≥ s.map.cap * 3 / 4 → ExpandSafe s.map)
  | .grab id => (s.map.slot (s.map.slotOf id)).id = id →
      (s.map.slot (s.map.slotOf id)).ref < 2 ^ 31 - 1
  | .release _ => True

def occupied (m : HandleMap α) : Finset ℕ := (Finset.range m.cap).filter fun j => (m.slot j).id ≠ 0

structure Refines (m : HandleMap α) (A : RefMap α) : Prop where
  pow : ∃ k, 4 ≤ k ∧ m.cap = 2 ^ k
  lastid_lt : m.lastid < 2 ^ 32
  live : ∀ id u c, A id = some (u, c) →
    id ≠ 0 ∧ 0 < c ∧ c < 2 ^ 31 ∧ m.slot (id % m.cap) = ⟨id, c, some u⟩
  home : ∀ j, j < m.cap → (m.slot j).id ≠ 0 →
    (m.slot j).id % m.cap = j ∧ ∃ u c, A (m.slot j).id = some (u, c)
  count : m.n = (occupied m).card
  load : m.n ≤ m.cap * 3 / 4

/-- The same for a map in which a count can be 0, between the two halves of a release. -/
structure Placed (m : HandleMap α) (A : RefMap α) : Prop where
  pow : ∃ k, 4 ≤ k ∧ m.cap = 2 ^ k
  lastid_lt : m.lastid < 2 ^ 32
  live : ∀ id u c, A id = some (u, c) →
    id ≠ 0 ∧ c < 2 ^ 31 ∧ m.slot (id % m.cap) = ⟨id, c, some u⟩
  home : ∀ j, j < m.cap → (m.slot j).id ≠ 0 →
    (m.slot j).id % m.cap = j ∧ ∃ u c, A (m.slot j).id = some (u, c)
  count : m.n = (occupied m).card
  load : m.n ≤ m.cap * 3 / 4

/-- Every handle is in the slot that its low bits name, and the load check leaves room. -/
structure Indexed (m : HandleMap α) : Prop where
  pow : ∃ k, 4 ≤ k ∧ m.cap = 2 ^ k
  lastid_lt : m.lastid < 2 ^ 32
  home : ∀ j, j < m.cap → (m.slot j).id ≠ 0 → (m.slot j).id % m.cap = j
  count : (occupied m).card ≤ m.n
  load : m.n ≤ m.cap * 3 / 4

variable {m : HandleMap α} {A : RefMap α} {id : ℕ}

theorem Placed.indexed (h : Placed m A) : Indexed m where
  pow := h.pow
  lastid_lt := h.lastid_lt
  home j hj hne := (h.home j hj hne).1
  count := h.count.ge
  load := h.load

theorem Refines.placed (h : Refines m A) : Placed m A where
  pow := h.pow
  lastid_lt := h.lastid_lt
  live i u c hi := ⟨(h.live i u c hi).1, (h.live i u c hi).2.2⟩
  home := h.home
  count := h.count
  load := h.load

theorem Placed.refines (h : Placed m A) (hpos : ∀ id u c, A id = some (u, c) → 0 < c) :
    Refines m A where
  pow := h.pow
  lastid_lt := h.lastid_lt
  live i u c hi := ⟨(h.live i u c hi).1, hpos i u c hi, (h.live i u c hi).2⟩
  home := h.home
  count := h.count
  load := h.load

theorem mem_occupied {j : ℕ} : j ∈ occupied m ↔ j < m.cap ∧ (m.slot j).id ≠ 0 := by
  simp [occupied]

theorem mask_pow (id k : ℕ) : mask id (2 ^ k) = id % 2 ^ k := Nat.and_two_pow_sub_one_eq_mod id k

theorem Indexed.mask_eq (h : Indexed m) (id : ℕ) : m.slotOf id = id % m.cap := by
  obtain ⟨k, -, hk⟩ := h.pow
  rw [HandleMap.slotOf, hk, mask_pow]

theorem Indexed.mask_double (h : Indexed m) (id : ℕ) :
    mask id (m.cap * 2) = id % (m.cap * 2) := by
  obtain ⟨k, -, hk⟩ := h.pow
  rw [hk, ← pow_succ, mask_pow]

theorem Indexed.cap_pos (h : Indexed m) : 0 < m.cap := by
  obtain ⟨k, -, hk⟩ := h.pow
  rw [hk]
  exact Nat.two_pow_pos k

theorem Indexed.cap_ge (h : Indexed m) : 16 ≤ m.cap := by
  obtain ⟨k, h4, hk⟩ := h.pow
  rw [hk]
  exact Nat.pow_le_pow_right Nat.two_pos h4

/-- A handle is in the specification exactly when its slot holds it. -/
theorem Placed.slot_id (h : Placed m A) (hid : id ≠ 0) :
    (m.slot (id % m.cap)).id = id ↔ ∃ u c, A id = some (u, c) := by
  constructor
  · intro he
    have := (h.home _ (Nat.mod_lt _ h.indexed.cap_pos) (by rw [he]; exact hid)).2
    rwa [he] at this
  · rintro ⟨u, c, hA⟩
    rw [(h.live id u c hA).2.2]

theorem Placed.zero (h : Placed m A) : A 0 = none := by
  cases hA : A 0 with
  | none => rfl
  | some r => exact absurd rfl (h.live 0 r.1 r.2 hA).1

theorem Placed.absent (h : Placed m A) (hA : A id = none) (hid : id ≠ 0) :
    (m.slot (id % m.cap)).id ≠ id := by
  intro he
  obtain ⟨u, c, hs⟩ := (h.slot_id hid).mp he
  rw [hA] at hs
  cases hs

theorem initial_placed : Placed (handlemapInit : HandleMap α) RefMap.empty where
  pow := ⟨4, le_rfl, rfl⟩
  lastid_lt := Nat.two_pow_pos 32
  live _ _ _ h := by cases h
  home j _ h := absurd rfl h
  count := by simp [occupied, handlemapInit, calloc]
  load := Nat.zero_le _

/-- Different live handles sit in different slots. -/
theorem Placed.slot_ne (h : Placed m A) {u v : α} {c d i : ℕ} (hA : A id = some (u, c))
    (hi : A i = some (v, d)) (hne : i ≠ id) : i % m.cap ≠ id % m.cap := by
  intro he
  have h1 := (h.live i v d hi).2.2
  rw [he, (h.live id u c hA).2.2] at h1
  exact hne (congrArg HandleSlot.id h1).symm

theorem int32_small {x : ℤ} (h₀ : 0 ≤ x) (h : x < 2 ^ 31) : int32 x = x := by
  unfold int32
  rw [Int.bmod_eq_of_le] <;> omega

/-- Rewriting a slot with another count. -/
theorem occupied_update_ref {j : ℕ} (s : HandleSlot α) (hs : s.id = (m.slot j).id) :
    occupied { m with slot := Function.update m.slot j s } = occupied m := by
  ext k
  rw [mem_occupied, mem_occupied]
  by_cases hk : k = j
  · subst hk; simp [hs]
  · simp [hk]

theorem occupied_clear {j n : ℕ} (s : HandleSlot α) (hs : s.id = 0) :
    occupied { m with slot := Function.update m.slot j s, n := n } = (occupied m).erase j := by
  ext k
  rw [mem_occupied, Finset.mem_erase, mem_occupied]
  by_cases hk : k = j
  · subst hk; simp [hs]
  · simp [hk]

theorem Placed.setCount (h : Placed m A) {u : α} {c d : ℕ} (hA : A id = some (u, c))
    (hlt : d < 2 ^ 31) :
    Placed { m with slot := Function.update m.slot (id % m.cap) ⟨id, d, some u⟩ }
      (Function.update A id (some (u, d))) := by
  obtain ⟨hid, -, hslot⟩ := h.live id u c hA
  constructor
  · exact h.pow
  · exact h.lastid_lt
  · intro i v e hi
    by_cases hii : i = id
    · subst hii
      rw [Function.update_self] at hi
      obtain ⟨rfl, rfl⟩ := Prod.mk.inj (Option.some.inj hi)
      exact ⟨hid, hlt, by simp⟩
    · rw [Function.update_of_ne hii] at hi
      obtain ⟨h1, h2, h3⟩ := h.live i v e hi
      exact ⟨h1, h2, by simpa [h.slot_ne hA hi hii] using h3⟩
  · intro j hj hne
    by_cases hjj : j = id % m.cap
    · subst hjj; exact ⟨by simp, u, d, by simp⟩
    · simp only [Function.update_of_ne hjj] at hne ⊢
      obtain ⟨h1, v, e, h2⟩ := h.home j hj hne
      have hother : (m.slot j).id ≠ id := fun he => hjj (by rw [← he, h1])
      exact ⟨h1, v, e, by rwa [Function.update_of_ne hother]⟩
  · rw [occupied_update_ref _ (by rw [hslot])]
    exact h.count
  · exact h.load

theorem Placed.free (h : Placed m A) {u : α} {c : ℕ} (hA : A id = some (u, c)) (r : ℤ)
    (v : Option α) :
    Placed { m with slot := Function.update m.slot (id % m.cap) ⟨0, r, v⟩, n := m.n - 1 }
      (Function.update A id none) := by
  obtain ⟨hid, -, hslot⟩ := h.live id u c hA
  have hmem : id % m.cap ∈ occupied m :=
    mem_occupied.mpr ⟨Nat.mod_lt _ h.indexed.cap_pos, by rw [hslot]; exact hid⟩
  constructor
  · exact h.pow
  · exact h.lastid_lt
  · intro i w e hi
    have hii : i ≠ id := by rintro rfl; simp at hi
    rw [Function.update_of_ne hii] at hi
    obtain ⟨h1, h2, h3⟩ := h.live i w e hi
    exact ⟨h1, h2, by simpa [h.slot_ne hA hi hii] using h3⟩
  · intro j hj hne
    have hjj : j ≠ id % m.cap := by rintro rfl; simp at hne
    simp only [Function.update_of_ne hjj] at hne ⊢
    obtain ⟨h1, w, e, h2⟩ := h.home j hj hne
    have hother : (m.slot j).id ≠ id := fun he => hjj (by rw [← he, h1])
    exact ⟨h1, w, e, by rwa [Function.update_of_ne hother]⟩
  · rw [occupied_clear _ rfl, Finset.card_erase_of_mem hmem, ← h.count]
  · exact (Nat.sub_le _ _).trans h.load

theorem handlemapGrab_absent (h : Placed m A) (hA : A id = none) :
    handlemapGrab m id = (none, m) := by
  unfold handlemapGrab
  by_cases hid : id = 0
  · rw [if_pos hid]
  · rw [if_neg hid, h.indexed.mask_eq, if_pos (h.absent hA hid)]

theorem handlemapGrab_live (h : Placed m A) {u : α} {c : ℕ} (hA : A id = some (u, c)) :
    handlemapGrab m id = (some u, { m with
      slot := Function.update m.slot (id % m.cap) ⟨id, int32 (c + 1), some u⟩ }) := by
  obtain ⟨hid, -, hslot⟩ := h.live id u c hA
  simp [handlemapGrab, hid, h.indexed.mask_eq, hslot]

theorem handlemapGrab_find (h : Placed m A) (id : ℕ) : (handlemapGrab m id).1 = A.find id := by
  cases hA : A id with
  | none => rw [handlemapGrab_absent h hA, RefMap.find, hA]; rfl
  | some r => rw [handlemapGrab_live h hA, RefMap.find, hA]; rfl

theorem grab_placed (h : Placed m A)
    (hfit : (m.slot (m.slotOf id)).id = id → (m.slot (m.slotOf id)).ref < 2 ^ 31 - 1) :
    Placed (handlemapGrab m id).2 (A.grab id) := by
  cases hA : A id with
  | none =>
    rw [handlemapGrab_absent h hA, grab_absent _ hA]
    exact h
  | some r =>
    obtain ⟨u, c⟩ := r
    obtain ⟨-, hlt, hslot⟩ := h.live id u c hA
    rw [h.indexed.mask_eq, hslot] at hfit
    have hfit : (c : ℤ) < 2 ^ 31 - 1 := hfit rfl
    have hint : int32 ((c : ℤ) + 1) = ((c + 1 : ℕ) : ℤ) := by
      rw [int32_small (by omega) (by omega)]
      rfl
    rw [handlemapGrab_live h hA, hint, RefMap.grab, hA]
    exact h.setCount hA (by omega)

theorem releaseRef_absent (h : Placed m A) (hA : A id = none) : releaseRef m id = (none, m) := by
  unfold releaseRef
  by_cases hid : id = 0
  · rw [if_pos hid]
  · rw [if_neg hid, h.indexed.mask_eq, if_pos (h.absent hA hid)]

theorem releaseRef_live (h : Placed m A) {u : α} {c : ℕ} (hA : A id = some (u, c)) (hc : 0 < c) :
    releaseRef m id = (if c ≤ 1 then some u else none, { m with
      slot := Function.update m.slot (id % m.cap) ⟨id, ((c - 1 : ℕ) : ℤ), some u⟩ }) := by
  obtain ⟨hid, hlt, hslot⟩ := h.live id u c hA
  have hint : int32 ((c : ℤ) - 1) = ((c - 1 : ℕ) : ℤ) := by
    rw [int32_small (by omega) (by omega)]
    omega
  have hpos : ((c - 1 : ℕ) : ℤ) ≤ 0 ↔ c ≤ 1 := by omega
  rw [releaseRef, if_neg hid, h.indexed.mask_eq, hslot]
  simp only [ne_eq, not_true_eq_false, ↓reduceIte, hint, hpos]

theorem releaseRef_placed (h : Placed m A) (hpos : ∀ u c, A id = some (u, c) → 0 < c) :
    Placed (releaseRef m id).2 (A.drop id) ∧ (releaseRef m id).1 = A.released id := by
  cases hA : A id with
  | none =>
    rw [releaseRef_absent h hA, drop_absent _ hA, RefMap.released, hA]
    exact ⟨h, rfl⟩
  | some r =>
    obtain ⟨u, c⟩ := r
    have hlt := (h.live id u c hA).2.1
    rw [releaseRef_live h hA (hpos u c hA), RefMap.drop, RefMap.released, hA]
    exact ⟨h.setCount hA (by omega), rfl⟩

theorem tryDelete_absent (h : Placed m A) (hA : A id = none) : tryDelete m id = (none, m) := by
  unfold tryDelete
  by_cases hid : id = 0
  · rw [if_pos hid]
  · rw [if_neg hid, h.indexed.mask_eq, if_pos (h.absent hA hid)]

theorem tryDelete_live (h : Placed m A) {u : α} {c : ℕ} (hA : A id = some (u, c)) :
    tryDelete m id = if 0 < c then (none, m) else (some u, { m with
      slot := Function.update m.slot (id % m.cap) ⟨0, c, some u⟩, n := m.n - 1 }) := by
  obtain ⟨hid, hlt, hslot⟩ := h.live id u c hA
  simp [tryDelete, hid, h.indexed.mask_eq, hslot]

theorem tryDelete_placed (h : Placed m A) (id : ℕ) : Placed (tryDelete m id).2 (A.delete id) ∧
    (tryDelete m id).1 = (A id).bind fun r => if r.2 = 0 then some r.1 else none := by
  cases hA : A id with
  | none =>
    rw [tryDelete_absent h hA, delete_absent _ hA]
    exact ⟨h, rfl⟩
  | some r =>
    obtain ⟨u, c⟩ := r
    rw [tryDelete_live h hA]
    by_cases hc : 0 < c
    · rw [if_pos hc, delete_live _ hA hc, Option.bind_some, if_neg hc.ne']
      exact ⟨h, rfl⟩
    · obtain rfl : c = 0 := by omega
      rw [if_neg hc, RefMap.delete, hA]
      exact ⟨h.free hA _ _, rfl⟩

/-- What `try_delete` answers had no reference left. -/
theorem tryDelete_some (h : Placed m A) {u : α} (hu : (tryDelete m id).1 = some u) :
    A id = some (u, 0) := by
  rw [(tryDelete_placed h id).2, Option.bind_eq_some_iff] at hu
  obtain ⟨⟨v, c⟩, hA, hv⟩ := hu
  by_cases hc : c = 0
  · subst hc
    rw [if_pos rfl] at hv
    rwa [← Option.some.inj hv]
  · rw [if_neg hc] at hv
    cases hv

theorem release_placed (h : Placed m A) (hpos : ∀ u c, A id = some (u, c) → 0 < c) :
    Placed (handlemapRelease m id).2 (A.release id) ∧
      (handlemapRelease m id).1 = A.released id := by
  obtain ⟨hdrop, hret⟩ := releaseRef_placed h hpos
  rw [← delete_drop, handlemapRelease]
  generalize releaseRef m id = r at hdrop hret
  obtain ⟨ud, m'⟩ := r
  obtain ⟨hdel, hdret⟩ := tryDelete_placed hdrop id
  cases hA : A id with
  | none =>
    obtain rfl : ud = none := by simpa [RefMap.released, hA] using hret
    rw [delete_absent _ (by simp [hA])]
    exact ⟨hdrop, hret⟩
  | some r =>
    obtain ⟨u, c⟩ := r
    simp only [RefMap.released, hA, Option.bind_some] at hret ⊢
    by_cases hc : c ≤ 1
    · rw [if_pos hc] at hret ⊢
      obtain rfl : ud = some u := hret
      refine ⟨hdel, hdret.trans ?_⟩
      simp [hA, hc]
    · rw [if_neg hc] at hret ⊢
      obtain rfl : ud = none := hret
      rw [delete_live _ (r := (u, c - 1)) (by simp [hA]) (by simp only; omega)]
      exact ⟨hdrop, rfl⟩

end LtaskHandleMap
