import Mathlib.Data.Finset.Card
import Mathlib.Algebra.Order.Ring.Nat

/-! A map from handles to values with a reference count, as a specification: registering
starts a count at one, a release that brings it to zero takes the entry out. A client holds at
most one reference at a time; `holders` counts the clients that hold one to a handle. -/
namespace RefCountedMap

abbrev RefMap (α : Type*) := ℕ → Option (α × ℕ)

variable {α : Type*} (A : RefMap α) {i j : ℕ}

namespace RefMap

def empty : RefMap α := fun _ => none

def find (i : ℕ) : Option α := (A i).map Prod.fst

def count (i : ℕ) : ℕ := (A i).elim 0 Prod.snd

/-- The reference count of a handle that is in the map. -/
def refs (i : ℕ) : Option ℕ := (A i).map Prod.snd

def register (i : ℕ) (v : α) : RefMap α := Function.update A i (some (v, 1))

def grab (i : ℕ) : RefMap α :=
  Function.update A i ((A i).map fun r => (r.1, r.2 + 1))

def release (i : ℕ) : RefMap α :=
  Function.update A i ((A i).bind fun r => if r.2 ≤ 1 then none else some (r.1, r.2 - 1))

/-- The first half of a release, which leaves a count of zero behind. -/
def drop (i : ℕ) : RefMap α :=
  Function.update A i ((A i).map fun r => (r.1, r.2 - 1))

/-- The second half: an entry whose count is still zero goes. -/
def delete (i : ℕ) : RefMap α :=
  Function.update A i ((A i).bind fun r => if r.2 = 0 then none else some r)

/-- What the release of a reference returns: the value that leaves the map with the last one. -/
def released (i : ℕ) : Option α := (A i).bind fun r => if r.2 ≤ 1 then some r.1 else none

/-- Writing to the value behind a handle. -/
def modify (i : ℕ) (f : α → α) : RefMap α :=
  Function.update A i ((A i).map fun r => (f r.1, r.2))

end RefMap

@[simp] theorem register_same (v : α) : A.register i v i = some (v, 1) :=
  Function.update_self ..

theorem register_other (v : α) (h : j ≠ i) : A.register i v j = A j :=
  Function.update_of_ne h ..

@[simp] theorem grab_same : A.grab i i = (A i).map fun r => (r.1, r.2 + 1) :=
  Function.update_self ..

theorem grab_other (h : j ≠ i) : A.grab i j = A j :=
  Function.update_of_ne h ..

@[simp] theorem release_same :
    A.release i i = (A i).bind fun r => if r.2 ≤ 1 then none else some (r.1, r.2 - 1) :=
  Function.update_self ..

theorem release_other (h : j ≠ i) : A.release i j = A j :=
  Function.update_of_ne h ..

@[simp] theorem drop_same : A.drop i i = (A i).map fun r => (r.1, r.2 - 1) :=
  Function.update_self ..

theorem drop_other (h : j ≠ i) : A.drop i j = A j :=
  Function.update_of_ne h ..

@[simp] theorem delete_same :
    A.delete i i = (A i).bind fun r => if r.2 = 0 then none else some r :=
  Function.update_self ..

theorem delete_other (h : j ≠ i) : A.delete i j = A j :=
  Function.update_of_ne h ..

/-- With nothing in between the halves make a release. -/
theorem delete_drop (i : ℕ) : (A.drop i).delete i = A.release i := by
  funext j
  by_cases hj : j = i
  · subst hj
    cases hA : A j with
    | none => simp [hA]
    | some r =>
      simp only [delete_same, drop_same, release_same, hA, Option.map_some, Option.bind_some]
      by_cases hr : r.2 ≤ 1
      · rw [if_pos hr, if_pos (by omega)]
      · rw [if_neg hr, if_neg (by omega)]
  · rw [delete_other _ hj, drop_other _ hj, release_other _ hj]

theorem delete_absent (h : A i = none) : A.delete i = A := by
  rw [RefMap.delete, h]
  exact Function.update_eq_self_iff.mpr h.symm

theorem drop_absent (h : A i = none) : A.drop i = A := by
  rw [RefMap.drop, h]
  exact Function.update_eq_self_iff.mpr h.symm

theorem grab_absent (h : A i = none) : A.grab i = A := by
  rw [RefMap.grab, h]
  exact Function.update_eq_self_iff.mpr h.symm

theorem modify_absent (f : α → α) (h : A i = none) : A.modify i f = A := by
  rw [RefMap.modify, h]
  exact Function.update_eq_self_iff.mpr h.symm

theorem delete_live {r : α × ℕ} (h : A i = some r) (hr : 0 < r.2) : A.delete i = A := by
  rw [RefMap.delete, h, Option.bind_some, if_neg hr.ne']
  exact Function.update_eq_self_iff.mpr h.symm

theorem pos_register {v w : α} {n : ℕ} (h : ∀ i u c, A i = some (u, c) → 0 < c)
    (hj : A.register i v j = some (w, n)) : 0 < n := by
  by_cases hji : j = i
  · subst hji
    rw [register_same] at hj
    cases hj
    exact Nat.one_pos
  · rw [register_other _ _ hji] at hj
    exact h j w n hj

theorem pos_grab {w : α} {n : ℕ} (h : ∀ i u c, A i = some (u, c) → 0 < c)
    (hj : A.grab i j = some (w, n)) : 0 < n := by
  by_cases hji : j = i
  · subst hji
    obtain ⟨r, -, hr⟩ := Option.map_eq_some_iff.mp ((grab_same A).symm.trans hj)
    cases hr
    exact Nat.succ_pos _
  · rw [grab_other _ hji] at hj
    exact h j w n hj

theorem pos_release {w : α} {n : ℕ} (h : ∀ i u c, A i = some (u, c) → 0 < c)
    (hj : A.release i j = some (w, n)) : 0 < n := by
  by_cases hji : j = i
  · subst hji
    obtain ⟨r, -, hr⟩ := Option.bind_eq_some_iff.mp ((release_same A).symm.trans hj)
    by_cases hone : r.2 ≤ 1
    · rw [if_pos hone] at hr
      cases hr
    · rw [if_neg hone] at hr
      cases hr
      omega
  · rw [release_other _ hji] at hj
    exact h j w n hj

@[simp] theorem modify_same (f : α → α) : A.modify i f i = (A i).map fun r => (f r.1, r.2) :=
  Function.update_self ..

theorem modify_other (f : α → α) (h : j ≠ i) : A.modify i f j = A j :=
  Function.update_of_ne h ..

theorem isSome_find : (A.find i).isSome = (A i).isSome := Option.isSome_map

theorem isSome_grab : (A.grab i j).isSome = (A j).isSome := by
  by_cases h : j = i
  · subst h
    simp
  · rw [grab_other _ h]

theorem isSome_release (h : (A.release i j).isSome) : (A j).isSome := by
  by_cases hj : j = i
  · subst hj
    cases hA : A j with
    | none => simp [hA] at h
    | some r => rfl
  · rwa [release_other _ hj] at h

@[simp] theorem find_grab (i j : ℕ) : (A.grab i).find j = A.find j := by
  by_cases h : j = i
  · subst h
    simp [RefMap.find, Function.comp_def]
  · simp [RefMap.find, grab_other _ h]

@[simp] theorem find_drop (i j : ℕ) : (A.drop i).find j = A.find j := by
  by_cases h : j = i
  · subst h
    simp [RefMap.find, Function.comp_def]
  · simp [RefMap.find, drop_other _ h]

theorem find_release {v : α} (h : (A.release i).find j = some v) : A.find j = some v := by
  by_cases hj : j = i
  · subst hj
    cases hA : A j with
    | none => simp [RefMap.find, hA] at h
    | some r =>
      simp only [RefMap.find, release_same, hA, Option.bind_some, Option.map_some] at h ⊢
      split at h
      · cases h
      · exact h
  · simpa [RefMap.find, release_other _ hj] using h

theorem find_delete_some {v : α} (h : (A.delete i).find j = some v) : A.find j = some v := by
  by_cases hj : j = i
  · subst hj
    obtain ⟨r, hr, rfl⟩ := Option.map_eq_some_iff.mp h
    obtain ⟨q, hA, hq⟩ := Option.bind_eq_some_iff.mp ((delete_same A).symm.trans hr)
    by_cases h0 : q.2 = 0
    · rw [if_pos h0] at hq
      cases hq
    · rw [if_neg h0] at hq
      rw [RefMap.find, hA, Option.some.inj hq]
      rfl
  · rwa [RefMap.find, delete_other _ hj] at h

theorem find_register {v w : α} (h : (A.register i v).find j = some w) :
    j = i ∧ w = v ∨ j ≠ i ∧ A.find j = some w := by
  by_cases hj : j = i
  · subst hj
    simp only [RefMap.find, register_same, Option.map_some, Option.some.injEq] at h
    exact Or.inl ⟨rfl, h.symm⟩
  · simp only [RefMap.find, register_other _ _ hj] at h
    exact Or.inr ⟨hj, h⟩

theorem find_modify {f : α → α} {v : α} (h : (A.modify i f).find j = some v) :
    j ≠ i ∧ A.find j = some v ∨ j = i ∧ ∃ w, A.find j = some w ∧ v = f w := by
  by_cases hj : j = i
  · subst hj
    cases hA : A j with
    | none => simp [RefMap.find, hA] at h
    | some r =>
      simp only [RefMap.find, modify_same, hA, Option.map_some, Option.some.injEq] at h
      exact Or.inr ⟨rfl, r.1, by simp [RefMap.find, hA], h.symm⟩
  · simp only [RefMap.find, modify_other _ _ hj] at h
    exact Or.inl ⟨hj, h⟩

theorem count_grab (h : (A i).isSome) : (A.grab i).count i = A.count i + 1 := by
  obtain ⟨r, hr⟩ := Option.isSome_iff_exists.mp h
  simp [RefMap.count, hr]

theorem count_grab_other (h : j ≠ i) : (A.grab i).count j = A.count j := by
  simp [RefMap.count, grab_other _ h]

theorem count_release_other (h : j ≠ i) : (A.release i).count j = A.count j := by
  simp [RefMap.count, release_other _ h]

theorem count_register_other (v : α) (h : j ≠ i) : (A.register i v).count j = A.count j := by
  simp [RefMap.count, register_other _ _ h]

theorem count_release : (A.release i).count i = A.count i - 1 := by
  cases hA : A i with
  | none => simp [RefMap.count, hA]
  | some r =>
    simp only [RefMap.count, release_same, hA, Option.bind_some, Option.elim_some]
    split
    · simp only [Option.elim_none]
      omega
    · rfl

@[simp] theorem count_modify (f : α → α) (i j : ℕ) : (A.modify i f).count j = A.count j := by
  by_cases h : j = i
  · subst h
    cases hA : A j <;> simp [RefMap.count, hA]
  · simp [RefMap.count, modify_other _ _ h]

/-- A reference that is taken and given back leaves the entry as it was. -/
theorem release_grab (h : 1 ≤ A.count i) : (A.grab i).release i = A := by
  funext j
  by_cases hj : j = i
  · subst hj
    cases hA : A j with
    | none => simp [hA]
    | some r =>
      have hr : 1 ≤ r.2 := by simpa [RefMap.count, hA] using h
      simp only [release_same, grab_same, hA, Option.map_some, Option.bind_some]
      rw [if_neg (by omega)]
      rfl
  · rw [release_other _ hj, grab_other _ hj]

theorem modify_grab (f : α → α) (i j : ℕ) : (A.grab i).modify j f = (A.modify j f).grab i := by
  funext k
  by_cases hj : k = j <;> by_cases hi : k = i
  · subst hj hi
    simp [Function.comp_def]
  · subst hj
    simp [grab_other _ hi]
  · subst hi
    simp [modify_other _ _ hj]
  · rw [modify_other _ _ hj, grab_other _ hi, grab_other _ hi, modify_other _ _ hj]

theorem release_modify_grab (f : α → α) (h : 1 ≤ A.count i) :
    ((A.grab i).modify i f).release i = A.modify i f := by
  rw [modify_grab]
  apply release_grab
  rwa [count_modify]

theorem modify_register (f : α → α) (v : α) :
    (A.register i v).modify i f = A.register i (f v) := by
  funext j
  by_cases h : j = i
  · subst h
    simp
  · rw [modify_other _ _ h, register_other _ _ h, register_other _ _ h]

theorem modify_modify (f g : α → α) : (A.modify i f).modify i g = A.modify i fun v => g (f v) := by
  funext j
  by_cases h : j = i
  · subst h
    simp [Function.comp_def]
  · rw [modify_other _ _ h, modify_other _ _ h, modify_other _ _ h]

theorem modify_unchanged {f : α → α} {v : α} (h : A.find i = some v) (hf : f v = v) :
    A.modify i f = A := by
  obtain ⟨r, hr, rfl⟩ := Option.map_eq_some_iff.mp h
  rw [RefMap.modify, hr, Option.map_some, hf]
  exact Function.update_eq_self_iff.mpr hr.symm

theorem find_modify_same (f : α → α) : (A.modify i f).find i = (A.find i).map f := by
  simp [RefMap.find, Function.comp_def]

theorem isSome_modify (f : α → α) (i j : ℕ) : (A.modify i f j).isSome = (A j).isSome := by
  by_cases h : j = i
  · subst h
    simp
  · rw [modify_other _ _ h]

theorem refs_register (v : α) : (A.register i v).refs j = if j = i then some 1 else A.refs j := by
  by_cases h : j = i
  · subst h
    simp [RefMap.refs]
  · simp [RefMap.refs, register_other _ _ h, h]

theorem refs_grab : (A.grab i).refs j = if j = i then (A.refs i).map (· + 1) else A.refs j := by
  by_cases h : j = i
  · subst h
    simp [RefMap.refs, Function.comp_def]
  · simp [RefMap.refs, grab_other _ h, h]

theorem refs_release : (A.release i).refs j =
    if j = i then (A.refs i).bind fun n => if n ≤ 1 then none else some (n - 1)
    else A.refs j := by
  by_cases h : j = i
  · subst h
    cases hA : A j with
    | none => simp [RefMap.refs, hA]
    | some r =>
      simp only [RefMap.refs, release_same, hA, Option.bind_some, Option.map_some, ↓reduceIte]
      split <;> rfl
  · simp [RefMap.refs, release_other _ h, h]

@[simp] theorem refs_modify (f : α → α) (i j : ℕ) : (A.modify i f).refs j = A.refs j := by
  by_cases h : j = i
  · subst h
    simp [RefMap.refs, Function.comp_def]
  · simp [RefMap.refs, modify_other _ _ h]

theorem refs_isSome (i : ℕ) : (A.refs i).isSome = (A i).isSome := Option.isSome_map

theorem count_of_refs {n : ℕ} (h : A.refs i = some n) : A.count i = n := by
  obtain ⟨r, hr, rfl⟩ := Option.map_eq_some_iff.mp h
  simp [RefMap.count, hr]

/-- A reference that is taken and given back, with no other change of a count in between. -/
theorem refs_borrowed {A B : RefMap α} (hB : ∀ j, B.refs j = (A.grab i).refs j)
    (hpos : ∀ n, A.refs i = some n → 1 ≤ n) (j : ℕ) : (B.release i).refs j = A.refs j := by
  rw [refs_release, hB, hB, refs_grab, refs_grab, if_pos rfl]
  by_cases h : j = i
  · subst h
    rw [if_pos rfl]
    cases hA : A.refs j with
    | none => rfl
    | some n =>
      have hn := hpos n hA
      rw [Option.map_some, Option.bind_some, if_neg (by omega), Nat.add_sub_cancel]
  · rw [if_neg h, if_neg h]

/-- The last reference takes the value out. -/
theorem released_last (h : A.refs i = some 1) :
    A.released i = A.find i ∧ (A.find i).isSome ∧ A.release i i = none := by
  obtain ⟨r, hr, hone⟩ := Option.map_eq_some_iff.mp h
  simp [RefMap.released, RefMap.find, hr, hone]

/-- Each handle is counted as often as it is referred to, and one that is not referred to is
there only while somebody is about to delete it. -/
structure Counted (A : RefMap α) (refs : ℕ → ℕ) (deleting : ℕ → Prop) : Prop where
  count : ∀ i, A.count i = refs i
  zero : ∀ i, (A i).isSome → refs i = 0 → deleting i

section Counted

variable {A} {refs refs' : ℕ → ℕ} {deleting deleting' : ℕ → Prop}

theorem Counted.imp (h : Counted A refs deleting) (hrefs : ∀ j, refs' j = refs j)
    (hkeep : ∀ j, deleting j → deleting' j) : Counted A refs' deleting' where
  count j := (h.count j).trans (hrefs j).symm
  zero j hA h0 := hkeep j (h.zero j hA ((hrefs j).symm.trans h0))

theorem Counted.absent (h : Counted A refs deleting) (hA : A i = none) : refs i = 0 := by
  rw [← h.count, RefMap.count, hA]
  rfl

theorem Counted.live (h : Counted A refs deleting) (hi : 0 < refs i) : (A i).isSome := by
  cases hA : A i with
  | none => exact absurd (h.absent hA) hi.ne'
  | some r => rfl

theorem Counted.pos (h : Counted A refs deleting) (hi : 0 < refs i) (v : α) (n : ℕ)
    (hA : A i = some (v, n)) : 0 < n := by
  rwa [← h.count, RefMap.count, hA] at hi

theorem Counted.register (h : Counted A refs deleting) (v : α) (hi : refs' i = 1)
    (hother : ∀ j, j ≠ i → refs' j = refs j) :
    Counted (A.register i v) refs' deleting where
  count j := by
    by_cases hj : j = i
    · subst hj
      simp [RefMap.count, hi]
    · rw [count_register_other _ _ hj, hother j hj, h.count]
  zero j hA h0 := by
    by_cases hj : j = i
    · subst hj
      omega
    · rw [register_other _ _ hj] at hA
      exact h.zero j hA ((hother j hj).symm.trans h0)

theorem Counted.grab (h : Counted A refs deleting) (hA : (A i).isSome)
    (hi : refs' i = refs i + 1) (hother : ∀ j, j ≠ i → refs' j = refs j) :
    Counted (A.grab i) refs' deleting where
  count j := by
    by_cases hj : j = i
    · subst hj
      rw [count_grab _ hA, hi, h.count]
    · rw [count_grab_other _ hj, hother j hj, h.count]
  zero j hB h0 := by
    rw [isSome_grab] at hB
    by_cases hj : j = i
    · subst hj
      omega
    · exact h.zero j hB ((hother j hj).symm.trans h0)

theorem Counted.drop (h : Counted A refs deleting) (hi : refs i = refs' i + 1)
    (hother : ∀ j, j ≠ i → refs' j = refs j) (hlast : refs i = 1 → deleting' i)
    (hkeep : ∀ j, deleting j → deleting' j) :
    Counted (A.drop i) refs' deleting' where
  count j := by
    by_cases hj : j = i
    · subst hj
      have hcount := h.count j
      cases hA : A j with
      | none => simp [RefMap.count, hA] at hcount ⊢; omega
      | some r => simp [RefMap.count, hA] at hcount ⊢; omega
    · rw [hother j hj, ← h.count, RefMap.count, drop_other _ hj, RefMap.count]
  zero j hB h0 := by
    by_cases hj : j = i
    · subst hj
      exact hlast (by omega)
    · rw [drop_other _ hj] at hB
      exact hkeep j (h.zero j hB ((hother j hj).symm.trans h0))

theorem Counted.delete (h : Counted A refs deleting) (deleting' : ℕ → Prop)
    (hkeep : ∀ j, j ≠ i → deleting j → deleting' j) :
    Counted (A.delete i) refs deleting' where
  count j := by
    by_cases hj : j = i
    · subst hj
      rw [← h.count]
      cases hA : A j with
      | none => simp [RefMap.count, hA]
      | some r =>
        by_cases hr : r.2 = 0
        · simp [RefMap.count, hA, hr]
        · simp [RefMap.count, hA, hr]
    · rw [← h.count, RefMap.count, delete_other _ hj, RefMap.count]
  zero j hB h0 := by
    by_cases hj : j = i
    · subst hj
      rw [← h.count] at h0
      cases hA : A j with
      | none => simp [hA] at hB
      | some r =>
        have hr : r.2 = 0 := by simpa [RefMap.count, hA] using h0
        simp [hA, hr] at hB
    · rw [delete_other _ hj] at hB
      exact hkeep j hj (h.zero j hB h0)

end Counted

variable {ι : Type*} [DecidableEq ι] {S : Finset ι} {f g : ι → Option ℕ} {a : ι}

def holders (S : Finset ι) (f : ι → Option ℕ) (i : ℕ) : ℕ := (S.filter fun b => f b = some i).card

omit [DecidableEq ι] in
theorem holders_mono (h : ∀ b, g b = some i → f b = some i) : holders S g i ≤ holders S f i :=
  Finset.card_le_card fun b hb => by
    obtain ⟨hS, hg⟩ := Finset.mem_filter.mp hb
    exact Finset.mem_filter.mpr ⟨hS, h b hg⟩

omit [DecidableEq ι] in
theorem holders_congr (h : ∀ b, g b = some i ↔ f b = some i) : holders S g i = holders S f i :=
  (holders_mono fun b hb => (h b).mp hb).antisymm (holders_mono fun b hb => (h b).mpr hb)

omit [DecidableEq ι] in
/-- What a client does with another handle. -/
theorem holders_other (hold : f a ≠ some i) (hnew : g a ≠ some i)
    (hother : ∀ b, b ≠ a → g b = f b) : holders S g i = holders S f i := by
  apply holders_congr
  intro b
  by_cases hb : b = a
  · subst hb
    exact ⟨fun h => absurd h hnew, fun h => absurd h hold⟩
  · rw [hother b hb]

/-- A client that takes a reference is one holder more. -/
theorem holders_grab (ha : a ∈ S) (hold : f a ≠ some i) (hnew : g a = some i)
    (hother : ∀ b, b ≠ a → g b = f b) : holders S g i = holders S f i + 1 := by
  have hset : (S.filter fun b => g b = some i) = insert a (S.filter fun b => f b = some i) := by
    ext b
    by_cases hb : b = a
    · subst hb
      simp [ha, hnew]
    · simp [hb, hother b hb]
  rw [holders, hset, Finset.card_insert_of_notMem (by simp [hold]), holders]

/-- A client that gives its reference back is one holder less. -/
theorem holders_release (ha : a ∈ S) (hold : f a = some i) (hnew : g a ≠ some i)
    (hother : ∀ b, b ≠ a → g b = f b) : holders S g i + 1 = holders S f i :=
  (holders_grab ha hnew hold fun b hb => (hother b hb).symm).symm

end RefCountedMap
