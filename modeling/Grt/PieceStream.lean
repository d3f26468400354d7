import Mathlib.Data.List.Basic

/-! Streams of texts that are handed over in pieces, with notes between them. How a text is cut
into pieces is forgotten by `coalesce`, which joins neighbouring pieces of one kind. -/
namespace PieceStream

inductive Item (κ ν α : Type*) where
  | data (k : κ) (text : List α)
  | notify (n : ν)
  deriving DecidableEq, Repr

variable {κ ν α : Type*} [DecidableEq κ] {a b c : List (Item κ ν α)} {k : κ} {x y : List α}

/-- An item in front of joined ones. -/
def join : Item κ ν α → List (Item κ ν α) → List (Item κ ν α)
  | .data k x, .data k' y :: l =>
    if k = k' then .data k (x ++ y) :: l else .data k x :: .data k' y :: l
  | i, l => i :: l

def coalesce (l : List (Item κ ν α)) : List (Item κ ν α) := l.foldr join []

/-- The same texts and notes, cut into pieces in any two ways. -/
def Same (a b : List (Item κ ν α)) : Prop := coalesce a = coalesce b

instance [DecidableEq ν] [DecidableEq α] (a b : List (Item κ ν α)) : Decidable (Same a b) :=
  inferInstanceAs (Decidable (coalesce a = coalesce b))

/-- The last item is a piece of this kind. -/
def EndsWith (k : κ) (l : List (Item κ ν α)) : Prop := ∃ a x, l = a ++ [.data k x]

theorem join_data_append (l : List (Item κ ν α)) :
    join (.data k (x ++ y)) l = join (.data k x) (join (.data k y) l) := by
  match l with
  | [] => simp [join]
  | .notify n :: l => simp [join]
  | .data k' z :: l =>
    by_cases h : k = k'
    · simp [join, h]
    · simp [join, h]

theorem foldr_join_join (i : Item κ ν α) (l b : List (Item κ ν α)) :
    (join i l).foldr join b = join i (l.foldr join b) := by
  match i, l with
  | .notify n, l => cases l <;> rfl
  | .data k x, [] => rfl
  | .data k x, .notify n :: l => rfl
  | .data k x, .data k' y :: l =>
    by_cases h : k = k'
    · subst h
      rw [join, if_pos rfl, List.foldr_cons, List.foldr_cons, join_data_append]
    · rw [join, if_neg h]
      rfl

theorem foldr_join_coalesce (l b : List (Item κ ν α)) :
    (coalesce l).foldr join b = l.foldr join b := by
  induction l with
  | nil => rfl
  | cons i l ih => rw [coalesce, List.foldr_cons, foldr_join_join, List.foldr_cons, ← ih, coalesce]

theorem coalesce_append (a b : List (Item κ ν α)) :
    coalesce (a ++ b) = (coalesce a).foldr join (coalesce b) := by
  rw [foldr_join_coalesce, coalesce, List.foldr_append, coalesce]

theorem Same.refl (a : List (Item κ ν α)) : Same a a := Eq.refl _

theorem Same.symm (h : Same a b) : Same b a := Eq.symm h

theorem Same.trans (h : Same a b) (k : Same b c) : Same a c := Eq.trans h k

theorem Same.append {a' b' : List (Item κ ν α)} (ha : Same a a') (hb : Same b b') :
    Same (a ++ b) (a' ++ b') := by
  rw [Same, coalesce_append, coalesce_append, ha, hb]

theorem Same.flatMap {β : Type*} {f g : β → List (Item κ ν α)} {l : List β}
    (h : ∀ i ∈ l, Same (f i) (g i)) : Same (l.flatMap f) (l.flatMap g) := by
  induction l with
  | nil => exact .refl []
  | cons i l ih =>
    rw [List.forall_mem_cons] at h
    rw [List.flatMap_cons, List.flatMap_cons]
    exact h.1.append (ih h.2)

/-- A piece may be cut. -/
theorem same_cut : Same [Item.data k (x ++ y)] [(Item.data k x : Item κ ν α), .data k y] := by
  simp [Same, coalesce, join]

/-- A text handed over item by item. -/
theorem same_singletons (h : x ≠ []) :
    Same [(Item.data k x : Item κ ν α)] (x.map fun c => .data k [c]) := by
  induction x with
  | nil => exact absurd rfl h
  | cons c x ih =>
    cases x with
    | nil => exact .refl _
    | cons d x =>
      have hcut : Same [(Item.data k ([c] ++ d :: x) : Item κ ν α)] _ := same_cut
      exact hcut.trans (Same.append (.refl [.data k [c]]) (ih (List.cons_ne_nil _ _)))

/-- After a piece of its kind an empty piece adds nothing. -/
theorem EndsWith.same_nil (h : EndsWith k a) : Same (a ++ [.data k []]) a := by
  obtain ⟨l, x, rfl⟩ := h
  rw [List.append_assoc]
  refine Same.append (.refl l) ?_
  simp [Same, coalesce, join]

omit [DecidableEq κ] in
theorem EndsWith.append (a : List (Item κ ν α)) (h : EndsWith k b) : EndsWith k (a ++ b) := by
  obtain ⟨l, x, rfl⟩ := h
  exact ⟨a ++ l, x, (List.append_assoc ..).symm⟩

omit [DecidableEq κ] in
theorem endsWith_singleton (k : κ) (x : List α) : EndsWith k [(Item.data k x : Item κ ν α)] :=
  ⟨[], x, rfl⟩

/-- A piece that goes on with what has been handed over before. -/
theorem Same.extend (h : Same (a ++ [.data k x]) b) :
    Same (a ++ [.data k (x ++ y)]) (b ++ [.data k y]) := by
  refine (Same.append (.refl a) same_cut).trans ?_
  exact List.append_assoc a [Item.data k x] [Item.data k y] ▸ Same.append h (.refl _)

end PieceStream
