import Mathlib.Data.Finset.Card
import Mathlib.Algebra.Order.Ring.Nat
import Mathlib.Logic.Function.Iterate
import Mathlib.Data.List.Count
import Grt.LtaskHandleMapGrowth

/-! Clients of the handle map that share its handles. `handlemap_release` takes the lock twice,
in `release_ref` and in `try_delete`, and other clients may call in between. A client gives
back only references that it holds; the handles may be issued again. -/
namespace LtaskHandleMapClients

open RefCountedMap LtaskHandleMap TransitionSystem

variable {ι α : Type*} [DecidableEq ι]

/-- `held` lists the references that have not been given back, `deleting` the clients between
the halves of a release, and `issued` and `returned` what `handlemap_new` got and
`handlemap_release` gave back under each handle, the last first. -/
structure Clients (ι α : Type*) extends State α where
  held : List (ι × ℕ)
  deleting : ι → Option ℕ
  issued : ℕ → List α
  returned : ℕ → List α

inductive Event (ι α : Type*) where
  | new (c : ι) (ud : Option α)
  | grab (c : ι) (id : ℕ)
  | releaseRef (c : ι) (id : ℕ)
  | tryDelete (c : ι)

def initial : Clients ι α :=
  ⟨⟨handlemapInit, RefMap.empty⟩, [], fun _ => none, fun _ => [], fun _ => []⟩

/-- Pushes `ud`, if there is one, on what is listed for `id`. -/
def record (l : ℕ → List α) (id : ℕ) (ud : Option α) : ℕ → List α :=
  Function.update l id (ud.toList ++ l id)

/-- How many references to `id` the clients hold. -/
def Clients.refs (s : Clients ι α) (id : ℕ) : ℕ := s.held.countP fun r => r.2 = id

def next (s : Clients ι α) : Event ι α → Clients ι α
  | .new _ none => s
  | .new c (some ud) =>
    match handlemapNew s.map (some ud) with
    | none => s
    | some (id, m) =>
      { s with
        map := m
        spec := s.spec.register id ud
        held := (c, id) :: s.held
        issued := record s.issued id (some ud) }
  | .grab c id =>
    let r := handlemapGrab s.map id
    { s with
      map := r.2
      spec := s.spec.grab id
      held := if r.1.isSome then (c, id) :: s.held else s.held }
  | .releaseRef c id =>
    let r := releaseRef s.map id
    { s with
      map := r.2
      spec := s.spec.drop id
      held := s.held.erase (c, id)
      deleting := Function.update s.deleting c (if r.1.isSome then some id else none) }
  | .tryDelete c =>
    match s.deleting c with
    | none => s
    | some id =>
      let r := tryDelete s.map id
      { s with
        map := r.2
        spec := s.spec.delete id
        deleting := Function.update s.deleting c none
        returned := record s.returned id r.1 }

/-- A client goes on with its release before it calls again. -/
def Enabled (s : Clients ι α) : Event ι α → Prop
  | .new c _ | .grab c _ => s.deleting c = none
  | .releaseRef c id => s.deleting c = none ∧ (c, id) ∈ s.held
  | .tryDelete c => (s.deleting c).isSome

def clientSystem : System (Clients ι α) (Event ι α) where
  start s := s = initial
  enabled := Enabled
  next := next

/-- As for calls that are not interrupted. -/
def ClientFits (s : Clients ι α) : Event ι α → Prop
  | .new _ ud => Fits s.toState (.new ud)
  | .grab _ id => Fits s.toState (.grab id)
  | .releaseRef .. | .tryDelete _ => True

instance (s : Clients ι α) (e : Event ι α) : Decidable (Enabled s e) :=
  match e with
  | .new .. | .grab .. => inferInstanceAs (Decidable (_ = none))
  | .releaseRef .. => inferInstanceAs (Decidable (_ = none ∧ _ ∈ _))
  | .tryDelete _ => inferInstanceAs (Decidable (_ = true))

instance (s : Clients ι α) (e : Event ι α) : Decidable (ClientFits s e) :=
  match e with
  | .new _ ud => inferInstanceAs (Decidable (Fits s.toState (.new ud)))
  | .grab _ id => inferInstanceAs (Decidable (Fits s.toState (.grab id)))
  | .releaseRef .. | .tryDelete _ => isTrue trivial

instance (s : Clients ι α) (e : Event ι α) : Decidable (clientSystem.enabled s e) :=
  inferInstanceAs (Decidable (Enabled s e))

instance (s : Clients ι α) (e : Event ι α) :
    Decidable ((clientSystem.when ClientFits).enabled s e) :=
  inferInstanceAs (Decidable (Enabled s e ∧ ClientFits s e))

structure Shared (s : Clients ι α) : Prop where
  placed : Placed s.map s.spec
  counted : Counted s.spec s.refs fun id => ∃ c, s.deleting c = some id
  /-- What was issued and not yet returned is what the map holds. -/
  kept : ∀ id, s.issued id = (s.spec.find id).toList ++ s.returned id

variable {s : Clients ι α} {c : ι} {id : ℕ}

theorem record_same (l : ℕ → List α) (ud : Option α) :
    record l id ud id = ud.toList ++ l id := Function.update_self ..

theorem record_other (l : ℕ → List α) (ud : Option α) {i : ℕ} (h : i ≠ id) :
    record l id ud i = l i := Function.update_of_ne h ..

omit [DecidableEq ι] in
theorem refs_pos : 0 < s.refs id ↔ ∃ c, (c, id) ∈ s.held := by
  rw [Clients.refs, List.countP_pos_iff]
  constructor
  · rintro ⟨⟨c, i⟩, hmem, hi⟩
    obtain rfl := of_decide_eq_true hi
    exact ⟨c, hmem⟩
  · rintro ⟨c, hmem⟩
    exact ⟨(c, id), hmem, decide_eq_true rfl⟩

omit [DecidableEq ι] in
theorem countP_cons_same (l : List (ι × ℕ)) (c : ι) (id : ℕ) :
    ((c, id) :: l).countP (fun r => r.2 = id) = l.countP (fun r => r.2 = id) + 1 := by
  simp

omit [DecidableEq ι] in
theorem countP_cons_other (l : List (ι × ℕ)) (c : ι) {id i : ℕ} (h : i ≠ id) :
    ((c, id) :: l).countP (fun r => r.2 = i) = l.countP (fun r => r.2 = i) := by
  simp [h.symm]

theorem countP_erase_same {l : List (ι × ℕ)} (h : (c, id) ∈ l) :
    l.countP (fun r => r.2 = id) = (l.erase (c, id)).countP (fun r => r.2 = id) + 1 := by
  have hperm := (List.perm_cons_erase h).countP_eq fun r : ι × ℕ => decide (r.2 = id)
  rw [hperm, countP_cons_same]

theorem countP_erase_other {l : List (ι × ℕ)} (h : (c, id) ∈ l) {i : ℕ} (hi : i ≠ id) :
    (l.erase (c, id)).countP (fun r => r.2 = i) = l.countP (fun r => r.2 = i) := by
  have hperm := (List.perm_cons_erase h).countP_eq fun r : ι × ℕ => decide (r.2 = i)
  rw [hperm, countP_cons_other _ _ hi]

omit [DecidableEq ι] in
theorem initial_shared : Shared (initial : Clients ι α) where
  placed := initial_placed
  counted := ⟨fun _ => rfl, fun _ h => by cases h⟩
  kept _ := rfl

theorem new_shared (h : Shared s) {ud : α} (hfit : Fits s.toState (.new (some ud))) :
    Shared (next s (.new c (some ud))) := by
  obtain ⟨id, m, hnew, -, hfresh, hm⟩ := new_placed h.placed hfit.1 hfit.2 ud
  simp only [next, hnew]
  constructor
  · exact hm
  · apply h.counted.register ud
    · rw [Clients.refs, countP_cons_same]
      exact congrArg (· + 1) (h.counted.absent hfresh)
    · intro i hi
      exact countP_cons_other _ _ hi
  · intro i
    change record s.issued id (some ud) i = ((s.spec.register id ud).find i).toList ++ _
    by_cases hi : i = id
    · subst hi
      have hkept := h.kept i
      rw [RefMap.find, hfresh] at hkept
      rw [record_same, hkept, RefMap.find, register_same]
      rfl
    · rw [record_other _ _ hi, h.kept i, RefMap.find, RefMap.find, register_other _ _ hi]

theorem grab_shared (h : Shared s) (hfit : Fits s.toState (.grab id)) :
    Shared (next s (.grab c id)) := by
  have hfind := handlemapGrab_find h.placed id
  simp only [next, hfind, isSome_find]
  constructor
  · exact grab_placed h.placed hfit
  · cases hA : s.spec id with
    | none =>
      rw [grab_absent _ hA, if_neg (by simp)]
      exact h.counted
    | some r =>
      rw [if_pos (by rfl)]
      apply h.counted.grab (by rw [hA]; rfl)
      · exact countP_cons_same _ _ _
      · intro i hi
        exact countP_cons_other _ _ hi
  · intro i
    rw [find_grab]
    exact h.kept i

theorem releaseRef_shared (h : Shared s) (hfree : s.deleting c = none) (hheld : (c, id) ∈ s.held) :
    Shared (next s (.releaseRef c id)) := by
  have hpos : 0 < s.refs id := refs_pos.mpr ⟨c, hheld⟩
  obtain ⟨hplaced, hret⟩ := releaseRef_placed h.placed (h.counted.pos hpos)
  simp only [next, hret]
  constructor
  · exact hplaced
  · apply h.counted.drop
    · exact countP_erase_same hheld
    · intro i hi
      exact countP_erase_other hheld hi
    · -- the count reaches zero, so `release_ref` answers and the client goes on to delete
      intro hone
      obtain ⟨r, hA⟩ := Option.isSome_iff_exists.mp (h.counted.live hpos)
      have hr : r.2 = 1 := by
        have := h.counted.count id
        rw [RefMap.count, hA, hone] at this
        exact this
      refine ⟨c, ?_⟩
      change Function.update s.deleting c _ c = some id
      rw [Function.update_self, RefMap.released, hA, Option.bind_some, if_pos hr.le]
      rfl
    · rintro i ⟨d, hd⟩
      have hdc : d ≠ c := by
        rintro rfl
        rw [hfree] at hd
        cases hd
      exact ⟨d, (Function.update_of_ne hdc ..).trans hd⟩
  · intro i
    rw [find_drop]
    exact h.kept i

omit [DecidableEq ι] in
theorem find_delete (h : Shared s) (id i : ℕ) : (s.spec.find i).toList =
    ((s.spec.delete id).find i).toList ++ if i = id then (tryDelete s.map id).1.toList else [] := by
  by_cases hi : i = id
  · subst hi
    rw [if_pos rfl, (tryDelete_placed h.placed i).2, RefMap.find, RefMap.find, delete_same]
    cases hA : s.spec i with
    | none => rfl
    | some r =>
      by_cases hr : r.2 = 0
      · simp [hr]
      · simp [hr]
  · rw [if_neg hi, List.append_nil, RefMap.find, RefMap.find, delete_other _ hi]

theorem tryDelete_shared (h : Shared s) (hdel : s.deleting c = some id) :
    Shared (next s (.tryDelete c)) := by
  simp only [next, hdel]
  constructor
  · exact (tryDelete_placed h.placed id).1
  · apply h.counted.delete
    rintro i hi ⟨d, hd⟩
    have hdc : d ≠ c := by
      rintro rfl
      rw [hdel] at hd
      exact hi (Option.some.inj hd).symm
    exact ⟨d, (Function.update_of_ne hdc ..).trans hd⟩
  · intro i
    change s.issued i = _ ++ record s.returned id (tryDelete s.map id).1 i
    rw [h.kept i, find_delete h id i, List.append_assoc]
    by_cases hi : i = id
    · subst hi
      rw [if_pos rfl, record_same]
    · rw [if_neg hi, record_other _ _ hi, List.nil_append]

theorem next_shared (h : Shared s) {e : Event ι α} (he : Enabled s e) (hfit : ClientFits s e) :
    Shared (next s e) := by
  cases e with
  | new c ud =>
    cases ud with
    | none => exact h
    | some ud => exact new_shared h hfit
  | grab c id => exact grab_shared h hfit
  | releaseRef c id => exact releaseRef_shared h he.1 he.2
  | tryDelete c =>
    obtain ⟨id, hdel⟩ := Option.isSome_iff_exists.mp he
    exact tryDelete_shared h hdel

theorem reachable_shared (h : Reachable (clientSystem.when ClientFits) s) : Shared s := by
  apply h.invariant (I := Shared)
  · rintro t rfl
    exact initial_shared
  · intro t e _ ih he
    exact next_shared ih he.1 he.2

/-- Under each handle either everything issued has been returned, nobody holds it and a grab
fails, or all but the last object have, a grab gets that one and somebody is left to return
it. A release returns the object that was issued last, when nobody holds the handle. -/
theorem released_once (h : Reachable (clientSystem.when ClientFits) s) (id : ℕ) :
    (s.issued id = s.returned id ∧ (∀ c, (c, id) ∉ s.held) ∧ (handlemapGrab s.map id).1 = none ∨
      ∃ u, s.issued id = u :: s.returned id ∧ (handlemapGrab s.map id).1 = some u ∧
        ((∃ c, (c, id) ∈ s.held) ∨ ∃ c, s.deleting c = some id)) ∧
      ∀ u, (tryDelete s.map id).1 = some u →
        (∀ c, (c, id) ∉ s.held) ∧ s.issued id = u :: s.returned id := by
  have hs := reachable_shared h
  have hkept := hs.kept id
  have hgrab := handlemapGrab_find hs.placed id
  constructor
  · cases hA : s.spec id with
    | none =>
      have hfind : s.spec.find id = none := by rw [RefMap.find, hA]; rfl
      rw [hfind] at hkept hgrab
      have hnone : ∀ c, (c, id) ∉ s.held := fun c hc =>
        (refs_pos.mpr ⟨c, hc⟩).ne' (hs.counted.absent hA)
      exact Or.inl ⟨hkept, hnone, hgrab⟩
    | some r =>
      have hfind : s.spec.find id = some r.1 := by rw [RefMap.find, hA]; rfl
      rw [hfind] at hkept hgrab
      refine Or.inr ⟨r.1, hkept, hgrab, ?_⟩
      by_cases h0 : s.refs id = 0
      · exact Or.inr (hs.counted.zero id (by rw [hA]; rfl) h0)
      · exact Or.inl (refs_pos.mp (Nat.pos_of_ne_zero h0))
  · intro u hu
    have hA := tryDelete_some hs.placed hu
    have hcount := hs.counted.count id
    rw [RefMap.count, hA, Option.elim_some] at hcount
    constructor
    · intro c hc
      exact absurd hcount.symm (refs_pos.mpr ⟨c, hc⟩).ne'
    · rw [hkept, RefMap.find, hA]
      rfl

/-- Another client grabs between the halves of a release. -/
def sampleTrace : List (Event Bool ℕ) :=
  [.new true (some 7), .releaseRef true 1, .grab false 1, .tryDelete true, .releaseRef false 1]

def sampleRun : Clients Bool ℕ := runTrace (clientSystem.when ClientFits) initial sampleTrace

theorem released_once_sampleRun :
    (tryDelete sampleRun.map 1).1 = some 7 ∧ (∀ c, (c, 1) ∉ sampleRun.held) ∧
      sampleRun.issued 1 = 7 :: sampleRun.returned 1 :=
  have hret : (tryDelete sampleRun.map 1).1 = some 7 := by decide +kernel
  have h := released_once (s := sampleRun) (.run (.start rfl) (by decide +kernel)) 1
  ⟨hret, h.2 7 hret⟩

/-- The handles 1 to 31 come and go; 32 is grabbed between the halves of its release, and the
map is doubled before it is given back. -/
def lossRun : Clients Bool ℕ :=
  runTrace clientSystem initial
    ((List.range 31).flatMap (fun i =>
        [.new true (some 7), .releaseRef true (i + 1), .tryDelete true]) ++
      [.new true (some 7), .releaseRef true 32, .grab false 32, .tryDelete true] ++
      List.replicate 12 (.new true (some 7)) ++ [.releaseRef false 32])

set_option maxRecDepth 100000 in
/-- No release has got the object of handle 32 and none is left to get it. -/
theorem grabbed_object_never_returned :
    Reachable clientSystem lossRun ∧ lossRun.issued 32 = [7] ∧ lossRun.returned 32 = [] ∧
      (∀ c, (c, 32) ∉ lossRun.held) ∧ (∀ c, lossRun.deleting c ≠ some 32) ∧
      (handlemapGrab lossRun.map 32).1 = none :=
  ⟨.run (.start rfl) (by decide +kernel), by decide +kernel, by decide +kernel,
    by decide +kernel, by decide +kernel, by decide +kernel⟩

end LtaskHandleMapClients
