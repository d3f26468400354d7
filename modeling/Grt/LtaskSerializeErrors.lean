import Grt.LtaskSerializeTables
import Grt.LtaskSchedule

/-! When `seri_pack` fails. It packs a graph of objects, which may be cyclic, exactly if
everything reached from the arguments has a type that is serialized and is nested no deeper than
`MAX_DEPTH`; otherwise the error is raised with all blocks freed, and a send that packs first
has changed nothing. -/
namespace LtaskSerializeErrors

open LittleEndian LtaskBlocks LuaValue LtaskSerialize LtaskSerializeTables LtaskSchedule

variable {heap : Heap} {P Q : Prop} {b : WriteBlock} {v : Obj} {room : ℕ}

/-- Every block that was allocated is freed, and the head is `NULL`. -/
structure Freed (b : WriteBlock) : Prop where
  head : b.chain = []
  blocks : b.freed = b.allocated

theorem wbFree_freed (h : Appending b) : Freed (wbFree b) where
  head := rfl
  blocks := by
    change b.freed + b.chain.length = b.allocated
    rw [h.freed, h.allocated, Nat.zero_add]

/-- The writer goes on if `P` holds and fails cleanly if it does not. -/
inductive Outcome (P : Prop) : Pack WriteBlock → Prop where
  | ok {b : WriteBlock} : P → Appending b → Outcome P (.ok b)
  | error {message : String} {b : WriteBlock} : ¬ P → Freed b → Outcome P (.error (message, b))

theorem Outcome.congr {r : Pack WriteBlock} (h : Outcome P r) (hPQ : P ↔ Q) : Outcome Q r := by
  cases h with
  | ok hP hb => exact .ok (hPQ.mp hP) hb
  | error hP hb => exact .error (mt hPQ.mpr hP) hb

theorem outcome_pure (h : Appending b) (hP : P) : Outcome P (pure b) := .ok hP h

theorem outcome_packError (h : Appending b) (message : String) (hP : ¬ P) :
    Outcome P (packError b message) :=
  .error hP (wbFree_freed h)

theorem Outcome.bind {r : Pack WriteBlock} {f : WriteBlock → Pack WriteBlock} (h : Outcome P r)
    (hf : ∀ b, Appending b → Outcome Q (f b)) : Outcome (P ∧ Q) (r >>= f) := by
  cases h with
  | ok hP hb => exact (hf _ hb).congr (and_iff_right hP).symm
  | error hP hb => exact .error (fun h => hP h.1) hb

theorem outcome_foldlM {α : Type} {p : α → Prop} {f : WriteBlock → α → Pack WriteBlock}
    {l : List α} (hf : ∀ x ∈ l, ∀ b, Appending b → Outcome (p x) (f b x)) :
    ∀ b, Appending b → Outcome (∀ x ∈ l, p x) (l.foldlM f b) := by
  induction l with
  | nil =>
    intro b h
    exact outcome_pure h fun x hx => absurd hx List.not_mem_nil
  | cons x l ih =>
    intro b h
    rw [List.foldlM_cons, show (∀ y ∈ x :: l, p y) ↔ p x ∧ ∀ y ∈ l, p y from
      List.forall_mem_cons]
    apply (hf x List.mem_cons_self b h).bind
    exact ih fun y hy => hf y (List.mem_cons_of_mem x hy)

theorem wbPush_ok (h : Appending b) (buf : List Byte) : Appending (wbPush b buf) :=
  (wbPush_appending h buf).1

theorem wbInteger_ok (h : Appending b) (n : BitVec 64) : Appending (wbInteger b n) := by
  unfold wbInteger
  dsimp only
  split_ifs
  · exact wbPush_ok h _
  all_goals exact wbPush_ok (wbPush_ok h _) _

theorem wbString_ok (h : Appending b) (str : List Byte) (len : ℤ) :
    Appending (wbString b str len) := by
  unfold wbString
  dsimp only
  split_ifs
  · exact wbPush_ok (wbPush_ok h _) _
  · exact wbPush_ok h _
  all_goals exact wbPush_ok (wbPush_ok (wbPush_ok h _) _) _

theorem wbTableHeader_ok (h : Appending b) (size : ℤ) : Appending (wbTableHeader b size) := by
  unfold wbTableHeader
  split
  · exact wbInteger_ok (wbPush_ok h _) _
  · exact wbPush_ok h _

/-- `nil`, a boolean, a number, a string, a light userdata or a table. -/
def Supported : Obj → Prop
  | .other _ _ => False
  | _ => True

/-- Everything reached from the value is supported and less than `room` levels deep. -/
def Packable (heap : Heap) (room : ℕ) (v : Obj) : Prop :=
  ∀ d w, ReachAt heap d v w → d < room ∧ Supported w

theorem Packable.pos (h : Packable heap room v) : 0 < room := (h 0 v (.here v)).1

/-- A value that is not a table reaches itself only. -/
theorem packable_plain (hv : ∀ ref, v ≠ .table ref) :
    Packable heap room v ↔ 0 < room ∧ Supported v := by
  constructor
  · exact fun h => h 0 v (.here v)
  · intro h d w hreach
    cases hreach with
    | here => exact h
    | key => exact absurd rfl (hv _)
    | value => exact absurd rfl (hv _)

theorem packable_table {ref : ℕ} : Packable heap (room + 1) (.table ref) ↔
    ∀ e ∈ (heap ref).entries, Packable heap room e.1 ∧ Packable heap room e.2 := by
  constructor
  · intro h e he
    constructor
    · intro d w hreach
      obtain ⟨hd, hw⟩ := h (d + 1) w (.key he hreach)
      exact ⟨Nat.lt_of_succ_lt_succ hd, hw⟩
    · intro d w hreach
      obtain ⟨hd, hw⟩ := h (d + 1) w (.value he hreach)
      exact ⟨Nat.lt_of_succ_lt_succ hd, hw⟩
  · intro h d w hreach
    cases hreach with
    | here => exact ⟨Nat.succ_pos room, trivial⟩
    | key he hreach =>
      obtain ⟨hd, hw⟩ := (h _ he).1 _ w hreach
      exact ⟨Nat.succ_lt_succ hd, hw⟩
    | value he hreach =>
      obtain ⟨hd, hw⟩ := (h _ he).2 _ w hreach
      exact ⟨Nat.succ_lt_succ hd, hw⟩

/-- The array part packs the values under its keys and `nil` for its holes, the second loop
the other pairs. -/
theorem packable_parts (t : LuaTable) :
    ((∀ i ∈ List.range' 1 (arraySize t).toNat, Packable heap room (rawgeti t.entries i)) ∧
      ∀ e ∈ t.entries, inArray (arraySize t) e.1 = true ∨
        Packable heap room e.1 ∧ Packable heap room e.2) ↔
      ∀ e ∈ t.entries, Packable heap room e.1 ∧ Packable heap room e.2 := by
  constructor
  · rintro ⟨harray, hhash⟩ e he
    rcases hhash e he with hin | hboth
    · obtain ⟨j, hj, hlt, hkey⟩ := (inArray_iff t he (toInt32_lt _)).mp hin
      have hget : rawgeti t.entries j = e.2 := by
        rw [rawgeti_eq t (t.values_ok e he), ← hkey]
        exact he
      have hvalue := harray j (List.mem_range'_1.mpr ⟨hj, hlt⟩)
      rw [hget] at hvalue
      refine ⟨?_, hvalue⟩
      rw [hkey, indexKey]
      exact (packable_plain (fun ref h => by cases h)).mpr ⟨hvalue.pos, trivial⟩
    · exact hboth
  · intro h
    refine ⟨fun i hi => ?_, fun e he => Or.inr (h e he)⟩
    by_cases hnil : rawgeti t.entries i = .nil
    · -- a hole is in a table that has an entry
      have hpos : 0 < arraySize t := by
        have := List.mem_range'_1.mp hi
        omega
      obtain ⟨e, he⟩ := List.exists_mem_of_ne_nil _ (entries_ne_nil hpos)
      rw [hnil]
      exact (packable_plain (fun ref h => by cases h)).mpr ⟨(h e he).1.pos, trivial⟩
    · have he := (rawgeti_eq t hnil).mp rfl
      exact (h _ he).2

theorem wbTableArray_eq (f : Obj → WriteBlock → Pack WriteBlock) (t : LuaTable)
    (b : WriteBlock) : wbTableArray f t b = (List.range' 1 (arraySize t).toNat).foldlM
      (fun b (i : ℕ) => f (rawgeti t.entries i) b) (wbTableHeader b (arraySize t)) := by
  have hcast : (do let i ← List.range' 1 (arraySize t).toNat; pure (i : ℤ)) =
      (List.range' 1 (arraySize t).toNat).map Nat.cast := List.flatMap_pure_eq_map ..
  rw [wbTableArray, hcast, List.foldlM_map]

theorem wbTable_outcome {f : Obj → WriteBlock → Pack WriteBlock} (t : LuaTable)
    (hf : ∀ v b, Appending b → Outcome (Packable heap room v) (f v b)) (h : Appending b) :
    Outcome (∀ e ∈ t.entries, Packable heap room e.1 ∧ Packable heap room e.2)
      (wbTable f t b) := by
  refine Outcome.congr ?_ (packable_parts t)
  apply Outcome.bind
  · rw [wbTableArray_eq]
    refine outcome_foldlM (fun i _ b hb => ?_) _ (wbTableHeader_ok h _)
    exact hf (rawgeti t.entries i) b hb
  · intro b hb
    refine Outcome.congr ?_ (and_iff_left trivial)
    apply Outcome.bind
    · refine outcome_foldlM (fun e _ b hb => ?_) b hb
      by_cases hin : inArray (arraySize t) e.1 = true
      · rw [if_pos hin]
        exact outcome_pure hb (Or.inl hin)
      · rw [if_neg hin]
        refine Outcome.congr ?_ (or_iff_right hin).symm
        exact (hf e.1 b hb).bind (hf e.2)
    · exact fun b hb => outcome_pure (wbPush_ok hb _) trivial

/-- Induction on the room that the depth counter leaves; a table takes one level of it. -/
theorem packOne_outcome (heap : Heap) (room : ℕ) :
    ∀ v b, Appending b → Outcome (Packable heap room v) (packOne heap room v b) := by
  induction room with
  | zero =>
    intro v b h
    exact outcome_packError h _ fun hp => Nat.lt_irrefl 0 hp.pos
  | succ room ih =>
    intro v b h
    have plain : (∀ ref, v ≠ .table ref) → Supported v → Packable heap (room + 1) v :=
      fun hv hs => (packable_plain hv).mpr ⟨Nat.succ_pos room, hs⟩
    cases v with
    | nil => exact outcome_pure (wbPush_ok h _) (plain (fun _ h => by cases h) trivial)
    | scalar s =>
      have hp := plain (fun _ h => by cases h) trivial
      cases s with
      | boolean x => exact outcome_pure (wbPush_ok h _) hp
      | integer n => exact outcome_pure (wbInteger_ok h n) hp
      | float bits => exact outcome_pure (wbPush_ok (wbPush_ok h _) _) hp
      | string str => exact outcome_pure (wbString_ok h str _) hp
      | lightuserdata p => exact outcome_pure (wbPush_ok (wbPush_ok h _) _) hp
    | table ref => exact (wbTable_outcome (heap ref) ih h).congr packable_table.symm
    | other typename ref =>
      refine outcome_packError h _ fun hp => ?_
      exact (hp 0 _ (.here _)).2

theorem packFrom_outcome (heap : Heap) (args : List Obj) :
    Outcome (∀ v ∈ args, Packable heap (MAX_DEPTH + 1) v) (packFrom heap args wbInit) :=
  outcome_foldlM (fun v _ => packOne_outcome heap (MAX_DEPTH + 1) v) _ wbInit_appending.1

/-- `lsend`, with `address` the pointer to the head of a chain: the schedule afterwards, and
the error that was raised. -/
def lsend (heap : Heap) (address : List Block → Ptr) (s : Schedule) (id : ChannelId)
    (args : List Obj) : Option Schedule × Option String :=
  match seriPack heap args with
  | .ok msg => (scheduleSend s id (address msg), none)
  | .error (message, _) => (some s, some message)

/-- `seri_pack` makes a chain exactly if all that is reached from the arguments is supported
and nested no deeper than `MAX_DEPTH`. Otherwise it has freed all its blocks, and a send has
left the schedule alone. -/
theorem seriPack_fails_cleanly (heap : Heap) (args : List Obj) :
    ((∃ chain, seriPack heap args = .ok chain) ↔
      ∀ v ∈ args, ∀ d w, ReachAt heap d v w → d ≤ MAX_DEPTH ∧ Supported w) ∧
    ∀ message b, seriPack heap args = .error (message, b) →
      Freed b ∧ ∀ address s id, lsend heap address s id args = (some s, some message) := by
  have hpackable : (∀ v ∈ args, Packable heap (MAX_DEPTH + 1) v) ↔
      ∀ v ∈ args, ∀ d w, ReachAt heap d v w → d ≤ MAX_DEPTH ∧ Supported w := by
    simp only [Packable, Nat.lt_succ_iff]
  have houtcome := (packFrom_outcome heap args).congr hpackable
  have hpack : seriPack heap args = packFrom heap args wbInit >>= fun b => pure (wbClose b) := rfl
  cases hfrom : packFrom heap args wbInit with
  | ok b =>
    rw [hfrom] at houtcome hpack
    constructor
    · cases houtcome with
      | ok hall _ => exact ⟨fun _ => hall, fun _ => ⟨wbClose b, hpack⟩⟩
    · intro message b' herror
      rw [hpack] at herror
      cases herror
  | error e =>
    rw [hfrom] at houtcome hpack
    cases houtcome with
    | error hnot hfreed =>
      rename_i message b
      constructor
      · constructor
        · rintro ⟨chain, hok⟩
          rw [hpack] at hok
          cases hok
        · exact fun hall => absurd hall hnot
      · intro message' b' herror
        obtain ⟨rfl, rfl⟩ : message' = message ∧ b' = b := by
          rw [hpack] at herror
          cases herror
          exact ⟨rfl, rfl⟩
        refine ⟨hfreed, fun address s id => ?_⟩
        simp only [lsend, herror]

end LtaskSerializeErrors
