import Grt.LtaskSerializeLengths
import Grt.LtaskSerializeTables

/-! What `seri_pack` writes, `seri_unpack` reads as the same values, unless the length of a string
or the border of a table is cut by the `int` it is kept in. -/
namespace LtaskSerializeRoundTrip

open LittleEndian LtaskBlocks LuaValue LtaskSerialize LtaskSerializeScalars LtaskSerializeTables
open LtaskSerializeLengths

/-- The length of a string fits in an `int`. -/
def ShortString : Obj → Prop
  | .scalar (.string s) => s.length < 2 ^ 31
  | _ => True

/-- The `int` of a table's border is not negative, or its last five bits are zero. -/
def FitBorder (heap : Heap) : Obj → Prop
  | .table ref => 0 ≤ arraySize (heap ref) ∨ 32 ∣ arraySize (heap ref)
  | _ => True

/-- What holds of every value that is reached from the arguments. -/
def Throughout (heap : Heap) (args : List Obj) (p : ℕ → Obj → Prop) : Prop :=
  ∀ v ∈ args, ∀ d w, ReachAt heap d v w → p d w

/-- The receiver's values are the sender's, with room for all it asks for. -/
def RoundTrip (heap : Heap) (args : List Obj) : Prop :=
  ∃ chain vs rb, seriPack heap args = .ok chain ∧ seriUnpack .unlimited chain = .ok (vs, rb) ∧
    List.Forall₂ (Same heap) args vs

variable {heap : Heap} {args : List Obj}

/-- A value of depth less than `room` is written and read. -/
theorem packOne_roundTrips {room : ℕ} {v : Obj}
    (h : ∀ d w, ReachAt heap d v w → d < room ∧ Plain heap w ∧ ShortString w ∧ FitBorder heap w) :
    RoundTrips heap (packOne heap room v) v := by
  induction room generalizing v with
  | zero => exact absurd (h 0 v (.here v)).1 (Nat.not_lt_zero 0)
  | succ room ih =>
    obtain ⟨-, hplain, hshort, hfit⟩ := h 0 v (.here v)
    cases v with
    | nil => exact nil_roundTrips
    | scalar s =>
      cases s with
      | boolean x => exact boolean_roundTrips x
      | integer n => exact integer_roundTrips n
      | float bits => exact real_roundTrips bits
      | string s => exact string_roundTrips hshort
      | lightuserdata p => exact pointer_roundTrips p
    | other => exact hplain.elim
    | table ref =>
      have hitems : ∀ e ∈ (heap ref).entries,
          RoundTrips heap (packOne heap room e.1) e.1 ∧
            RoundTrips heap (packOne heap room e.2) e.2 := by
        intro e he
        constructor
        · refine ih fun d w hw => ?_
          obtain ⟨hd, hrest⟩ := h (d + 1) w (.key he hw)
          exact ⟨by omega, hrest⟩
        · refine ih fun d w hw => ?_
          obtain ⟨hd, hrest⟩ := h (d + 1) w (.value he hw)
          exact ⟨by omega, hrest⟩
      refine table_roundTrips hfit hplain (fun hne => ?_) hitems
      obtain ⟨e, he⟩ := List.exists_mem_of_ne_nil _ hne
      obtain ⟨hd, -⟩ := h 1 e.1 (.key he (.here _))
      cases room with
      | zero => omega
      | succ room => exact nil_roundTrips

theorem checkEighth_unlimited (i : ℕ) (s : Unpacker) : checkEighth .unlimited i s = pure () :=
  ite_eq_right_iff.mpr fun _ => rfl

/-- The values are pushed in order. -/
theorem unpackAll_reads (h : ∀ v ∈ args, RoundTrips heap (packOne heap (MAX_DEPTH + 1) v) v) :
    ∃ enc vs, Emits (packFrom heap args) enc ∧ List.Forall₂ (Same heap) args vs ∧
      ∀ fuel i st rb, enc.length < fuel → Reading rb → rb.rest = enc →
        ∃ rb', unpackAll .unlimited fuel i ⟨rb, st⟩ = .ok ⟨rb', vs.reverse ++ st⟩ ∧
          Moved rb [] rb' := by
  induction args with
  | nil =>
    refine ⟨[], [], emits_pure, .nil, fun fuel i st rb hfuel hr hrest =>
      ⟨rb, ?_, hr, hrest, rfl⟩⟩
    have hnone : rbRead rb 1 = none := by
      rw [rbRead_none hr, hrest]
      exact Nat.one_pos
    cases fuel with
    | zero => cases hfuel
    | succ fuel =>
      rw [unpackAll, checkEighth_unlimited, hnone]
      rfl
  | cons v args ih =>
    obtain ⟨tag, payload, hemit, w, hsame, hread⟩ := h v List.mem_cons_self
    obtain ⟨enc, vs, hemits, hall, hreads⟩ := ih fun v hv => h v (List.mem_cons_of_mem _ hv)
    refine ⟨tag :: payload ++ enc, w :: vs, ?_, .cons hsame hall, ?_⟩
    · exact hemit.bind hemits
    · intro fuel i st rb hfuel hr hrest
      cases fuel with
      | zero => cases hfuel
      | succ fuel =>
        rw [List.length_append, List.length_cons] at hfuel
        have htag : rb.rest = [tag] ++ (payload ++ enc) := hrest
        obtain ⟨rb₁, heq₁, hm₁⟩ := rbRead_append hr htag List.length_singleton
        obtain ⟨rb₂, heq₂, hm₂⟩ := hread 0 fuel st (by omega) rb₁ enc hm₁.reading hm₁.rest
        obtain ⟨rb₃, heq₃, hm₃⟩ :=
          hreads fuel (i + 1) (w :: st) rb₂ (by omega) hm₂.reading hm₂.rest
        refine ⟨rb₃, ?_, (hm₁.trans hm₂).trans hm₃⟩
        rw [unpackAll, checkEighth_unlimited, pure_bind, heq₁]
        simp only [heq₂]
        rw [List.reverse_cons, List.append_assoc]
        exact heq₃

/-- The receiver's values are the sender's, and all blocks are freed. -/
theorem seriUnpack_seriPack (h : ∀ v ∈ args, RoundTrips heap (packOne heap (MAX_DEPTH + 1) v) v)
    (hsize : ∀ b, packFrom heap args wbInit = .ok b → b.len < 2 ^ 31) :
    ∃ chain vs rb, seriPack heap args = .ok chain ∧ seriUnpack .unlimited chain = .ok (vs, rb) ∧
      List.Forall₂ (Same heap) args vs ∧ rb.freed = chain.length := by
  obtain ⟨enc, vs, hemit, hall, hreads⟩ := unpackAll_reads h
  obtain ⟨hinit, hheader⟩ := wbInit_appending
  obtain ⟨b, hpack, hb, hcontent⟩ := hemit wbInit hinit
  have hdrop : b.content.drop 4 = enc := by
    rw [hcontent, hheader]
    exact List.drop_left' (length_bytes ..)
  have hfour : 4 ≤ b.len := by
    rw [hb.len, hcontent, hheader, List.length_append, length_bytes]
    omega
  obtain ⟨hreading, hrest⟩ := rbInit_reading hb hfour ((hsize b hpack).trans (by decide))
  rw [hdrop] at hrest
  obtain ⟨head, tail, hclose, -⟩ := wbClose_chain hb hfour
  have hfuel : enc.length < (rbInit (wbClose b)).len.toNat + 1 := by
    rw [hreading.len, hrest]
    omega
  obtain ⟨rb, heq, hm⟩ := hreads _ 0 [] _ hfuel hreading hrest
  refine ⟨wbClose b, vs, rbClose rb, ?_, ?_, hall, ?_⟩
  · rw [seriPack, hpack]
    rfl
  · rw [hclose] at heq ⊢
    change (unpackAll _ _ _ _ >>= fun s => pure (s.stack.reverse, rbClose s.rb)) = _
    rw [heq, List.append_nil]
    change Except.ok (vs.reverse.reverse, _) = _
    rw [List.reverse_reverse]
  · exact hm.freed.trans (Nat.zero_add _)

/-- Both sides of every pair of a table are among what is received. -/
theorem same_entry {ref : ℕ} {entries : List (Value × Value)} {e : Obj × Obj}
    (h : Same heap (.table ref) (.table entries)) (he : e ∈ (heap ref).entries) :
    (∃ r ∈ entries, Same heap e.1 r.1) ∧ ∃ r ∈ entries, Same heap e.2 r.2 := by
  cases h with
  | table hperm hkeys hvalues =>
    have hpair := hperm.mem_iff.mpr he
    constructor
    · obtain ⟨_, hr, hsame⟩ := forall₂_right hkeys.flip (List.mem_map_of_mem hpair)
      obtain ⟨r, hmem, rfl⟩ := List.mem_map.mp hr
      exact ⟨r, hmem, hsame⟩
    · obtain ⟨_, hr, hsame⟩ := forall₂_right hvalues.flip (List.mem_map_of_mem hpair)
      obtain ⟨r, hmem, rfl⟩ := List.mem_map.mp hr
      exact ⟨r, hmem, hsame⟩

/-- A string that is the same on both sides is as short as those received. -/
theorem shortString_of_same {v w : Obj} {r : Value} {d : ℕ} (hreach : ReachAt heap d v w)
    (hsame : Same heap v r) (hr : Short (2 ^ 31) r) : ShortString w := by
  induction hreach generalizing r with
  | here v =>
    cases hsame with
    | nil | table => exact trivial
    | scalar s =>
      cases s with
      | string str =>
        cases hr with
        | scalar hlen => exact_mod_cast hlen str rfl
      | boolean | integer | float | lightuserdata => exact trivial
  | key he _ ih =>
    cases hr with
    | nil | scalar => cases hsame
    | table hkeys _ =>
      obtain ⟨e, hmem, he'⟩ := (same_entry hsame he).1
      exact ih he' (hkeys e hmem)
  | value he _ ih =>
    cases hr with
    | nil | scalar => cases hsame
    | table _ hvalues =>
      obtain ⟨e, hmem, he'⟩ := (same_entry hsame he).2
      exact ih he' (hvalues e hmem)

theorem shortString_of_roundTrip (h : RoundTrip heap args) :
    Throughout heap args fun _ => ShortString := by
  obtain ⟨chain, vs, rb, -, hunpack, hall⟩ := h
  intro v hv d w hreach
  obtain ⟨r, hr, hsame⟩ := forall₂_right hall.flip hv
  exact shortString_of_same hreach hsame (seriUnpack_short hunpack (rbInit_len chain) r hr)

/-- The values come back if no string and no border is cut, and only if no string is. -/
theorem round_trip (heap : Heap) (args : List Obj)
    (hdepth : Throughout heap args fun d _ => d ≤ MAX_DEPTH)
    (hplain : Throughout heap args fun _ => Plain heap)
    (hsize : ∀ b, packFrom heap args wbInit = .ok b → b.len < 2 ^ 31) :
    ((Throughout heap args fun _ => ShortString) → (Throughout heap args fun _ => FitBorder heap) →
      RoundTrip heap args) ∧
    (RoundTrip heap args → Throughout heap args fun _ => ShortString) := by
  refine ⟨fun hshort hfit => ?_, shortString_of_roundTrip⟩
  have hitems : ∀ v ∈ args, RoundTrips heap (packOne heap (MAX_DEPTH + 1) v) v := by
    intro v hv
    refine packOne_roundTrips fun d w hw => ?_
    exact ⟨Nat.lt_succ_of_le (hdepth v hv d w hw), hplain v hv d w hw, hshort v hv d w hw,
      hfit v hv d w hw⟩
  obtain ⟨chain, vs, rb, hpack, hunpack, hall, -⟩ := seriUnpack_seriPack hitems hsize
  exact ⟨chain, vs, rb, hpack, hunpack, hall⟩

def num (n : ℕ) : Obj := .scalar (.integer (.ofNat 64 n))

def innerTable : LuaTable :=
  ⟨2, [(num 1, .scalar (.string [104, 105])), (num 2, .scalar (.float 0))],
    by decide, by decide, by decide, by decide⟩

def outerTable : LuaTable :=
  ⟨1, [(.scalar (.boolean true), num 70000), (num 1, .table 1)],
    by decide, by decide, by decide, by decide⟩

def nestedHeap : Heap
  | 0 => outerTable
  | _ => innerTable

theorem reachAt_scalar {s : Scalar} {d : ℕ} {w : Obj} (h : ReachAt heap d (.scalar s) w) :
    d = 0 ∧ w = .scalar s := by
  cases h
  exact ⟨rfl, rfl⟩

/-- What is reached from a table, by the entry it is reached through. -/
theorem throughout_table {ref : ℕ} {p : ℕ → Obj → Prop} (hhere : p 0 (.table ref))
    (hitems : ∀ e ∈ (heap ref).entries, Throughout heap [e.1, e.2] fun d => p (d + 1)) :
    Throughout heap [.table ref] p := by
  intro v hv d w hreach
  obtain rfl := List.mem_singleton.mp hv
  cases hreach with
  | here => exact hhere
  | key he hw => exact hitems _ he _ List.mem_cons_self _ _ hw
  | value he hw => exact hitems _ he _ (List.mem_cons_of_mem _ List.mem_cons_self) _ _ hw

theorem throughout_scalar {s : Scalar} {p : ℕ → Obj → Prop} (hhere : p 0 (.scalar s)) :
    Throughout heap [.scalar s] p := by
  intro v hv d w hreach
  obtain rfl := List.mem_singleton.mp hv
  obtain ⟨rfl, rfl⟩ := reachAt_scalar hreach
  exact hhere

theorem throughout_cons {v : Obj} {p : ℕ → Obj → Prop} (hv : Throughout heap [v] p)
    (h : Throughout heap args p) : Throughout heap (v :: args) p := by
  intro v' hv' d w hreach
  rcases List.mem_cons.mp hv' with rfl | hv'
  · exact hv _ List.mem_cons_self d w hreach
  · exact h v' hv' d w hreach

theorem nestedHeap_throughout : Throughout nestedHeap [.table 0] fun d w =>
    d ≤ MAX_DEPTH ∧ Plain nestedHeap w ∧ ShortString w ∧ FitBorder nestedHeap w := by
  have hinner : Throughout nestedHeap [.table 1] fun d w =>
      d + 1 ≤ MAX_DEPTH ∧ Plain nestedHeap w ∧ ShortString w ∧ FitBorder nestedHeap w := by
    refine throughout_table ⟨by decide, fun e he => ?_, trivial, Or.inl (by decide)⟩ fun e he => ?_
    all_goals
      rcases List.mem_pair.mp he with rfl | rfl
    · exact ⟨_, rfl⟩
    · exact ⟨_, rfl⟩
    · have hshort : [104, 105].length < 2 ^ 31 := by decide
      refine throughout_cons (throughout_scalar ?_) (throughout_scalar ?_)
      · exact ⟨by decide, trivial, trivial, trivial⟩
      · exact ⟨by decide, trivial, hshort, trivial⟩
    · refine throughout_cons (throughout_scalar ?_) (throughout_scalar ?_)
      all_goals exact ⟨by decide, trivial, trivial, trivial⟩
  refine throughout_table ⟨by decide, fun e he => ?_, trivial, Or.inl (by decide)⟩ fun e he => ?_
  all_goals
    rcases List.mem_pair.mp he with rfl | rfl
  · exact ⟨_, rfl⟩
  · exact ⟨_, rfl⟩
  · refine throughout_cons (throughout_scalar ?_) (throughout_scalar ?_)
    all_goals exact ⟨by decide, trivial, trivial, trivial⟩
  · refine throughout_cons (throughout_scalar ?_) hinner
    exact ⟨by decide, trivial, trivial, trivial⟩

theorem round_trip_nestedHeap : RoundTrip nestedHeap [.table 0] := by
  have hall := nestedHeap_throughout
  have hlen : ∀ b, packFrom nestedHeap [.table 0] wbInit = .ok b → b.len < 2 ^ 31 := by
    intro b hb
    have hcheck : (packFrom nestedHeap [.table 0] wbInit).toOption.all
      fun b => decide (b.len < 2 ^ 31) := by decide +kernel
    rw [hb] at hcheck
    exact of_decide_eq_true hcheck
  exact (round_trip nestedHeap [.table 0] (fun v hv d w h => (hall v hv d w h).1)
    (fun v hv d w h => (hall v hv d w h).2.1) hlen).1
    (fun v hv d w h => (hall v hv d w h).2.2.1) fun v hv d w h => (hall v hv d w h).2.2.2

/-- The keys at which a binary search for a border from `1` on comes to `2 ^ 32 - 31`. -/
def wideKeys : List ℕ :=
  (List.range 32).map (2 ^ ·) ++ (List.range' 5 26).map (fun k => 2 ^ 32 - 2 ^ k) ++ [2 ^ 32 - 31]

def wideTable : LuaTable :=
  ⟨2 ^ 32 - 31, wideKeys.map fun n => (num n, .scalar (.boolean true)),
    by decide +kernel, by decide +kernel, by decide +kernel, by decide +kernel⟩

def wideHeap : Heap := fun _ => wideTable

theorem wideHeap_throughout : Throughout wideHeap [.table 0] fun d w =>
    d ≤ MAX_DEPTH ∧ Plain wideHeap w := by
  have hentry : ∀ e ∈ wideTable.entries, ∃ n, e = (num n, .scalar (.boolean true)) := by
    intro e he
    obtain ⟨n, -, rfl⟩ := List.mem_map.mp he
    exact ⟨n, rfl⟩
  refine throughout_table ⟨by decide, fun e he => ?_⟩ fun e he => ?_
  · obtain ⟨n, rfl⟩ := hentry e he
    exact ⟨_, rfl⟩
  · obtain ⟨n, rfl⟩ := hentry e he
    refine throughout_cons (throughout_scalar ?_) (throughout_scalar ?_)
    all_goals exact ⟨by decide, trivial⟩

/-- The `int` of the border is `-31`, which the header shows as a size of `1`. -/
theorem wide_table_is_refused :
    ∃ heap args, (Throughout heap args fun d _ => d ≤ MAX_DEPTH) ∧
      (Throughout heap args fun _ => Plain heap) ∧
      (∀ b, packFrom heap args wbInit = .ok b → b.len < 2 ^ 31) ∧
      ¬ RoundTrip heap args := by
  refine ⟨wideHeap, [.table 0], fun v hv d w h => (wideHeap_throughout v hv d w h).1,
    fun v hv d w h => (wideHeap_throughout v hv d w h).2, fun b hb => ?_, ?_⟩
  · have hcheck : (packFrom wideHeap [.table 0] wbInit).toOption.all
        fun b => decide (b.len < 2 ^ 31) := by decide +kernel
    rw [hb] at hcheck
    exact of_decide_eq_true hcheck
  · rintro ⟨chain, vs, rb, hpack, hunpack, -⟩
    have hcheck : (seriPack wideHeap [.table 0]).toOption.all
        fun chain => (seriUnpack .unlimited chain).toOption.isNone := by decide +kernel
    rw [hpack] at hcheck
    change (seriUnpack .unlimited chain).toOption.isNone = true at hcheck
    rw [hunpack] at hcheck
    cases hcheck

end LtaskSerializeRoundTrip
