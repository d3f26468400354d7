import Grt.LtaskSerialize

/-! A received string is a part of the stream. Whatever the stream says, no string is longer than
what there is to read. -/
namespace LtaskSerializeLengths

open LittleEndian LtaskBlocks LuaValue LtaskSerialize

/-- Every string in the value is shorter than `n`. -/
inductive Short (n : ℤ) : Value → Prop where
  | nil : Short n .nil
  | scalar {s} : (∀ str, s = .string str → str.length < n) → Short n (.scalar s)
  | table {entries} : (∀ e ∈ entries, Short n e.1) → (∀ e ∈ entries, Short n e.2) →
      Short n (.table entries)

variable {n : ℤ} {w k : Value} {entries : List (Value × Value)}

theorem short_scalar {s : Scalar} (hs : ∀ str, s ≠ .string str) : Short n (.scalar s) :=
  .scalar fun str h => absurd h (hs str)

theorem short_store (hk : Short n k) (hw : Short n w) (h : Short n (.table entries)) :
    Short n (.table (store entries k w)) := by
  cases h with
  | table hkeys hvalues =>
    have hstore : ∀ e ∈ store entries k w, e ∈ entries ∨ e = (k, w) := by
      intro e he
      unfold store at he
      split at he
      · exact Or.inl (List.mem_of_mem_filter he)
      · rcases List.mem_append.mp he with he | he
        · exact Or.inl (List.mem_of_mem_filter he)
        · exact Or.inr (List.mem_singleton.mp he)
    constructor
    · intro e he
      rcases hstore e he with he | rfl
      · exact hkeys e he
      · exact hk
    · intro e he
      rcases hstore e he with he | rfl
      · exact hvalues e he
      · exact hw

theorem short_storedKey {k' : Value} (hk : Short n k) (h : storedKey k = some k') : Short n k' := by
  unfold storedKey at h
  split at h
  · cases h
  · split at h
    · cases h
    · split at h
      · obtain rfl := Option.some.inj h
        exact short_scalar nofun
      · obtain rfl := Option.some.inj h
        exact hk
  · obtain rfl := Option.some.inj h
    exact hk

theorem readLoop_length {chain : List Block} {tmp buf : List Byte} {sz freed : ℕ} {len : ℤ}
    {rb : ReadBlock} (h : readLoop chain tmp sz len freed = (buf, rb)) :
    buf.length ≤ tmp.length + sz ∧ rb.len = len - sz := by
  induction chain generalizing tmp sz len freed with
  | nil =>
    obtain ⟨rfl, rfl⟩ := Prod.mk.inj h
    exact ⟨Nat.le_add_right .., rfl⟩
  | cons block chain ih =>
    rw [readLoop] at h
    split at h
    · obtain ⟨rfl, rfl⟩ := Prod.mk.inj h
      refine ⟨?_, rfl⟩
      rw [List.length_append, List.length_take]
      omega
    · obtain ⟨hbuf, hlen⟩ := ih h
      rw [List.length_append, List.length_take] at hbuf
      constructor <;> omega

theorem readFrom_length {rb rb' : ReadBlock} {sz : ℕ} {buf : List Byte}
    (h : readFrom rb sz = (buf, rb')) : buf.length ≤ sz ∧ rb'.len = rb.len - sz := by
  simp only [readFrom] at h
  split at h
  · obtain ⟨rfl, rfl⟩ := Prod.mk.inj h
    exact ⟨List.length_take_le .., rfl⟩
  · obtain ⟨hbuf, hlen⟩ := readLoop_length h
    rw [List.length_take] at hbuf
    constructor <;> omega

theorem rbRead_length {rb rb' : ReadBlock} {sz : ℕ} {buf : List Byte}
    (h : rbRead rb sz = some (buf, rb')) : buf.length ≤ rb.len ∧ rb'.len ≤ rb.len := by
  rw [rbRead] at h
  split at h
  · cases h
  · have hnext : (if rb.ptr = BLOCK_SIZE then rb.next else rb).len = rb.len := by split <;> rfl
    obtain ⟨hbuf, hlen⟩ := readFrom_length (Option.some.inj h)
    constructor <;> omega

/-- What is left to read does not grow. -/
def Shrinks {α : Type} (g : ReadBlock → Unpack (α × ReadBlock)) : Prop :=
  ∀ rb a rb', g rb = .ok (a, rb') → rb'.len ≤ rb.len

theorem shrinks_readChecked (sz line : ℕ) : Shrinks (readChecked · sz line) := by
  intro rb a rb' h
  simp only [readChecked] at h
  split at h
  · rename_i hr
    obtain rfl := Except.ok.inj h
    exact (rbRead_length hr).2
  · cases h

theorem shrinks_pure {α : Type} (a : α) : Shrinks fun rb => pure (a, rb) := by
  intro rb a rb' h
  obtain ⟨rfl, rfl⟩ := Prod.mk.inj (Except.ok.inj h)
  exact le_rfl

theorem shrinks_throw {α : Type} (f : ReadBlock → Fault) :
    Shrinks (α := α) fun rb => throw (f rb) := nofun

theorem bind_ok {α β : Type} {x : Unpack α} {f : α → Unpack β} {b : β} (h : x >>= f = .ok b) :
    ∃ a, x = .ok a ∧ f a = .ok b := by
  cases x with
  | error e => cases h
  | ok a => exact ⟨a, rfl, h⟩

theorem Shrinks.bind {α β : Type} {g : ReadBlock → Unpack (α × ReadBlock)}
    {f : α → ReadBlock → Unpack (β × ReadBlock)} (hg : Shrinks g) (hf : ∀ a, Shrinks (f a)) :
    Shrinks fun rb => g rb >>= fun r => f r.1 r.2 := by
  intro rb b rb' h
  obtain ⟨⟨a, rb''⟩, ha, hb⟩ := bind_ok h
  exact (hf a rb'' b rb' hb).trans (hg rb a rb'' ha)

theorem shrinks_ite {α : Type} {p : Prop} [Decidable p] {f g : ReadBlock → Unpack (α × ReadBlock)}
    (hf : Shrinks f) (hg : Shrinks g) : Shrinks fun rb => if p then f rb else g rb := by
  by_cases hp : p
  · simpa only [if_pos hp] using hf
  · simpa only [if_neg hp] using hg

theorem shrinks_getInteger (cookie : ℕ) : Shrinks (getInteger · cookie) := by
  have hread : ∀ (sz line : ℕ) (conv : ℕ → BitVec 64),
      Shrinks fun rb => readChecked rb sz line >>= fun r => pure (conv (value r.1), r.2) :=
    fun sz line conv => (shrinks_readChecked sz line).bind fun p => shrinks_pure (conv (value p))
  apply shrinks_ite (shrinks_pure 0)
  apply shrinks_ite (hread _ _ _)
  apply shrinks_ite (hread _ _ _)
  apply shrinks_ite (hread 4 467 fun n => (BitVec.ofNat 32 n).signExtend 64)
  exact shrinks_ite (hread _ _ _) (shrinks_throw _)

theorem shrinks_getReal : Shrinks getReal :=
  (shrinks_readChecked 8 490).bind fun p => shrinks_pure (BitVec.ofNat 64 (value p))

theorem shrinks_getPointer : Shrinks getPointer :=
  (shrinks_readChecked 8 500).bind fun p => shrinks_pure (BitVec.ofNat 64 (value p))

theorem shrinks_tableSize (cookie : ℕ) : Shrinks (tableSize · cookie) := by
  have hinteger : ∀ cookie, Shrinks fun rb =>
      getInteger rb cookie >>= fun r => pure (toInt32 r.1.toInt, r.2) :=
    fun cookie => (shrinks_getInteger cookie).bind fun m => shrinks_pure (toInt32 m.toInt)
  refine shrinks_ite (fun rb a rb' h => ?_) (shrinks_pure _)
  obtain ⟨⟨t, rb''⟩, ht, h⟩ := bind_ok h
  have hle := shrinks_readChecked 1 520 _ _ _ ht
  simp only at h
  split at h
  · cases h
  · exact (hinteger _ _ _ _ h).trans hle

structure Bounded (n : ℤ) (s : Unpacker) : Prop where
  len : s.rb.len < n
  stack : ∀ w ∈ s.stack, Short n w

def Keeps (n : ℤ) (g : Unpacker → Unpack Unpacker) : Prop :=
  ∀ s s', Bounded n s → g s = .ok s' → Bounded n s'

variable {f g : Unpacker → Unpack Unpacker} {room : Room}

theorem Keeps.bind (hf : Keeps n f) (hg : Keeps n g) : Keeps n fun s => f s >>= g := by
  intro s s' hs h
  obtain ⟨s₁, hs₁, h₁⟩ := bind_ok h
  exact hg s₁ s' (hf s s₁ hs hs₁) h₁

theorem keeps_foldlM {α : Type} {f : Unpacker → α → Unpack Unpacker} (l : List α)
    (hf : ∀ a, Keeps n (f · a)) : Keeps n fun s => l.foldlM f s := by
  induction l with
  | nil =>
    intro s s' hs h
    obtain rfl := Except.ok.inj h
    exact hs
  | cons a l ih =>
    simp only [List.foldlM_cons]
    exact (hf a).bind ih

/-- A scalar is read and pushed. -/
theorem keeps_push {α : Type} {r : ReadBlock → Unpack (α × ReadBlock)} (hr : Shrinks r)
    (v : α → Value) (hv : ∀ a, Short n (v a)) :
    Keeps n fun s => r s.rb >>= fun p => pure ⟨p.2, v p.1 :: s.stack⟩ := by
  intro s s' hs h
  obtain ⟨⟨a, rb⟩, ha, hp⟩ := bind_ok h
  obtain rfl := Except.ok.inj hp
  refine ⟨(hr _ _ _ ha).trans_lt hs.len, fun w hw => ?_⟩
  rcases List.mem_cons.mp hw with rfl | hw
  · exact hv a
  · exact hs.stack w hw

theorem keeps_getBuffer (len : ℤ) : Keeps n (getBuffer room · len) := by
  intro s s' hs h
  simp only [getBuffer] at h
  split at h
  · cases h
  · obtain ⟨-, -, h⟩ := bind_ok h
    split at h
    · rename_i p rb hr
      obtain ⟨-, -, h⟩ := bind_ok h
      obtain rfl := Except.ok.inj h
      obtain ⟨hp, hlen⟩ := rbRead_length hr
      refine ⟨hlen.trans_lt hs.len, fun w hw => ?_⟩
      rcases List.mem_cons.mp hw with rfl | hw
      · refine .scalar fun str hstr => ?_
        obtain rfl := Scalar.string.inj hstr
        exact hp.trans_lt hs.len
      · exact hs.stack w hw
    · cases h

theorem keeps_rawseti (i : ℕ) : Keeps n (rawseti room · i) := by
  intro s s' hs h
  simp only [rawseti] at h
  split at h
  · rename_i v entries stack hstack
    obtain ⟨-, -, h⟩ := bind_ok h
    obtain rfl := Except.ok.inj h
    have hall := hs.stack
    rw [hstack] at hall
    refine ⟨hs.len, fun w hw => ?_⟩
    rcases List.mem_cons.mp hw with rfl | hw
    · exact short_store (short_scalar nofun) (hall v (by simp)) (hall (.table entries) (by simp))
    · exact hall w (by simp [hw])
  · cases h

theorem keeps_rawset : Keeps n (rawset room) := by
  intro s s' hs h
  simp only [rawset] at h
  split at h
  · rename_i v k entries stack hstack
    have hall := hs.stack
    rw [hstack] at hall
    split at h
    · rename_i k' hk
      obtain ⟨-, -, h⟩ := bind_ok h
      obtain rfl := Except.ok.inj h
      refine ⟨hs.len, fun w hw => ?_⟩
      rcases List.mem_cons.mp hw with rfl | hw
      · exact short_store (short_storedKey (hall k (by simp)) hk) (hall v (by simp))
          (hall (.table entries) (by simp))
      · exact hall w (by simp [hw])
    · cases h
  · cases h

theorem keeps_unpackPairs (hf : Keeps n f) (fuel : ℕ) : Keeps n (unpackPairs room f fuel) := by
  induction fuel with
  | zero => exact nofun
  | succ fuel ih =>
    refine hf.bind fun s s' hs h => ?_
    split at h
    · rename_i stack hstack
      obtain rfl := Except.ok.inj h
      refine ⟨hs.len, fun w hw => hs.stack w ?_⟩
      rw [hstack]
      exact List.mem_cons_of_mem _ hw
    · exact (hf.bind (keeps_rawset.bind ih)) s s' hs h

theorem keeps_unpackTable (hf : Keeps n f) (depth fuel cookie : ℕ) :
    Keeps n (unpackTable room depth f fuel · cookie) := by
  intro s s' hs h
  obtain ⟨-, -, h⟩ := bind_ok h
  obtain ⟨⟨size, rb⟩, hsize, h⟩ := bind_ok h
  obtain ⟨-, -, h⟩ := bind_ok h
  obtain ⟨-, -, h⟩ := bind_ok h
  have hnew : Bounded n ⟨rb, .table [] :: s.stack⟩ := by
    refine ⟨(shrinks_tableSize cookie _ _ _ hsize).trans_lt hs.len, fun w hw => ?_⟩
    rcases List.mem_cons.mp hw with rfl | hw
    · exact .table nofun nofun
    · exact hs.stack w hw
  have hset : ∀ i, Keeps n (rawseti room · i) := keeps_rawseti
  have hloop := keeps_foldlM (List.range' 1 size.toNat) fun i => hf.bind (hset i)
  exact (hloop.bind (keeps_unpackPairs hf fuel)) _ s' hnew h

theorem keeps_ite {p : Prop} [Decidable p] (hf : Keeps n f) (hg : Keeps n g) :
    Keeps n fun s => if p then f s else g s := by
  by_cases hp : p
  · simpa only [if_pos hp] using hf
  · simpa only [if_neg hp] using hg

/-- A string whose length is read first. -/
theorem keeps_longString (sz line : ℕ) (conv : ℕ → ℤ) :
    Keeps n fun s => readChecked s.rb sz line >>= fun r =>
      getBuffer room ⟨r.2, s.stack⟩ (conv (value r.1)) := by
  intro s s' hs h
  obtain ⟨⟨p, rb⟩, hp, h⟩ := bind_ok h
  have hlen := (shrinks_readChecked sz line _ _ _ hp).trans_lt hs.len
  exact keeps_getBuffer _ ⟨rb, s.stack⟩ s' ⟨hlen, hs.stack⟩ h

theorem keeps_pushValue (hf : Keeps n f) (depth fuel type cookie : ℕ) :
    Keeps n (pushValue room depth f fuel · type cookie) := by
  have hpure : ∀ v, Short n v → Keeps n fun s => pure ⟨s.rb, v :: s.stack⟩ :=
    fun v hv => keeps_push (shrinks_pure ()) (fun _ => v) fun _ => hv
  apply keeps_ite (hpure _ .nil)
  apply keeps_ite (hpure (.scalar (.boolean (decide (cookie ≠ 0)))) (short_scalar nofun))
  apply keeps_ite
  · apply keeps_ite
    · exact keeps_push shrinks_getReal (fun m => .scalar (.float m)) fun _ => short_scalar nofun
    · exact keeps_push (shrinks_getInteger cookie) (fun m => .scalar (.integer m)) fun _ =>
        short_scalar nofun
  apply keeps_ite
  · exact keeps_push shrinks_getPointer (fun p => .scalar (.lightuserdata p)) fun _ =>
      short_scalar nofun
  apply keeps_ite (keeps_getBuffer cookie)
  apply keeps_ite
  · apply keeps_ite (keeps_longString 2 574 Nat.cast)
    refine keeps_ite (fun s s' hs h => ?_) (keeps_longString 4 583 fun m => toInt32 m)
    cases h
  apply keeps_ite (keeps_unpackTable hf depth fuel cookie)
  intro s s' hs h
  obtain rfl := Except.ok.inj h
  exact hs

theorem keeps_unpackOne (fuel : ℕ) : ∀ depth, Keeps n (unpackOne room fuel depth) := by
  induction fuel with
  | zero => exact nofun
  | succ fuel ih =>
    intro depth s s' hs h
    obtain ⟨⟨t, rb⟩, ht, h⟩ := bind_ok h
    have hlen := (shrinks_readChecked 1 601 _ _ _ ht).trans_lt hs.len
    exact keeps_pushValue (ih (depth + 1)) depth fuel _ _ ⟨rb, s.stack⟩ s' ⟨hlen, hs.stack⟩ h

theorem keeps_unpackAll (fuel : ℕ) : ∀ i, Keeps n (unpackAll room fuel i) := by
  induction fuel with
  | zero => exact nofun
  | succ fuel ih =>
    intro i s s' hs h
    obtain ⟨-, -, h⟩ := bind_ok h
    split at h
    · obtain rfl := Except.ok.inj h
      exact hs
    · rename_i t rb hr
      obtain ⟨s₁, hs₁, h₁⟩ := bind_ok h
      have hlen := (rbRead_length hr).2.trans_lt hs.len
      have hbounded := keeps_pushValue (keeps_unpackOne fuel 1) 0 fuel _ _ ⟨rb, s.stack⟩ s₁
        ⟨hlen, hs.stack⟩ hs₁
      exact ih (i + 1) s₁ s' hbounded h₁

/-- Every string that is received, from any chain, is shorter than the stream. -/
theorem seriUnpack_short {chain : List Block} {vs : List Value} {rb : ReadBlock}
    (h : seriUnpack room chain = .ok (vs, rb)) (hn : (rbInit chain).len < n) :
    ∀ w ∈ vs, Short n w := by
  unfold seriUnpack at h
  split at h
  · cases h
  · obtain ⟨s, hs, h⟩ := bind_ok h
    obtain ⟨rfl, -⟩ := Prod.mk.inj (Except.ok.inj h)
    have hbounded := keeps_unpackAll _ 0 ⟨rbInit chain, []⟩ s ⟨hn, nofun⟩ hs
    exact fun w hw => hbounded.stack w (List.mem_reverse.mp hw)

theorem rbInit_len (chain : List Block) : (rbInit chain).len < 2 ^ 31 := BitVec.toInt_lt

end LtaskSerializeLengths
