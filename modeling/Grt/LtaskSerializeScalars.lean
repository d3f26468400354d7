import Grt.LtaskSerialize

/-! What the writer appends for a value that is not a table, the reader takes off the stream and
turns back into the value. -/
namespace LtaskSerializeScalars

open LittleEndian LtaskBlocks LuaValue LtaskSerialize

/-- The writer appends `enc`. -/
def Appends (f : WriteBlock → WriteBlock) (enc : List Byte) : Prop :=
  ∀ b, Appending b → Appending (f b) ∧ (f b).content = b.content ++ enc

/-- The writer raises no error and appends `enc`. -/
def Emits (f : WriteBlock → Pack WriteBlock) (enc : List Byte) : Prop :=
  ∀ b, Appending b → ∃ b', f b = .ok b' ∧ Appending b' ∧ b'.content = b.content ++ enc

variable {f g : WriteBlock → WriteBlock} {enc enc' : List Byte}

theorem appends_push (buf : List Byte) : Appends (wbPush · buf) buf :=
  fun _ h => wbPush_appending h buf

theorem Appends.comp (hf : Appends f enc) (hg : Appends g enc') :
    Appends (fun b => g (f b)) (enc ++ enc') := by
  intro b h
  obtain ⟨hb, hc⟩ := hf b h
  obtain ⟨hb', hc'⟩ := hg _ hb
  exact ⟨hb', by rw [hc', hc, List.append_assoc]⟩

/-- A type byte and what it announces. -/
theorem appends_tag (tag : Byte) (buf : List Byte) :
    Appends (fun b => wbPush (wbPush b [tag]) buf) (tag :: buf) :=
  (appends_push [tag]).comp (appends_push buf)

theorem Appends.emits (h : Appends f enc) : Emits (fun b => pure (f b)) enc :=
  fun b hb => ⟨f b, rfl, h b hb⟩

theorem Emits.bind {f g : WriteBlock → Pack WriteBlock} (hf : Emits f enc) (hg : Emits g enc') :
    Emits (fun b => f b >>= g) (enc ++ enc') := by
  intro b h
  obtain ⟨b', heq, hb, hc⟩ := hf b h
  obtain ⟨b'', heq', hb', hc'⟩ := hg b' hb
  refine ⟨b'', ?_, hb', by rw [hc', hc, List.append_assoc]⟩
  change f b >>= g = _
  rw [heq]
  exact heq'

theorem emits_pure : Emits pure [] := fun b h => ⟨b, rfl, h, (List.append_nil _).symm⟩

/-- The reader has come to `rest`. -/
structure Moved (rb : ReadBlock) (rest : List Byte) (rb' : ReadBlock) : Prop where
  reading : Reading rb'
  rest : rb'.rest = rest
  freed : rb'.freed + rb'.current.length = rb.freed + rb.current.length

theorem Moved.trans {rb rb' rb'' : ReadBlock} {rest rest' : List Byte} (h : Moved rb rest rb')
    (h' : Moved rb' rest' rb'') : Moved rb rest' rb'' :=
  ⟨h'.reading, h'.rest, h'.freed.trans h.freed⟩

/-- The receiver takes `enc` off the stream and turns the stack `st` into `st'`. -/
def Reads (g : Unpacker → Unpack Unpacker) (enc : List Byte) (st st' : List Value) : Prop :=
  ∀ rb rest, Reading rb → rb.rest = enc ++ rest →
    ∃ rb', g ⟨rb, st⟩ = .ok ⟨rb', st'⟩ ∧ Moved rb rest rb'

theorem reads_pure (st : List Value) : Reads pure [] st st :=
  fun rb _ h hr => ⟨rb, rfl, h, hr, rfl⟩

theorem Reads.bind {g h : Unpacker → Unpack Unpacker} {st st' st'' : List Value}
    (hg : Reads g enc st st') (hh : Reads h enc' st' st'') :
    Reads (fun s => g s >>= h) (enc ++ enc') st st'' := by
  intro rb rest hr hrest
  rw [List.append_assoc] at hrest
  obtain ⟨rb', heq, hm⟩ := hg rb _ hr hrest
  obtain ⟨rb'', heq', hm'⟩ := hh rb' _ hm.reading hm.rest
  refine ⟨rb'', ?_, hm.trans hm'⟩
  change g ⟨rb, st⟩ >>= h = _
  rw [heq]
  exact heq'

/-- What follows a read and does not read. -/
theorem Reads.then {g h : Unpacker → Unpack Unpacker} {st st' st'' : List Value}
    (hg : Reads g enc st st') (hh : ∀ rb, h ⟨rb, st'⟩ = .ok ⟨rb, st''⟩) :
    Reads (fun s => g s >>= h) enc st st'' := by
  intro rb rest hr hrest
  obtain ⟨rb', heq, hm⟩ := hg rb rest hr hrest
  refine ⟨rb', ?_, hm⟩
  change g ⟨rb, st⟩ >>= h = _
  rw [heq]
  exact hh rb'

variable {rb : ReadBlock} {rest buf : List Byte}

theorem rbRead_append (h : Reading rb) (hrest : rb.rest = buf ++ rest) {n : ℕ}
    (hn : buf.length = n) : ∃ rb', rbRead rb n = some (buf, rb') ∧ Moved rb rest rb' := by
  subst hn
  have hsz : buf.length ≤ rb.rest.length := by
    rw [hrest, List.length_append]
    omega
  obtain ⟨rb', heq, hread, hdrop, hfreed⟩ := rbRead_reading h hsz
  rw [hrest, List.take_left] at heq
  rw [hrest, List.drop_left] at hdrop
  exact ⟨rb', heq, hread, hdrop, hfreed⟩

theorem readChecked_append (h : Reading rb) (hrest : rb.rest = buf ++ rest) {n : ℕ}
    (hn : buf.length = n) (line : ℕ) :
    ∃ rb', readChecked rb n line = .ok (buf, rb') ∧ Moved rb rest rb' := by
  obtain ⟨rb', heq, hm⟩ := rbRead_append h hrest hn
  exact ⟨rb', by simp only [readChecked, heq]; rfl, hm⟩

theorem getBuffer_reads (st : List Value) :
    Reads (getBuffer .unlimited · (buf.length : ℕ)) buf st (.scalar (.string buf) :: st) := by
  intro rb rest h hrest
  obtain ⟨rb', heq, hm⟩ := rbRead_append h hrest rfl
  refine ⟨rb', ?_, hm⟩
  have hlen : ¬ ((buf.length : ℕ) : ℤ) < 0 := by omega
  simp only [getBuffer, if_neg hlen, Int.toNat_natCast, heq]
  rfl

/-- A type byte gives its type and its cookie back. -/
theorem combineType_value {t v : ℕ} (ht : t < 8) (hv : v < 32) :
    value [combineType t v] &&& 7 = t ∧ value [combineType t v] >>> 3 = v := by
  have hall : ∀ t : Fin 8, ∀ v : Fin 32,
      value [combineType t v] &&& 7 = t ∧ value [combineType t v] >>> 3 = v := by decide +kernel
  exact hall ⟨t, ht⟩ ⟨v, hv⟩

/-- The bytes after a type byte are read as `v`, at any place and whatever is on the stack. -/
def Decodes (heap : Heap) (v : Obj) (tag : Byte) (payload : List Byte) : Prop :=
  ∃ w, Same heap v w ∧ ∀ depth fuel st, payload.length ≤ fuel →
    Reads (fun s => pushValue .unlimited depth (unpackOne .unlimited fuel (depth + 1)) fuel s
      (value [tag] &&& 7) (value [tag] >>> 3)) payload st (w :: st)

/-- The writer's bytes for `v` are read as `v`. -/
def RoundTrips (heap : Heap) (f : WriteBlock → Pack WriteBlock) (v : Obj) : Prop :=
  ∃ tag payload, Emits f (tag :: payload) ∧ Decodes heap v tag payload

variable {heap : Heap}

theorem decodes_of {v : Obj} {w : Value} {t cookie : ℕ} {payload : List Byte} (ht : t < 8)
    (hcookie : cookie < 32) (hsame : Same heap v w)
    (h : ∀ depth fuel st, payload.length ≤ fuel →
      Reads (fun s => pushValue .unlimited depth (unpackOne .unlimited fuel (depth + 1)) fuel s t
        cookie) payload st (w :: st)) :
    Decodes heap v (combineType t cookie) payload := by
  refine ⟨w, hsame, fun depth fuel st hfuel => ?_⟩
  obtain ⟨htype, hval⟩ := combineType_value ht hcookie
  rw [htype, hval]
  exact h depth fuel st hfuel

theorem reads_push (w : Value) (st : List Value) :
    Reads (fun s => pure ⟨s.rb, w :: s.stack⟩) [] st (w :: st) :=
  fun rb _ h hr => ⟨rb, rfl, h, hr, rfl⟩

theorem nil_roundTrips : RoundTrips heap (fun b => pure (wbNil b)) .nil := by
  refine ⟨combineType TYPE_NIL 0, [], (appends_push _).emits, ?_⟩
  exact decodes_of (by decide) (by decide) .nil fun _ _ st _ => reads_push .nil st

theorem boolean_roundTrips (x : Bool) :
    RoundTrips heap (fun b => pure (wbBoolean b x)) (.scalar (.boolean x)) := by
  have hcookie : (if x then 1 else 0) < 32 := by cases x <;> decide
  refine ⟨combineType TYPE_BOOLEAN (if x then 1 else 0 : ℕ), [], ?_, ?_⟩
  · cases x <;> exact (appends_push _).emits
  · refine decodes_of (by decide) hcookie (.scalar _) fun _ _ st _ => ?_
    cases x
    · exact reads_push (.scalar (.boolean false)) st
    · exact reads_push (.scalar (.boolean true)) st

theorem readChecked_qword (v : BitVec 64) (h : Reading rb)
    (hrest : rb.rest = bytes 8 v.toNat ++ rest) (line : ℕ) :
    ∃ rb', readChecked rb 8 line = .ok (bytes 8 v.toNat, rb') ∧ Moved rb rest rb' ∧
      BitVec.ofNat 64 (value (bytes 8 v.toNat)) = v := by
  obtain ⟨rb', heq, hm⟩ := readChecked_append h hrest (length_bytes ..) line
  exact ⟨rb', heq, hm, ofNat_value_bytes 8 v rfl⟩

theorem real_roundTrips (bits : BitVec 64) :
    RoundTrips heap (fun b => pure (wbReal b bits)) (.scalar (.float bits)) := by
  refine ⟨combineType TYPE_NUMBER TYPE_NUMBER_REAL, _, (appends_tag _ _).emits, ?_⟩
  refine decodes_of (by decide) (by decide) (.scalar _) fun _ _ st _ rb rest h hrest => ?_
  obtain ⟨rb', heq, hm, hv⟩ := readChecked_qword bits h hrest 490
  refine ⟨rb', ?_, hm⟩
  change (getReal rb >>= fun r => (pure ⟨r.2, .scalar (.float r.1) :: st⟩ : Unpack Unpacker)) = _
  simp only [getReal, heq]
  change Except.ok _ = _
  rw [hv]

theorem pointer_roundTrips (p : BitVec 64) :
    RoundTrips heap (fun b => pure (wbPointer b p)) (.scalar (.lightuserdata p)) := by
  refine ⟨combineType TYPE_USERDATA 0, _, (appends_tag _ _).emits, ?_⟩
  refine decodes_of (by decide) (by decide) (.scalar _) fun _ _ st _ rb rest h hrest => ?_
  obtain ⟨rb', heq, hm, hv⟩ := readChecked_qword p h hrest 500
  refine ⟨rb', ?_, hm⟩
  change (getPointer rb >>= fun r =>
    (pure ⟨r.2, .scalar (.lightuserdata r.1) :: st⟩ : Unpack Unpacker)) = _
  simp only [getPointer, heq]
  change Except.ok _ = _
  rw [hv]

/-- The cookie and the bytes that an integer is written with, and read from. -/
structure IntegerBytes (v : BitVec 64) (cookie : ℕ) (payload : List Byte) : Prop where
  small : cookie < TYPE_NUMBER_REAL
  appends : Appends (wbInteger · v) (combineType TYPE_NUMBER cookie :: payload)
  reads : ∀ {rb rest}, Reading rb → rb.rest = payload ++ rest →
    ∃ rb', getInteger rb cookie = .ok (v, rb') ∧ Moved rb rest rb'

theorem toInt_of_nonneg {v : BitVec 64} (h : ¬ v.toInt < 0) : v.toInt = v.toNat := by
  rw [BitVec.toInt_eq_toNat_cond] at h ⊢
  split at h
  · rw [if_pos (by assumption)]
  · have := v.isLt
    omega

/-- The integer a cookie and its bytes are read as, by the width of the number. -/
theorem getInteger_reads {v : BitVec 64} {cookie k n line : ℕ} (conv : ℕ → BitVec 64)
    (hn : n < 256 ^ k) (hconv : conv n = v)
    (hget : ∀ rb, getInteger rb cookie = readChecked rb k line >>= fun r =>
      pure (conv (value r.1), r.2)) :
    ∀ {rb rest}, Reading rb → rb.rest = bytes k n ++ rest →
      ∃ rb', getInteger rb cookie = .ok (v, rb') ∧ Moved rb rest rb' := by
  intro rb rest h hrest
  obtain ⟨rb', heq, hm⟩ := readChecked_append h hrest (length_bytes ..) line
  refine ⟨rb', ?_, hm⟩
  rw [hget, heq]
  change Except.ok _ = _
  rw [value_bytes_of_lt _ _ hn, hconv]

/-- An integer that fits in 32 bits and is not negative. -/
theorem toNat_of_signExtend {v : BitVec 64} (hv : (v.setWidth 32).signExtend 64 = v)
    (hneg : ¬ v.toInt < 0) : v.toNat < 2 ^ 31 := by
  have hint : v.toInt = (v.setWidth 32).toInt := by
    rw [← hv, BitVec.toInt_signExtend_of_le (by decide), hv]
  have hlt : (v.setWidth 32).toInt < 2 ^ (32 - 1) := BitVec.toInt_lt
  rw [← hint, toInt_of_nonneg hneg] at hlt
  omega

theorem wbInteger_bytes (v : BitVec 64) : ∃ cookie payload, IntegerBytes v cookie payload := by
  by_cases hzero : v = 0
  · refine ⟨TYPE_NUMBER_ZERO, [], by decide, ?_, fun h hrest => ?_⟩
    · simp only [wbInteger, if_pos hzero]
      exact appends_push _
    · exact ⟨_, by rw [hzero]; rfl, h, hrest, rfl⟩
  by_cases hqword : v ≠ (v.setWidth 32).signExtend 64
  · refine ⟨TYPE_NUMBER_QWORD, bytes 8 v.toNat, by decide, ?_, ?_⟩
    · simp only [wbInteger, if_neg hzero, if_pos hqword]
      exact appends_tag _ _
    · exact getInteger_reads (BitVec.ofNat 64) v.isLt (by simp) fun _ => rfl
  have hv : (v.setWidth 32).signExtend 64 = v := (not_not.mp hqword).symm
  by_cases hneg : v.toInt < 0
  · refine ⟨TYPE_NUMBER_DWORD, bytes 4 (v.setWidth 32).toNat, by decide, ?_, ?_⟩
    · simp only [wbInteger, if_neg hzero, if_neg hqword, if_pos hneg]
      exact appends_tag _ _
    · apply getInteger_reads (fun n => (BitVec.ofNat 32 n).signExtend 64) (v.setWidth 32).isLt
      · rw [BitVec.ofNat_toNat, BitVec.setWidth_eq, hv]
      · exact fun _ => rfl
  have hnat := toInt_of_nonneg hneg
  by_cases hbyte : v.toInt < 0x100
  · refine ⟨TYPE_NUMBER_BYTE, bytes 1 v.toNat, by decide, ?_, ?_⟩
    · simp only [wbInteger, if_neg hzero, if_neg hqword, if_neg hneg, if_pos hbyte]
      exact appends_tag _ _
    · exact getInteger_reads (BitVec.ofNat 64) (by omega) (by simp) fun _ => rfl
  by_cases hword : v.toInt < 0x10000
  · refine ⟨TYPE_NUMBER_WORD, bytes 2 v.toNat, by decide, ?_, ?_⟩
    · simp only [wbInteger, if_neg hzero, if_neg hqword, if_neg hneg, if_neg hbyte, if_pos hword]
      exact appends_tag _ _
    · exact getInteger_reads (BitVec.ofNat 64) (by omega) (by simp) fun _ => rfl
  · refine ⟨TYPE_NUMBER_DWORD, bytes 4 v.toNat, by decide, ?_, ?_⟩
    · simp only [wbInteger, if_neg hzero, if_neg hqword, if_neg hneg, if_neg hbyte, if_neg hword]
      exact appends_tag _ _
    · have hlt := toNat_of_signExtend hv hneg
      apply getInteger_reads (fun n => (BitVec.ofNat 32 n).signExtend 64) (by omega)
      · rw [BitVec.ofNat_toNat, hv]
      · exact fun _ => rfl

theorem integer_roundTrips (v : BitVec 64) :
    RoundTrips heap (fun b => pure (wbInteger b v)) (.scalar (.integer v)) := by
  obtain ⟨cookie, payload, hv⟩ := wbInteger_bytes v
  have hsmall : cookie < 8 := hv.small
  refine ⟨combineType TYPE_NUMBER cookie, payload, hv.appends.emits, ?_⟩
  refine decodes_of (by decide) (by omega) (.scalar _) fun _ fuel st _ rb rest h hrest => ?_
  obtain ⟨rb', heq, hm⟩ := hv.reads h hrest
  refine ⟨rb', ?_, hm⟩
  have hcookie : cookie ≠ TYPE_NUMBER_REAL := hv.small.ne
  simp only [pushValue, TYPE_NIL, TYPE_BOOLEAN, TYPE_NUMBER, if_neg hcookie, heq]
  rfl

theorem shortString_roundTrips {s : List Byte} (hlen : s.length < MAX_COOKIE) :
    RoundTrips heap (fun b => pure (wbString b s s.length)) (.scalar (.string s)) := by
  have hcond : ((s.length : ℕ) : ℤ) < MAX_COOKIE := by exact_mod_cast hlen
  refine ⟨combineType TYPE_SHORT_STRING s.length, s, ?_, ?_⟩
  · apply Appends.emits
    by_cases hs : s = []
    · subst hs
      exact appends_push _
    · have hpos : ((s.length : ℕ) : ℤ) > 0 := by
        have := List.length_pos_iff.mpr hs
        omega
      simp only [wbString, if_pos hcond, if_pos hpos, Int.toNat_natCast, List.take_length]
      exact appends_tag _ _
  · exact decodes_of (by decide) hlen (.scalar _) fun _ _ st _ => getBuffer_reads st

/-- A string whose length is read first. -/
theorem longString_reads {s : List Byte} {k : ℕ} (line : ℕ) (conv : ℕ → ℤ)
    (hk : s.length < 256 ^ k) (hconv : conv s.length = s.length) (st : List Value) :
    Reads (fun u => readChecked u.rb k line >>= fun r =>
      getBuffer .unlimited ⟨r.2, u.stack⟩ (conv (value r.1))) (bytes k s.length ++ s) st
      (.scalar (.string s) :: st) := by
  intro rb rest h hrest
  rw [List.append_assoc] at hrest
  obtain ⟨rb', heq, hm⟩ := readChecked_append h hrest (length_bytes ..) line
  obtain ⟨rb'', heq', hm'⟩ := getBuffer_reads st rb' rest hm.reading hm.rest
  refine ⟨rb'', ?_, hm.trans hm'⟩
  change (readChecked rb k line >>= fun r =>
    getBuffer .unlimited ⟨r.2, st⟩ (conv (value r.1))) = _
  rw [heq]
  change getBuffer .unlimited ⟨rb', st⟩ (conv (value (bytes k s.length))) = _
  rw [value_bytes_of_lt _ _ hk, hconv]
  exact heq'

theorem longString_roundTrips {s : List Byte} (hlen : ¬ s.length < MAX_COOKIE)
    (hint : s.length < 2 ^ 31) :
    RoundTrips heap (fun b => pure (wbString b s s.length)) (.scalar (.string s)) := by
  have hcond : ¬ ((s.length : ℕ) : ℤ) < MAX_COOKIE := by exact_mod_cast hlen
  by_cases hword : s.length < 0x10000
  · have hword' : ((s.length : ℕ) : ℤ) < 0x10000 := by exact_mod_cast hword
    refine ⟨combineType TYPE_LONG_STRING 2, bytes 2 s.length ++ s, ?_, ?_⟩
    · apply Appends.emits
      simp only [wbString, if_neg hcond, if_pos hword', Int.toNat_natCast, List.take_length]
      exact (appends_tag _ _).comp (appends_push s)
    · refine decodes_of (by decide) (by decide) (.scalar _) fun _ _ st _ => ?_
      exact longString_reads 574 Nat.cast hword rfl st
  · have hword' : ¬ ((s.length : ℕ) : ℤ) < 0x10000 := by exact_mod_cast hword
    refine ⟨combineType TYPE_LONG_STRING 4, bytes 4 s.length ++ s, ?_, ?_⟩
    · apply Appends.emits
      simp only [wbString, if_neg hcond, if_neg hword', Int.toNat_natCast, List.take_length]
      exact (appends_tag _ _).comp (appends_push s)
    · refine decodes_of (by decide) (by decide) (.scalar _) fun _ _ st _ => ?_
      exact longString_reads 583 (fun n => toInt32 n) (by omega)
        (toInt32_eq (by omega) (by omega)) st

theorem string_roundTrips {s : List Byte} (hint : s.length < 2 ^ 31) :
    RoundTrips heap (fun b => pure (wbString b s (toInt32 s.length))) (.scalar (.string s)) := by
  rw [toInt32_eq (by omega) (by omega)]
  by_cases hlen : s.length < MAX_COOKIE
  · exact shortString_roundTrips hlen
  · exact longString_roundTrips hlen hint

end LtaskSerializeScalars
