import Grt.LtaskSerializeScalars
import Grt.LtaskSerializePayload

/-! `seri_unpack` on a payload of any bytes, in any room. The decoder is run with a check that
every item pushes one value and leaves the reader inside the payload; it raises no other error
than that of an invalid stream exactly if no item of the payload is one that it does not handle
or that there is no room for. -/
namespace LtaskSerializeDecoder

open LittleEndian LtaskBlocks LuaValue LtaskSerialize LtaskSerializeScalars
  LtaskSerializePayload

/-- A result, or the error of an invalid stream. -/
def Clean {α : Type} : Unpack α → Prop
  | .ok _ => True
  | .error (.invalidStream _ _) => True
  | .error _ => False

/-- Stops the decoder unless one value was pushed and what is left to read is the end of what
there was. -/
def checkItem (s : Unpacker) (r : Unpack Unpacker) : Unpack Unpacker := do
  let s' ← r
  if s'.stack.length = s.stack.length + 1 ∧ s'.rb.rest <:+ s.rb.rest ∧
      s'.rb.len = s'.rb.rest.length then pure s'
  else throw .undefined

def unpackOneChecked (room : Room) : ℕ → ℕ → Unpacker → Unpack Unpacker
  | 0, _, _ => throw .exhausted
  | fuel + 1, depth, s => do
    let (t, rb) ← readChecked s.rb 1 601
    checkItem ⟨rb, s.stack⟩
      (pushValue room depth (unpackOneChecked room fuel (depth + 1)) fuel ⟨rb, s.stack⟩
        (value t &&& 7) (value t >>> 3))

def unpackAllChecked (room : Room) : ℕ → ℕ → Unpacker → Unpack Unpacker
  | 0, _, _ => throw .exhausted
  | fuel + 1, i, s => do
    checkEighth room i s
    match rbRead s.rb 1 with
    | none => pure s
    | some (t, rb) =>
      let s ← checkItem ⟨rb, s.stack⟩
        (pushValue room 0 (unpackOneChecked room fuel 1) fuel ⟨rb, s.stack⟩ (value t &&& 7)
          (value t >>> 3))
      unpackAllChecked room fuel (i + 1) s

/-- `seri_unpack` with every call of `_push_value` checked. -/
def seriUnpackChecked (room : Room) (chain : List Block) : Unpack (List Value × ReadBlock) :=
  match chain with
  | [] => throw .needBlock
  | _ => do
    let rb := rbInit chain
    let s ← unpackAllChecked room (rb.len.toNat + 1) 0 ⟨rb, []⟩
    pure (s.stack.reverse, rbClose s.rb)

/-- The decoder ends with values or the error of an invalid stream, and no item fails the
check on the way. -/
structure Safe (room : Room) (chain : List Block) : Prop where
  clean : Clean (seriUnpack room chain)
  checked : seriUnpackChecked room chain = seriUnpack room chain

variable {room : Room}

def Agrees {α : Type} (x y : Unpack α) : Prop := Clean x → y = x

variable {α β : Type} {x y : Unpack α} {f g : α → Unpack β}

theorem Agrees.refl (x : Unpack α) : Agrees x x := fun _ => rfl

theorem Agrees.bind (h : Agrees x y) (hf : ∀ a, Agrees (f a) (g a)) :
    Agrees (x >>= f) (y >>= g) := by
  intro hclean
  cases x with
  | ok a =>
    rw [h trivial]
    exact hf a hclean
  | error e =>
    have hx : Clean (.error e : Unpack α) := by cases e <;> exact hclean
    rw [h hx]
    rfl

/-- A result that passes the check stays. -/
theorem checkItem_ok {s s' : Unpacker} : checkItem s (.ok s') =
    if s'.stack.length = s.stack.length + 1 ∧ s'.rb.rest <:+ s.rb.rest ∧
      s'.rb.len = s'.rb.rest.length then .ok s' else .error .undefined := rfl

theorem agrees_checkItem {s : Unpacker} {r r' : Unpack Unpacker} (h : Agrees r r') :
    Agrees (checkItem s r) r' := by
  intro hclean
  cases r with
  | ok s' =>
    rw [checkItem_ok] at hclean ⊢
    split at hclean
    · rename_i hcheck
      rw [if_pos hcheck]
      exact h trivial
    · exact hclean.elim
  | error e =>
    rw [h hclean]
    rfl

theorem agrees_foldlM {γ : Type} {f g : Unpacker → γ → Unpack Unpacker}
    (h : ∀ s a, Agrees (f s a) (g s a)) (l : List γ) :
    ∀ s, Agrees (l.foldlM f s) (l.foldlM g s) := by
  induction l with
  | nil => exact fun s => .refl _
  | cons a l ih => exact fun s => (h s a).bind ih

section Agrees

variable {one one' : Unpacker → Unpack Unpacker} (h : ∀ s, Agrees (one s) (one' s))

include h in
theorem agrees_unpackPairs (fuel : ℕ) :
    ∀ s, Agrees (unpackPairs room one fuel s) (unpackPairs room one' fuel s) := by
  induction fuel with
  | zero => exact fun s => .refl _
  | succ fuel ih =>
    intro s
    refine (h s).bind fun s => ?_
    split
    · exact .refl _
    · exact (h s).bind fun s => (Agrees.refl _).bind ih

include h in
theorem agrees_unpackTable (depth fuel : ℕ) (s : Unpacker) (cookie : ℕ) :
    Agrees (unpackTable room depth one fuel s cookie)
      (unpackTable room depth one' fuel s cookie) := by
  refine (Agrees.refl _).bind fun _ => (Agrees.refl _).bind fun r => ?_
  refine (Agrees.refl _).bind fun _ => (Agrees.refl _).bind fun _ => ?_
  refine (agrees_foldlM (fun s i => ?_) _ _).bind (agrees_unpackPairs h fuel)
  exact (h s).bind fun s => .refl _

variable (room) in
include h in
theorem agrees_pushValue (depth fuel : ℕ) (s : Unpacker) (type cookie : ℕ) :
    Agrees (pushValue room depth one fuel s type cookie)
      (pushValue room depth one' fuel s type cookie) := by
  unfold pushValue
  by_cases htable : type = TYPE_TABLE
  · subst htable
    exact agrees_unpackTable h depth fuel s cookie
  · simp only [if_neg htable]
    exact .refl _

end Agrees

variable (room) in
theorem agrees_unpackOne (fuel : ℕ) : ∀ depth s,
    Agrees (unpackOneChecked room fuel depth s) (unpackOne room fuel depth s) := by
  induction fuel with
  | zero => exact fun depth s => .refl _
  | succ fuel ih =>
    intro depth s
    refine (Agrees.refl _).bind fun r => ?_
    exact agrees_checkItem (agrees_pushValue room (ih (depth + 1)) depth fuel _ _ _)

theorem agrees_unpackAll (fuel : ℕ) : ∀ i s,
    Agrees (unpackAllChecked room fuel i s) (unpackAll room fuel i s) := by
  induction fuel with
  | zero => exact fun i s => .refl _
  | succ fuel ih =>
    intro i s
    refine (Agrees.refl _).bind fun _ => ?_
    cases rbRead s.rb 1 with
    | none => exact .refl _
    | some r =>
      have hitem := agrees_pushValue room (agrees_unpackOne room fuel 1) 0 fuel ⟨r.2, s.stack⟩
      exact (agrees_checkItem (hitem _ _)).bind (ih (i + 1))

theorem agrees_seriUnpack (chain : List Block) :
    Agrees (seriUnpackChecked room chain) (seriUnpack room chain) := by
  cases chain with
  | nil => exact .refl _
  | cons block chain => exact (agrees_unpackAll _ _ _).bind fun s => .refl _

theorem safe_iff {chain : List Block} :
    Safe room chain ↔ Clean (seriUnpackChecked room chain) := by
  constructor
  · intro h
    rw [h.checked]
    exact h.clean
  · intro h
    have heq := agrees_seriUnpack chain h
    exact ⟨heq ▸ h, heq.symm⟩

/-- The scan ends like the decoder: with results that are related, with the error of an invalid
stream, or in an item that the decoder does not handle or has no room for. -/
inductive Follows (R : α → β → Prop) : Unpack α → Scan β → Prop where
  | ok {a b} : R a b → Follows R (.ok a) (.ok b)
  | refused {len line} : Follows R (.error (.invalidStream len line)) (.error .refused)
  | fault {e} : e = .undefined ∨ e = .badKey ∨ e = .noRoom →
      Follows R (.error e) (.error .fault)

variable {γ δ : Type} {R : α → β → Prop} {S : γ → δ → Prop} {z : Scan β}

theorem Follows.bind {f : α → Unpack γ} {g : β → Scan δ} (h : Follows R x z)
    (hf : ∀ a b, R a b → Follows S (f a) (g b)) : Follows S (x >>= f) (z >>= g) := by
  cases h with
  | ok hR => exact hf _ _ hR
  | refused => exact .refused
  | fault he => exact .fault he

theorem Follows.imp {R' : α → β → Prop} (h : Follows R x z) (hR : ∀ a b, R a b → R' a b) :
    Follows R' x z := by
  cases h with
  | ok h => exact .ok (hR _ _ h)
  | refused => exact .refused
  | fault he => exact .fault he

theorem Follows.clean_iff (h : Follows R x z) : Clean x ↔ z ≠ .error .fault := by
  cases h with
  | ok => exact ⟨fun _ => (fun hk => by cases hk), fun _ => trivial⟩
  | refused => exact ⟨fun _ => (fun hk => by cases hk), fun _ => trivial⟩
  | fault he =>
    refine ⟨fun hclean => ?_, fun hk => absurd rfl hk⟩
    rcases he with rfl | rfl | rfl <;> exact hclean.elim

/-- The reader is at `bs`. -/
structure At (rb : ReadBlock) (bs : List Byte) : Prop where
  reading : Reading rb
  rest : rb.rest = bs

/-- What was read, and where the reader is now. -/
structure Got (R : α → β → Prop) (bs : List Byte) (a : α × ReadBlock) (b : β × List Byte) :
    Prop where
  value : R a.1 b.1
  here : At a.2 b.2
  suffix : b.2 <:+ bs

variable {rb : ReadBlock} {bs : List Byte} {st : List Value}

/-- A read is refused like the scan, or takes the same bytes and leaves the same rest. -/
theorem follows_read {f : List Byte × ReadBlock → Unpack γ} {g : List Byte × List Byte → Scan δ}
    (h : At rb bs) (sz line : ℕ)
    (hnext : ∀ p rb' bs', At rb' bs' → bs' <:+ bs → bs'.length + sz = bs.length →
      Follows S (f (p, rb')) (g (p, bs'))) :
    Follows S (readChecked rb sz line >>= f) (takeBytes sz bs >>= g) := by
  unfold readChecked takeBytes
  by_cases hlt : bs.length < sz
  · rw [if_pos hlt, (rbRead_none h.reading).mpr (h.rest ▸ hlt)]
    exact .refused
  · have hsz : sz ≤ rb.rest.length := by
      rw [h.rest]
      omega
    obtain ⟨rb', heq, hread, hdrop, -⟩ := rbRead_reading h.reading hsz
    rw [if_neg hlt, heq]
    rw [h.rest] at hdrop ⊢
    have hlen : (bs.drop sz).length + sz = bs.length := by
      rw [List.length_drop]
      omega
    exact hnext _ rb' _ ⟨hread, hdrop⟩ (List.drop_suffix ..) hlen

/-- A request is refused to both. -/
theorem follows_ask {f : Unpack γ} {g : Scan δ} (h : At rb bs) (request : Request)
    (hnext : Follows S f g) :
    Follows S (room.ask rb request >>= fun _ => f) (scanAsk room bs request >>= fun _ => g) := by
  unfold Room.ask scanAsk
  rw [h.reading.len, h.rest]
  split
  · exact hnext
  · exact .fault (.inr (.inr rfl))

/-- A number is read and converted. -/
theorem follows_number {R : α → ℕ → Prop} (h : At rb bs) (sz line : ℕ) (conv : ℕ → α)
    (hconv : ∀ n, R (conv n) n) : Follows (Got R bs)
      (readChecked rb sz line >>= fun r => pure (conv (value r.1), r.2))
      (takeBytes sz bs >>= fun r => pure (value r.1, r.2)) :=
  follows_read h sz line fun _ _ _ hhere hsuffix _ => .ok ⟨hconv _, hhere, hsuffix⟩

theorem toInt32_ofNat (n : ℕ) : toInt32 (BitVec.ofNat 64 n).toInt = toInt32 n := by
  rw [toInt32, toInt32, BitVec.toInt_ofInt, BitVec.toInt_ofInt, BitVec.toInt_ofNat']
  exact Int.bmod_bmod_of_dvd (by decide)

theorem toInt32_signExtend (n : ℕ) :
    toInt32 ((BitVec.ofNat 32 n).signExtend 64).toInt = toInt32 n := by
  rw [BitVec.toInt_signExtend_of_le (by decide), toInt32, toInt32, BitVec.toInt_ofInt,
    BitVec.toInt_ofInt, BitVec.toInt_ofNat', Int.bmod_bmod]

/-- The integer and the number of its bytes are the same `int`. -/
theorem follows_getInteger (h : At rb bs) (cookie : ℕ) :
    Follows (Got (fun n m => toInt32 n.toInt = toInt32 (m : ℕ)) bs) (getInteger rb cookie)
      (scanInteger cookie bs) := by
  by_cases h0 : cookie = TYPE_NUMBER_ZERO
  · subst h0
    exact .ok ⟨rfl, h, List.suffix_rfl⟩
  by_cases h1 : cookie = TYPE_NUMBER_BYTE
  · subst h1
    exact follows_number h 1 451 (BitVec.ofNat 64) toInt32_ofNat
  by_cases h2 : cookie = TYPE_NUMBER_WORD
  · subst h2
    exact follows_number h 2 459 (BitVec.ofNat 64) toInt32_ofNat
  by_cases h4 : cookie = TYPE_NUMBER_DWORD
  · subst h4
    exact follows_number h 4 467 (fun n => (BitVec.ofNat 32 n).signExtend 64) toInt32_signExtend
  by_cases h6 : cookie = TYPE_NUMBER_QWORD
  · subst h6
    exact follows_number h 8 475 (BitVec.ofNat 64) toInt32_ofNat
  simp only [getInteger, scanInteger, h0, h1, h2, h4, h6, or_self, ↓reduceIte]
  exact .refused

theorem follows_tableSize (h : At rb bs) (cookie : ℕ) :
    Follows (Got Eq bs) (tableSize rb cookie) (scanSize cookie bs) := by
  unfold tableSize scanSize
  by_cases hmax : cookie = MAX_COOKIE - 1
  · rw [if_pos hmax, if_pos hmax]
    refine follows_read h 1 520 fun t rb' bs' hhere hsuffix _ => ?_
    dsimp only
    split
    · exact .refused
    · refine (follows_getInteger hhere _).bind fun a b hab => ?_
      exact .ok ⟨hab.value, hab.here, hab.suffix.trans hsuffix⟩
  · rw [if_neg hmax, if_neg hmax]
    exact .ok ⟨rfl, h, List.suffix_rfl⟩

def kindOf : Value → Kind
  | .nil => .nil
  | .scalar (.float bits) => if isNaN bits then .nan else .other
  | _ => .other

/-- What a key that ends no table does as a key. -/
theorem storedKey_kindOf {v : Value} (h : kindOf v ≠ .nil) :
    storedKey v = none ↔ kindOf v = .nan := by
  rcases v with _ | s | entries
  · exact absurd rfl h
  · cases s with
    | float bits =>
      rw [storedKey, kindOf]
      split
      · exact ⟨fun _ => rfl, fun _ => rfl⟩
      · refine iff_of_false ?_ (fun h => by cases h)
        split <;> exact fun h => by cases h
    | _ => exact iff_of_false (fun h => by cases h) (fun h => by cases h)
  · exact iff_of_false (fun h => by cases h) (fun h => by cases h)

theorem kindOf_nil {v : Value} : kindOf v = .nil ↔ v = .nil := by
  constructor
  · intro h
    rcases v with _ | s | entries
    · rfl
    · cases s with
      | float bits =>
        rw [kindOf] at h
        split at h <;> cases h
      | _ => cases h
    · cases h
  · rintro rfl
    rfl

/-- One value of the kind that the scan tells is pushed, and the reader is where it is. -/
structure Pushed (st : List Value) (bs : List Byte) (s : Unpacker) (b : Kind × List Byte) :
    Prop where
  top : ∃ v, s.stack = v :: st ∧ kindOf v = b.1
  here : At s.rb b.2
  suffix : b.2 <:+ bs

/-- The same number of values is on the stack, the table at the top. -/
structure Filled (st : List Value) (bs : List Byte) (s : Unpacker) (bs' : List Byte) :
    Prop where
  top : ∃ entries, s.stack = .table entries :: st
  here : At s.rb bs'
  suffix : bs' <:+ bs

/-- A value after what was read before it. -/
theorem Pushed.of_suffix {bs' : List Byte} {s : Unpacker} {b : Kind × List Byte}
    (h : Pushed st bs' s b) (hsuffix : bs' <:+ bs) : Pushed st bs s b :=
  ⟨h.top, h.here, h.suffix.trans hsuffix⟩

theorem Filled.of_suffix {bs' bs'' : List Byte} {s : Unpacker} (h : Filled st bs' s bs'')
    (hsuffix : bs' <:+ bs) : Filled st bs s bs'' :=
  ⟨h.top, h.here, h.suffix.trans hsuffix⟩

/-- A value that pushes one thing passes the check. -/
theorem follows_checkItem {s : Unpacker} {r : Unpack Unpacker} {z : Scan (Kind × List Byte)}
    (hrest : s.rb.rest = bs) (h : Follows (Pushed s.stack bs) r z) :
    Follows (Pushed s.stack bs) (checkItem s r) z := by
  cases h with
  | @ok s' b hpushed =>
    obtain ⟨v, htop, -⟩ := hpushed.top
    have hlen := hpushed.here.reading.len
    have hsuffix := hpushed.suffix
    rw [← hrest, ← hpushed.here.rest] at hsuffix
    rw [checkItem_ok, if_pos ⟨by rw [htop, List.length_cons], hsuffix, hlen⟩]
    exact .ok hpushed
  | refused => exact .refused
  | fault he => exact .fault he

/-- A string is pushed if all of it is there. -/
theorem follows_getBuffer (h : At rb bs) (len : ℤ) :
    Follows (Pushed st bs) (getBuffer room ⟨rb, st⟩ len) (scanString room len bs) := by
  unfold getBuffer scanString
  by_cases hneg : len < 0
  · rw [if_pos hneg, if_neg (by omega)]
    exact .fault (.inl rfl)
  rw [if_neg hneg]
  by_cases hlong : len ≤ bs.length
  · have hsz : len.toNat ≤ rb.rest.length := by
      rw [h.rest]
      omega
    obtain ⟨rb', heq, hread, hdrop, -⟩ := rbRead_reading h.reading hsz
    rw [if_pos ⟨by omega, hlong⟩, heq]
    rw [h.rest] at hdrop
    have hhere : At rb' (bs.drop len.toNat) := ⟨hread, hdrop⟩
    refine follows_ask h _ (follows_ask hhere _ ?_)
    exact .ok ⟨⟨_, rfl, rfl⟩, hhere, List.drop_suffix ..⟩
  · have hsz : rb.rest.length < len.toNat := by
      rw [h.rest]
      omega
    rw [if_neg (by omega), (rbRead_none h.reading).mpr hsz]
    unfold Room.ask
    split
    · exact .fault (.inl rfl)
    · exact .fault (.inr (.inr rfl))

section Table

/-- `item` finds the end of what `one` reads, in fewer than `n` bytes. -/
def ReadsItem (n : ℕ) (one : Unpacker → Unpack Unpacker)
    (item : ℕ → List Byte → Scan (Kind × List Byte)) : Prop :=
  ∀ rb bs st, At rb bs → bs.length < n →
    Follows (fun s b => Pushed st bs s b ∧ b.2.length < bs.length) (one ⟨rb, st⟩)
      (item st.length bs)

variable {n : ℕ} {one : Unpacker → Unpack Unpacker}
  {item : ℕ → List Byte → Scan (Kind × List Byte)} (hitem : ReadsItem n one item)

variable (room st) in
include hitem in
theorem follows_items (count : ℕ) : ∀ (start : ℕ) (entries : List (Value × Value)) (rb : ReadBlock)
    (bs : List Byte), At rb bs → bs.length < n →
    Follows (Filled st bs)
      ((List.range' start count).foldlM (fun s i => do
        let s ← one s
        rawseti room s i) ⟨rb, .table entries :: st⟩)
      (scanItems room item (st.length + 1) count bs) := by
  induction count with
  | zero => exact fun start entries rb bs h hlt => .ok ⟨⟨_, rfl⟩, h, List.suffix_rfl⟩
  | succ count ih =>
    intro start entries rb bs h hlt
    rw [List.range'_succ, List.foldlM_cons, bind_assoc]
    refine (hitem rb bs (.table entries :: st) h hlt).bind fun s b hs => ?_
    obtain ⟨v, htop, -⟩ := hs.1.top
    obtain ⟨rb', stack⟩ := s
    obtain rfl : stack = _ := htop
    simp only [rawseti, bind_assoc]
    refine follows_ask hs.1.here _ ?_
    refine (ih (start + 1) (store entries _ v) rb' b.2 hs.1.here (by omega)).imp ?_
    exact fun s bs' hs' => hs'.of_suffix hs.1.suffix

variable (st) in
include hitem in
theorem follows_pairs (fuel : ℕ) (hfuel : fuel ≤ n) : ∀ (entries : List (Value × Value))
    (rb : ReadBlock) (bs : List Byte), At rb bs → bs.length < fuel →
    Follows (Filled st bs) (unpackPairs room one fuel ⟨rb, .table entries :: st⟩)
      (scanPairs room item (st.length + 1) fuel bs) := by
  induction fuel with
  | zero => exact fun entries rb bs h hlt => absurd hlt (Nat.not_lt_zero _)
  | succ fuel ih =>
    intro entries rb bs h hlt
    refine (hitem rb bs (.table entries :: st) h (by omega)).bind fun s b hs => ?_
    obtain ⟨⟨⟨k, htop, hkind⟩, hhere, hsuffix⟩, hless⟩ := hs
    obtain ⟨rb', stack⟩ := s
    obtain ⟨kind, bs'⟩ := b
    obtain rfl : stack = k :: .table entries :: st := htop
    obtain rfl : kindOf k = kind := hkind
    dsimp only at hhere hsuffix hless ⊢
    by_cases hnil : k = .nil
    · subst hnil
      exact .ok ⟨⟨entries, rfl⟩, hhere, hsuffix⟩
    have hother : kindOf k ≠ .nil := fun h => hnil (kindOf_nil.mp h)
    rw [if_neg hother]
    have hvalue := hitem rb' bs' (k :: .table entries :: st) hhere (by omega)
    split
    · rename_i heq
      exact absurd (List.cons.inj heq).1 hnil
    refine hvalue.bind fun s b hs => ?_
    obtain ⟨⟨⟨v, htop, -⟩, hhere', hsuffix'⟩, hless'⟩ := hs
    obtain ⟨rb'', stack⟩ := s
    obtain rfl : stack = v :: k :: .table entries :: st := htop
    cases hkey : storedKey k with
    | none =>
      rw [if_pos ((storedKey_kindOf hother).mp hkey)]
      simp only [rawset, hkey]
      exact .fault (.inr (.inl rfl))
    | some key =>
      rw [if_neg fun hk => by rw [(storedKey_kindOf hother).mpr hk] at hkey; cases hkey]
      simp only [rawset, hkey, bind_assoc]
      refine follows_ask hhere' _ ?_
      refine (ih (by omega) (store entries key v) rb'' b.2 hhere' (by omega)).imp ?_
      exact fun s c hs' => hs'.of_suffix (hsuffix'.trans hsuffix)

variable (st) in
include hitem in
theorem follows_table (depth : ℕ) {fuel : ℕ} (hfuel : fuel ≤ n) (h : At rb bs)
    (hlt : bs.length < fuel) (cookie : ℕ) :
    Follows (Filled st bs) (unpackTable room depth one fuel ⟨rb, st⟩ cookie)
      (scanTable room depth item fuel cookie st.length bs) := by
  refine follows_ask h _ ((follows_tableSize h cookie).bind fun a b hab => ?_)
  obtain ⟨size, rb'⟩ := a
  obtain ⟨size', bs'⟩ := b
  obtain rfl : size = size' := hab.value
  refine follows_ask hab.here _ (follows_ask hab.here _ ?_)
  have hle := hab.suffix.length_le
  dsimp only at hle ⊢
  have hitems := follows_items room st hitem size.toNat 1 [] rb' bs' hab.here (by omega)
  refine hitems.bind fun s bs'' hs => ?_
  obtain ⟨entries, htop⟩ := hs.top
  obtain ⟨rb'', stack⟩ := s
  obtain rfl : stack = _ := htop
  have hle' := hs.suffix.length_le
  refine (follows_pairs st hitem fuel hfuel entries rb'' bs'' hs.here (by omega)).imp ?_
  exact fun s c hs' => hs'.of_suffix (hs.suffix.trans hab.suffix)

theorem follows_pushNumber (h : At rb bs) (depth fuel cookie : ℕ) :
    Follows (Pushed st bs) (pushValue room depth one fuel ⟨rb, st⟩ TYPE_NUMBER cookie)
      (scanValue room depth item fuel TYPE_NUMBER cookie st.length bs) := by
  by_cases hreal : cookie = TYPE_NUMBER_REAL
  · subst hreal
    change Follows _ (getReal rb >>= fun r => _) (takeBytes 8 bs >>= fun r => _)
    rw [getReal, bind_assoc]
    refine follows_read h 8 490 fun p rb' bs' hhere hsuffix _ => ?_
    exact .ok ⟨⟨_, rfl, rfl⟩, hhere, hsuffix⟩
  · have hpush : pushValue room depth one fuel ⟨rb, st⟩ TYPE_NUMBER cookie =
        getInteger rb cookie >>= fun r => pure ⟨r.2, .scalar (.integer r.1) :: st⟩ :=
      if_neg hreal
    have hscan : scanValue room depth item fuel TYPE_NUMBER cookie st.length bs =
        scanInteger cookie bs >>= fun r => pure (.other, r.2) := if_neg hreal
    rw [hpush, hscan]
    refine (follows_getInteger h cookie).bind fun a b hab => ?_
    exact .ok ⟨⟨_, rfl, rfl⟩, hab.here, hab.suffix⟩

theorem follows_pushPointer (h : At rb bs) (depth fuel cookie : ℕ) :
    Follows (Pushed st bs) (pushValue room depth one fuel ⟨rb, st⟩ TYPE_USERDATA cookie)
      (scanValue room depth item fuel TYPE_USERDATA cookie st.length bs) := by
  change Follows _ (getPointer rb >>= fun r => _) (takeBytes 8 bs >>= fun r => _)
  rw [getPointer, bind_assoc]
  refine follows_read h 8 500 fun p rb' bs' hhere hsuffix _ => ?_
  exact .ok ⟨⟨_, rfl, rfl⟩, hhere, hsuffix⟩

/-- The length of a long string takes two bytes or four. -/
theorem follows_pushLongString (h : At rb bs) (depth fuel cookie : ℕ) :
    Follows (Pushed st bs) (pushValue room depth one fuel ⟨rb, st⟩ TYPE_LONG_STRING cookie)
      (scanValue room depth item fuel TYPE_LONG_STRING cookie st.length bs) := by
  by_cases htwo : cookie = 2
  · subst htwo
    refine follows_read h 2 574 fun plen rb' bs' hhere hsuffix _ => ?_
    exact (follows_getBuffer hhere _).imp fun s b hs => hs.of_suffix hsuffix
  by_cases hfour : cookie = 4
  · subst hfour
    refine follows_read h 4 583 fun plen rb' bs' hhere hsuffix _ => ?_
    exact (follows_getBuffer hhere _).imp fun s b hs => hs.of_suffix hsuffix
  · have hpush : pushValue room depth one fuel ⟨rb, st⟩ TYPE_LONG_STRING cookie =
        .error (.invalidStream rb.len 579) := (if_neg htwo).trans (if_pos hfour)
    have hscan : scanValue room depth item fuel TYPE_LONG_STRING cookie st.length bs =
        .error .refused := (if_neg htwo).trans (if_neg hfour)
    rw [hpush, hscan]
    exact .refused

include hitem in
theorem follows_pushTable (depth : ℕ) {fuel : ℕ} (hfuel : fuel ≤ n) (h : At rb bs)
    (hlt : bs.length < fuel) (cookie : ℕ) :
    Follows (Pushed st bs) (pushValue room depth one fuel ⟨rb, st⟩ TYPE_TABLE cookie)
      (scanValue room depth item fuel TYPE_TABLE cookie st.length bs) := by
  change Follows _ (unpackTable room depth one fuel ⟨rb, st⟩ cookie)
    (scanTable room depth item fuel cookie st.length bs >>= fun bs => pure (Kind.other, bs))
  rw [← bind_pure (unpackTable room depth one fuel ⟨rb, st⟩ cookie)]
  refine (follows_table st hitem depth hfuel h hlt cookie).bind fun s bs' hs => ?_
  obtain ⟨entries, htop⟩ := hs.top
  exact .ok ⟨⟨_, htop, rfl⟩, hs.here, hs.suffix⟩

variable (room st) in
include hitem in
/-- A type tag there is none of pushes nothing, and every other one value. -/
theorem follows_pushValue (depth : ℕ) {fuel : ℕ} (hfuel : fuel ≤ n) (h : At rb bs)
    (hlt : bs.length < fuel) {type : ℕ} (htype : type < 8) (cookie : ℕ) :
    Follows (Pushed st bs)
      (checkItem ⟨rb, st⟩ (pushValue room depth one fuel ⟨rb, st⟩ type cookie))
      (scanValue room depth item fuel type cookie st.length bs) := by
  by_cases hseven : type = 7
  · subst hseven
    have hcheck : checkItem ⟨rb, st⟩ (.ok ⟨rb, st⟩) = .error .undefined := by
      rw [checkItem_ok, if_neg fun h => absurd h.1 (Nat.succ_ne_self _).symm]
    change Follows _ (checkItem ⟨rb, st⟩ (.ok ⟨rb, st⟩)) (.error .fault)
    rw [hcheck]
    exact .fault (.inl rfl)
  refine follows_checkItem (s := ⟨rb, st⟩) h.rest ?_
  have hcases : type = TYPE_NIL ∨ type = TYPE_BOOLEAN ∨ type = TYPE_NUMBER ∨
      type = TYPE_USERDATA ∨ type = TYPE_SHORT_STRING ∨ type = TYPE_LONG_STRING ∨
      type = TYPE_TABLE := by
    simp only [TYPE_NIL, TYPE_BOOLEAN, TYPE_NUMBER, TYPE_USERDATA, TYPE_SHORT_STRING,
      TYPE_LONG_STRING, TYPE_TABLE]
    omega
  rcases hcases with rfl | rfl | rfl | rfl | rfl | rfl | rfl
  · exact .ok ⟨⟨_, rfl, rfl⟩, h, List.suffix_rfl⟩
  · exact .ok ⟨⟨_, rfl, rfl⟩, h, List.suffix_rfl⟩
  · exact follows_pushNumber h depth fuel cookie
  · exact follows_pushPointer h depth fuel cookie
  · exact follows_getBuffer h cookie
  · exact follows_pushLongString h depth fuel cookie
  · exact follows_pushTable hitem depth hfuel h hlt cookie

end Table

theorem type_lt (tag : ℕ) : tag &&& 7 < 8 := Nat.lt_succ_of_le Nat.and_le_right

variable (room) in
theorem readsItem_unpackOne (fuel : ℕ) :
    ∀ depth, ReadsItem fuel (unpackOneChecked room fuel depth) (scanItem room fuel depth) := by
  induction fuel with
  | zero => exact fun depth rb bs st h hlt => absurd hlt (Nat.not_lt_zero _)
  | succ fuel ih =>
    intro depth rb bs st h hlt
    refine follows_read h 1 601 fun t rb' bs' hhere hsuffix hlen => ?_
    have hpush := follows_pushValue room st (ih (depth + 1)) depth le_rfl hhere (by omega)
      (type_lt (value t)) (value t >>> 3)
    refine hpush.imp fun s b hs => ⟨hs.of_suffix hsuffix, ?_⟩
    have hle := hs.suffix.length_le
    omega

theorem follows_eighth {f : Unpack γ} {g : Scan δ} (h : At rb bs) (st : List Value)
    (hnext : Follows S f g) :
    Follows S (checkEighth room st.length ⟨rb, st⟩ >>= fun _ => f)
      (scanEighth room st.length bs >>= fun _ => g) := by
  unfold checkEighth scanEighth
  split
  · exact follows_ask h _ hnext
  · exact hnext

variable (room) in
theorem follows_unpackAll (fuel : ℕ) : ∀ (st : List Value) (rb : ReadBlock) (bs : List Byte),
    At rb bs → bs.length < fuel →
    Follows (fun _ _ => True) (unpackAllChecked room fuel st.length ⟨rb, st⟩)
      (scanAll room fuel st.length bs) := by
  induction fuel with
  | zero => exact fun st rb bs h hlt => absurd hlt (Nat.not_lt_zero _)
  | succ fuel ih =>
    intro st rb bs h hlt
    refine follows_eighth h st ?_
    cases bs with
    | nil =>
      have hread : rbRead rb 1 = none :=
        (rbRead_none h.reading).mpr (by rw [h.rest]; exact Nat.one_pos)
      simp only [hread]
      exact .ok trivial
    | cons t bs =>
      have hsz : 1 ≤ rb.rest.length := by
        rw [h.rest]
        exact Nat.le_add_left 1 _
      obtain ⟨rb', hread, hreading, hdrop, -⟩ := rbRead_reading h.reading hsz
      rw [h.rest] at hread hdrop
      change rb'.rest = bs at hdrop
      simp only [hread]
      rw [List.length_cons] at hlt
      have hpush := follows_pushValue room st (readsItem_unpackOne room fuel 1) 0 le_rfl
        ⟨hreading, hdrop⟩ (by omega) (type_lt (value [t])) (value [t] >>> 3)
      refine hpush.bind fun s b hs => ?_
      obtain ⟨v, htop, -⟩ := hs.top
      have hle := hs.suffix.length_le
      obtain ⟨rb'', stack⟩ := s
      obtain rfl : stack = v :: st := htop
      exact ih (v :: st) rb'' b.2 hs.here (by omega)

/-- On a chain whose length is that of its contents, `seri_unpack` is safe exactly if no item is
reached that it does not handle: one of type 7, a string longer than what is left, a pair of a
table whose key is NaN, or an item that the room is refused to. -/
theorem unpack_safe_iff (room : Room) (chain : List Block) (h : Reading (rbInit chain)) :
    Safe room chain ↔ Sound room (rbInit chain).rest := by
  have hlen : (rbInit chain).rest.length < (rbInit chain).len.toNat + 1 := by
    rw [h.len, Int.toNat_natCast]
    exact Nat.lt_succ_self _
  have hall := follows_unpackAll room _ [] (rbInit chain) _ ⟨h, rfl⟩ hlen
  rw [h.len, Int.toNat_natCast] at hall
  have hchain : chain ≠ [] := by
    rintro rfl
    exact absurd h.len (by decide)
  have hunpack : seriUnpackChecked room chain = (do
      let s ← unpackAllChecked room ((rbInit chain).rest.length + 1) 0 ⟨rbInit chain, []⟩
      pure (s.stack.reverse, rbClose s.rb)) := by
    rw [seriUnpackChecked, h.len, Int.toNat_natCast]
    exact hchain
  have hclose : Follows (fun _ _ => True) (seriUnpackChecked room chain)
      (scanAll room ((rbInit chain).rest.length + 1) 0 (rbInit chain).rest) := by
    rw [hunpack, ← bind_pure (scanAll _ _ _ _)]
    exact hall.bind fun s _ _ => .ok trivial
  exact safe_iff.trans hclose.clean_iff

/-- A table with an array part and a pair. -/
def tableChain : List Block := [bytes 4 10 ++ [0x0E#8, 0x09#8, 0x0C#8, 0x61#8, 0x02#8, 0x00#8]]

/-- No more than 200 nested calls, a million values on the Lua stack and 2 ^ 20 bytes or slots. -/
def smallRoom : Room := fun _ request =>
  match request with
  | .frame depth => depth < 200
  | .checkstack height => height + 20 ≤ 1000000
  | .tmp size | .createtable size | .pushlstring size => size ≤ 2 ^ 20
  | .rawset => true

theorem unpack_safe_iff_tableChain : Reading (rbInit tableChain) ∧ Safe smallRoom tableChain := by
  have h : Reading (rbInit tableChain) :=
    ⟨by decide, (by decide : 10 ≤ 128), by decide, fun hnil => by cases hnil⟩
  exact ⟨h, (unpack_safe_iff smallRoom tableChain h).mpr (by decide)⟩

/-- The header of a table with an array part of 2 ^ 31 - 1. -/
example : ¬ Sound smallRoom [0xFE#8, 0x22#8, 0xFF#8, 0xFF#8, 0xFF#8, 0x7F#8] := by decide

theorem not_safe_of_undefined {chain : List Block}
    (h : seriUnpack room chain = .error .undefined) : ¬ Safe room chain := by
  intro hsafe
  have hclean := hsafe.clean
  rw [h] at hclean
  exact hclean

/-- The header of a string of one byte, without the byte. -/
def truncatedChain : List Block := [bytes 4 5 ++ [0x0C#8]]

/-- A table whose one array element is of the type that there is none of. -/
def unknownChain : List Block := [bytes 4 7 ++ [0x0E#8, 0x07#8, 0x00#8]]

/-- Neither is safe with room for everything. -/
theorem truncated_string_pushed :
    (Reading (rbInit truncatedChain) ∧ ¬ Safe .unlimited truncatedChain) ∧
    (Reading (rbInit unknownChain) ∧ ¬ Safe .unlimited unknownChain) := by
  refine ⟨⟨⟨by decide, (by decide : 5 ≤ 128), by decide, fun hnil => by cases hnil⟩, ?_⟩,
    ⟨⟨by decide, (by decide : 7 ≤ 128), by decide, fun hnil => by cases hnil⟩, ?_⟩⟩
  · exact not_safe_of_undefined rfl
  · exact not_safe_of_undefined rfl

end LtaskSerializeDecoder
