import Grt.HttpParserExecute

/-! What holds of an `http_parser` between two characters. Every case of the switch keeps it,
fails no assertion and leaves only the mark of the text that its new state has open. -/
namespace HttpParserSound

open LittleEndian HttpParserState HttpParserSwitch HttpParserExecute

/-- The header states in which the loop over a name goes on. -/
def isFieldState : HeaderState → Bool
  | .general | .C | .CO | .CON | .matchingConnection | .matchingProxyConnection
  | .matchingContentLength | .matchingTransferEncoding | .matchingUpgrade | .connection
  | .contentLength | .transferEncoding | .upgrade => true
  | _ => false

/-- The header states in which the loop over a value goes on. -/
def isValueState : HeaderState → Bool
  | .connection | .transferEncoding => false
  | _ => true

/-- What a state asks of the other fields. -/
def SoundAt (parser : HttpParser) : State → Prop
  | .reqMethod => parser.index ≤ (methodString parser.method).length
  | .headerField => isFieldState parser.headerState
  | .headerValue => isValueState parser.headerState
  | .chunkSizeStart | .chunkDataDone => parser.flags.chunked
  | .chunkSize | .chunkParameters | .chunkSizeAlmostDone =>
    parser.flags.chunked ∧ parser.contentLength < ULLONG_MAX
  | .chunkData =>
    parser.flags.chunked ∧ 0 < parser.contentLength ∧ parser.contentLength < ULLONG_MAX
  | .chunkDataAlmostDone => parser.flags.chunked ∧ parser.contentLength = 0
  | .bodyIdentity => 0 < parser.contentLength ∧ parser.contentLength < ULLONG_MAX
  | _ => True

/-- A parser that an execution can go on with, `b` telling whether it is lenient. The size of a
chunk begins `k` characters after the counter was reset: none between two characters, one in the
switch. -/
structure Sound (b : Bool) (k : ℕ) (parser : HttpParser) : Prop where
  ok : parser.httpErrno = .ok
  lenient : parser.lenientHttpHeaders = b
  nread : parser.nread ≤ HTTP_MAX_HEADER_SIZE
  length : parser.contentLength ≤ ULLONG_MAX
  chunk : parser.state = .chunkSizeStart → parser.nread = k
  state : SoundAt parser parser.state

/-- The mark that may be set in a state between two characters. That of a chunk stays set until
the character after it. -/
def Opens (s : State) (o : Option Element) : Prop :=
  o = openElement s ∨ (s = .chunkDataAlmostDone ∧ o = some .body)

/-- The connection has been given to another protocol. -/
def Upgraded (parser : HttpParser) : Prop :=
  parser.upgrade ∧ (parser.state = .dead ∨ parser.state = .startReq ∨ parser.state = .startRes)

instance (parser : HttpParser) : Decidable (Upgraded parser) :=
  inferInstanceAs (Decidable (_ ∧ _))

/-- Every mark is set where none is, handed over before it is left and fits the state at the end,
with the mark `o` set at the beginning. -/
def Fits (b : Bool) : Option Element → Step → Prop
  | o, .next parser => o = openElement parser.state ∧ Sound b 0 parser
  | o, .exit parser consumed =>
    parser.httpErrno = .ok → o = none ∧ consumed = 1 ∧ Upgraded parser ∧ Sound b 0 parser
  | _, .abort => False
  | o, .mark e rest => o = none ∧ Fits b (some e) rest
  | o, .data e parser _ rest =>
    (o = some e ∨ o = none ∧ e = .body) ∧ parser.httpErrno = .ok ∧ Fits b none rest
  | o, .call _ rest => o = none ∧ Fits b o rest

variable {settings : Settings} {parser : HttpParser} {ch : Byte} {o : Option Element} {n : Notify}
  {e : HttpErrno} {consumed k : ℕ} {rest : Step} {s : State} {b : Bool}

def Kept (parser q : HttpParser) : Prop :=
  q.httpErrno = parser.httpErrno ∧ q.lenientHttpHeaders = parser.lenientHttpHeaders

/-- The states that ask for nothing. -/
def isPlain : State → Bool
  | .reqMethod | .headerField | .headerValue | .chunkSizeStart | .chunkDataDone | .chunkSize
  | .chunkParameters | .chunkSizeAlmostDone | .chunkData | .chunkDataAlmostDone
  | .bodyIdentity => false
  | _ => true

theorem soundAt_plain (h : isPlain s) : SoundAt parser s := by
  cases s <;> trivial

/-- A parser in another state that asks for nothing, with other fields that no bound is on. -/
theorem Sound.plain (h : Sound b k parser) (hs : isPlain s) {q : HttpParser} (hstate : q.state = s)
    (hkept : Kept parser q) (hnread : q.nread = parser.nread)
    (hlen : q.contentLength ≤ ULLONG_MAX) : Sound b 0 q where
  ok := hkept.1.trans h.ok
  lenient := hkept.2.trans h.lenient
  nread := hnread ▸ h.nread
  length := hlen
  chunk hq := by
    rw [← hstate, hq] at hs
    exact nomatch hs
  state := hstate ▸ soundAt_plain hs

theorem fits_fail (he : e ≠ .ok) : Fits b o (fail parser e) := fun h => absurd h he

theorem fits_assert {c : Prop} [Decidable c] (hc : c) (h : Fits b o rest) :
    Fits b o (assert c rest) := by
  rw [assert, if_pos hc]
  exact h

theorem fits_notify (hok : parser.httpErrno = .ok) (h : Fits b none rest) :
    Fits b none (notify settings n parser consumed rest) := by
  refine fits_assert hok ?_
  split
  · exact h
  · exact ⟨rfl, h⟩
  · exact ⟨rfl, fun h => nomatch h⟩

/-- `break` in a state that has no text open and asks for nothing. -/
theorem Sound.fits_next (h : Sound b k parser) {q : HttpParser} (hstate : q.state = s)
    (hs : isPlain s && openElement s = none) (hkept : Kept parser q)
    (hnread : q.nread = parser.nread) (hlen : q.contentLength = parser.contentLength) :
    Fits b none (.next q) := by
  rw [Bool.and_eq_true, decide_eq_true_eq] at hs
  exact ⟨hstate ▸ hs.2.symm, h.plain hs.1 hstate hkept hnread (hlen ▸ h.length)⟩

/-- `break` with nothing but bookkeeping changed, in a state that asks for nothing. -/
theorem Sound.fits_stay (h : Sound b k parser) (hs : isPlain parser.state)
    (ho : o = openElement parser.state) {q : HttpParser} (hstate : q.state = parser.state)
    (hkept : Kept parser q) (hnread : q.nread = parser.nread)
    (hlen : q.contentLength = parser.contentLength) : Fits b o (.next q) :=
  ⟨hstate ▸ ho, h.plain hs hstate hkept hnread (hlen ▸ h.length)⟩

theorem Sound.fits_expect (h : Sound b k parser) {want : Byte} (he : e ≠ .ok)
    (hs : isPlain s && openElement s = none) : Fits b none (expect parser ch want e s) := by
  unfold expect
  split
  · exact fits_fail he
  · exact h.fits_next rfl hs ⟨rfl, rfl⟩ rfl rfl

/-- What a number of the first line is written into. -/
structure Puts (put : HttpParser → ℕ → HttpParser) : Prop where
  state : ∀ q n, (put q n).state = q.state
  kept : ∀ q n, Kept q (put q n)
  nread : ∀ q n, (put q n).nread = q.nread
  length : ∀ q n, (put q n).contentLength = q.contentLength

theorem puts_major : Puts putMajor :=
  ⟨fun _ _ => rfl, fun _ _ => ⟨rfl, rfl⟩, fun _ _ => rfl, fun _ _ => rfl⟩

theorem puts_minor : Puts putMinor :=
  ⟨fun _ _ => rfl, fun _ _ => ⟨rfl, rfl⟩, fun _ _ => rfl, fun _ _ => rfl⟩

theorem puts_status : Puts putStatus :=
  ⟨fun _ _ => rfl, fun _ _ => ⟨rfl, rfl⟩, fun _ _ => rfl, fun _ _ => rfl⟩

theorem Sound.fits_firstDigit (h : Sound b k parser) {put : HttpParser → ℕ → HttpParser}
    (hput : Puts put) (he : e ≠ .ok) (hs : isPlain s && openElement s = none) :
    Fits b none (firstDigit parser ch e put s) := by
  unfold firstDigit
  split
  · exact fits_fail he
  · exact h.fits_next rfl hs (hput.kept ..) (hput.nread ..) (hput.length ..)

theorem Sound.fits_nextDigit (h : Sound b k parser) {put : HttpParser → ℕ → HttpParser}
    {value : ℕ} (hput : Puts put) (he : e ≠ .ok)
    (hs : isPlain parser.state && openElement parser.state = none) :
    Fits b none (nextDigit parser ch e value put) := by
  unfold nextDigit
  split
  · exact fits_fail he
  · dsimp only
    split
    · exact fits_fail he
    · exact h.fits_next (hput.state ..) hs (hput.kept ..) (hput.nread ..) (hput.length ..)

theorem Sound.fits_resHttpMajor (h : Sound b k parser) (hs : parser.state = .resHttpMajor) :
    Fits b none (resHttpMajor parser ch) := by
  unfold resHttpMajor
  split
  · exact h.fits_next rfl rfl ⟨rfl, rfl⟩ rfl rfl
  · exact h.fits_nextDigit puts_major nofun (hs ▸ rfl)

theorem Sound.fits_resHttpMinor (h : Sound b k parser) (hs : parser.state = .resHttpMinor) :
    Fits b none (resHttpMinor parser ch) := by
  unfold resHttpMinor
  split
  · exact h.fits_next rfl rfl ⟨rfl, rfl⟩ rfl rfl
  · exact h.fits_nextDigit puts_minor nofun (hs ▸ rfl)

theorem Sound.fits_resFirstStatusCode (h : Sound b k parser)
    (hs : parser.state = .resFirstStatusCode) : Fits b none (resFirstStatusCode parser ch) := by
  unfold resFirstStatusCode
  split
  · exact h.fits_next hs rfl ⟨rfl, rfl⟩ rfl rfl
  · exact h.fits_firstDigit puts_status nofun rfl

theorem Sound.fits_resStatusCode (h : Sound b k parser) (hs : parser.state = .resStatusCode) :
    Fits b none (resStatusCode parser ch) := by
  unfold resStatusCode
  split_ifs
  · exact h.fits_next rfl rfl ⟨rfl, rfl⟩ rfl rfl
  · exact h.fits_next rfl rfl ⟨rfl, rfl⟩ rfl rfl
  · exact h.fits_next rfl rfl ⟨rfl, rfl⟩ rfl rfl
  · exact h.fits_nextDigit puts_status nofun (hs ▸ rfl)

theorem Sound.fits_reqFirstHttpMajor (h : Sound b k parser) :
    Fits b none (reqFirstHttpMajor parser ch) := by
  unfold reqFirstHttpMajor
  split
  · exact fits_fail nofun
  · exact h.fits_firstDigit puts_major nofun rfl

theorem Sound.fits_reqHttpMajor (h : Sound b k parser) (hs : parser.state = .reqHttpMajor) :
    Fits b none (reqHttpMajor parser ch) := by
  unfold reqHttpMajor
  split
  · exact h.fits_next rfl rfl ⟨rfl, rfl⟩ rfl rfl
  · exact h.fits_nextDigit puts_major nofun (hs ▸ rfl)

theorem Sound.fits_reqHttpMinor (h : Sound b k parser) (hs : parser.state = .reqHttpMinor) :
    Fits b none (reqHttpMinor parser ch) := by
  unfold reqHttpMinor
  split_ifs
  · exact h.fits_next rfl rfl ⟨rfl, rfl⟩ rfl rfl
  · exact h.fits_next rfl rfl ⟨rfl, rfl⟩ rfl rfl
  · exact h.fits_nextDigit puts_minor nofun (hs ▸ rfl)

theorem Sound.fits_dead (h : Sound b k parser) (hs : parser.state = .dead) :
    Fits b none (dead parser ch) := by
  unfold dead
  split
  · exact h.fits_next hs rfl ⟨rfl, rfl⟩ rfl rfl
  · exact fits_fail nofun

theorem two_le_methodString (m : HttpMethod) : 2 ≤ (methodString m).length := by
  cases m <;> decide

theorem Sound.fits_startReq (h : Sound b k parser) (hs : parser.state = .startReq) :
    Fits b none (startReq settings parser ch) := by
  unfold startReq
  split_ifs
  · exact h.fits_next hs rfl ⟨rfl, rfl⟩ rfl rfl
  · exact fits_fail nofun
  · split
    · exact fits_fail nofun
    · refine fits_notify h.ok ⟨rfl, h.ok, h.lenient, h.nread, le_rfl, nofun, ?_⟩
      exact Nat.le_of_succ_le (two_le_methodString _)

theorem Sound.fits_startReqOrRes (h : Sound b k parser) (hs : parser.state = .startReqOrRes) :
    Fits b none (startReqOrRes settings parser ch) := by
  unfold startReqOrRes
  split_ifs
  · exact h.fits_next hs rfl ⟨rfl, rfl⟩ rfl rfl
  · exact fits_notify h.ok ⟨rfl, h.ok, h.lenient, h.nread, le_rfl, nofun, trivial⟩
  · exact Sound.fits_startReq (k := 0) ⟨h.ok, h.lenient, h.nread, le_rfl, nofun, trivial⟩ rfl

theorem Sound.fits_resOrRespH (h : Sound b k parser) : Fits b none (resOrRespH parser ch) := by
  unfold resOrRespH
  split_ifs
  · exact h.fits_next rfl rfl ⟨rfl, rfl⟩ rfl rfl
  · exact fits_fail nofun
  · exact ⟨rfl, h.ok, h.lenient, h.nread, h.length, nofun, two_le_methodString .HEAD⟩

theorem Sound.fits_startRes (h : Sound b k parser) (hs : parser.state = .startRes) :
    Fits b none (startRes settings parser ch) := by
  have hnew : Sound b 0 { parser with flags := noFlags, contentLength := ULLONG_MAX } :=
    h.plain (s := .startRes) rfl hs ⟨rfl, rfl⟩ rfl le_rfl
  unfold startRes
  dsimp only
  split_ifs
  · exact fits_notify h.ok (hnew.fits_next rfl rfl ⟨rfl, rfl⟩ rfl rfl)
  · exact fits_notify h.ok (hnew.fits_next hs rfl ⟨rfl, rfl⟩ rfl rfl)
  · exact fits_fail nofun

theorem Sound.fits_resStatusStart (h : Sound b k parser) :
    Fits b none (resStatusStart parser ch) := by
  unfold resStatusStart
  split_ifs
  · exact h.fits_next rfl rfl ⟨rfl, rfl⟩ rfl rfl
  · exact h.fits_next rfl rfl ⟨rfl, rfl⟩ rfl rfl
  · exact ⟨rfl, rfl, h.plain (s := .resStatus) rfl rfl ⟨rfl, rfl⟩ rfl h.length⟩

/-- A text ends in a state that asks for nothing. -/
theorem Sound.fits_endText (h : Sound b k parser) {el : Element}
    (hs : isPlain s && openElement s = none) : Fits b (some el) (endText parser el s) :=
  ⟨.inl rfl, h.ok, h.fits_next rfl hs ⟨rfl, rfl⟩ rfl rfl⟩

theorem Sound.fits_resStatus (h : Sound b k parser) (hs : parser.state = .resStatus) :
    Fits b (some .status) (resStatus parser ch) := by
  unfold resStatus
  split_ifs
  · exact h.fits_endText rfl
  · exact h.fits_endText rfl
  · exact h.fits_stay (hs ▸ rfl) (hs ▸ rfl) rfl ⟨rfl, rfl⟩ rfl rfl

theorem mem_of_lookup {α β : Type} [BEq α] [LawfulBEq α] {l : List (α × β)} {a : α} {b : β}
    (h : l.lookup a = some b) : (a, b) ∈ l := by
  obtain ⟨l₁, l₂, rfl, -⟩ := List.lookup_eq_some_iff.mp h
  exact List.mem_append_right _ List.mem_cons_self

/-- A branch leads to a method whose name is longer than what has been read of it. -/
theorem lt_length_of_branch {m method : HttpMethod} {i : ℕ}
    (h : methodBranches.lookup (m, i, ch) = some method) :
    i < (methodString method).length := by
  have hall : ∀ x ∈ methodBranches, x.1.2.1 < (methodString x.2).length := by decide
  exact hall _ (mem_of_lookup h)

/-- A character more of a method that is not at its end. -/
theorem Sound.fits_nextIndex (h : Sound b k parser) {q : HttpParser} (hs : q.state = .reqMethod)
    (hkept : Kept parser q) (hnread : q.nread = parser.nread)
    (hlen : q.contentLength = parser.contentLength)
    (hlt : q.index < (methodString q.method).length) :
    Fits b none (.next (nextIndex q)) := by
  refine ⟨?_, hkept.1.trans h.ok, hkept.2.trans h.lenient, hnread ▸ h.nread, hlen ▸ h.length,
    ?_, ?_⟩
  · exact hs ▸ rfl
  · intro hq
    exact nomatch hs.symm.trans hq
  · have : (nextIndex q).state = .reqMethod := hs
    rw [this]
    exact (Nat.mod_le _ _).trans hlt

theorem Sound.fits_reqMethod (h : Sound b k parser) (hs : parser.state = .reqMethod) :
    Fits b none (reqMethod parser ch) := by
  have hle : parser.index ≤ (methodString parser.method).length := by
    have := h.state
    rwa [hs] at this
  unfold reqMethod
  split
  · exact fits_fail nofun
  rename_i h0
  split
  · rename_i hnone
    rw [List.getElem?_eq_none_iff, List.length_append, List.length_singleton] at hnone
    omega
  rename_i m hm
  split
  · exact h.fits_next rfl rfl ⟨rfl, rfl⟩ rfl rfl
  split
  · -- the name's end is not what was read
    rename_i hch
    refine h.fits_nextIndex hs ⟨rfl, rfl⟩ rfl rfl (lt_of_le_of_ne hle ?_)
    intro hend
    rw [hend, List.getElem?_concat_length, Option.some.injEq] at hm
    exact h0 (hch.trans hm.symm)
  split
  · split
    · exact fits_fail nofun
    · rename_i method hmethod
      exact h.fits_nextIndex hs ⟨rfl, rfl⟩ rfl rfl (lt_length_of_branch hmethod)
  split
  · rename_i hdash
    exact h.fits_nextIndex hs ⟨rfl, rfl⟩ rfl rfl
      (hdash.2.1.trans_lt (two_le_methodString .MSEARCH))
  · exact fits_fail nofun

/-- The states of a URL. -/
def isUrlState (s : State) : Bool := openElement s = some .url

theorem parseUrlChar_url (s : State) (h : parseUrlChar s ch ≠ .dead) :
    isUrlState (parseUrlChar s ch) := by
  have hserver : parseUrlChar.server ch ≠ .dead → isUrlState (parseUrlChar.server ch) := by
    unfold parseUrlChar.server
    split_ifs <;> first | exact fun _ => rfl | exact fun h => absurd rfl h
  revert h
  unfold parseUrlChar
  split
  · exact fun h => absurd rfl h
  · split <;> try split_ifs
    all_goals first | exact fun _ => rfl | exact hserver | exact fun h => absurd rfl h

theorem isPlain_of_url (h : isUrlState s) : isPlain s := by
  cases s <;> first | rfl | exact nomatch h

theorem Sound.fits_urlChar (h : Sound b k parser) : Fits b (some .url) (urlChar parser ch) := by
  unfold urlChar
  dsimp only
  split
  · exact fits_fail nofun
  · rename_i hdead
    have hurl := parseUrlChar_url _ hdead
    exact ⟨(of_decide_eq_true hurl).symm,
      h.plain (isPlain_of_url hurl) rfl ⟨rfl, rfl⟩ rfl h.length⟩

theorem Sound.fits_reqSpacesBeforeUrl (h : Sound b k parser)
    (hs : parser.state = .reqSpacesBeforeUrl) : Fits b none (reqSpacesBeforeUrl parser ch) := by
  unfold reqSpacesBeforeUrl
  split
  · exact h.fits_next hs rfl ⟨rfl, rfl⟩ rfl rfl
  · refine ⟨rfl, ?_⟩
    split
    · exact Sound.fits_urlChar (k := 0)
        (h.plain (s := .reqServerStart) rfl rfl ⟨rfl, rfl⟩ rfl h.length)
    · exact h.fits_urlChar

theorem Sound.fits_reqSchema (h : Sound b k parser) : Fits b (some .url) (reqSchema parser ch) := by
  unfold reqSchema
  split
  · exact fits_fail nofun
  · exact h.fits_urlChar

theorem Sound.fits_reqUrl (h : Sound b k parser) : Fits b (some .url) (reqUrl parser ch) := by
  unfold reqUrl
  split_ifs
  · exact h.fits_endText rfl
  · exact ⟨.inl rfl, h.ok, h.fits_next rfl rfl ⟨rfl, rfl⟩ rfl rfl⟩
  · exact ⟨.inl rfl, h.ok, h.fits_next rfl rfl ⟨rfl, rfl⟩ rfl rfl⟩
  · exact h.fits_urlChar

theorem Sound.fits_reqHttpStart (h : Sound b k parser) (hs : parser.state = .reqHttpStart) :
    Fits b none (reqHttpStart parser ch) := by
  unfold reqHttpStart
  split_ifs
  · exact h.fits_next rfl rfl ⟨rfl, rfl⟩ rfl rfl
  · exact h.fits_next hs rfl ⟨rfl, rfl⟩ rfl rfl
  · exact fits_fail nofun

/-- A message ends in a state that waits for the next one, or in `s_dead`. -/
theorem newMessage_plain (q : HttpParser) :
    isPlain (newMessage q) && openElement (newMessage q) = none := by
  unfold newMessage startState
  split_ifs <;> rfl

theorem newMessage_cases (q : HttpParser) :
    newMessage q = .dead ∨ newMessage q = .startReq ∨ newMessage q = .startRes := by
  unfold newMessage startState
  split_ifs
  · exact .inr (.inl rfl)
  · exact .inr (.inr rfl)
  · exact .inl rfl

theorem Sound.fits_newMessage (h : Sound b k parser) :
    Fits b none (.next { parser with state := newMessage parser }) :=
  h.fits_next rfl (newMessage_plain parser) ⟨rfl, rfl⟩ rfl rfl

theorem Sound.fits_messageDone (h : Sound b k parser) :
    Fits b none (messageDone settings parser) := by
  unfold messageDone
  refine fits_notify h.ok ?_
  split
  · rename_i hupgrade
    exact fun _ => ⟨rfl, rfl, ⟨hupgrade, newMessage_cases parser⟩, h.fits_newMessage.2⟩
  · exact h.fits_newMessage

theorem Sound.fits_endMessage (h : Sound b k parser) : Fits b none (endMessage settings parser) :=
  fits_notify h.ok h.fits_newMessage

theorem Sound.fits_headersDone (h : Sound b k parser) (hs : parser.state = .headersDone) :
    Fits b none (headersDone settings parser ch) := by
  have hnew : Sound b 0 { parser with nread := 0 } :=
    ⟨h.ok, h.lenient, Nat.zero_le _, h.length, fun _ => rfl, hs ▸ trivial⟩
  unfold headersDone
  split
  · exact fits_fail nofun
  dsimp only
  split
  · rename_i hupgrade
    exact fits_notify h.ok fun _ =>
      ⟨rfl, rfl, ⟨hupgrade.1, newMessage_cases _⟩, hnew.fits_newMessage.2⟩
  split
  · exact hnew.fits_endMessage
  split
  · rename_i hchunked
    exact ⟨rfl, h.ok, h.lenient, Nat.zero_le _, h.length, fun _ => rfl, hchunked⟩
  split
  · exact hnew.fits_endMessage
  rename_i hzero
  split
  · rename_i hmax
    exact ⟨rfl, h.ok, h.lenient, Nat.zero_le _, h.length, nofun, Nat.pos_of_ne_zero hzero,
      lt_of_le_of_ne h.length hmax⟩
  split
  · exact hnew.fits_endMessage
  · exact hnew.fits_next rfl rfl ⟨rfl, rfl⟩ rfl rfl

theorem Sound.fits_headersAlmostDone (h : Sound b k parser) :
    Fits b none (headersAlmostDone settings parser ch) := by
  have hdone (q : HttpParser) (hstate : q.state = .headersDone)
      (hkept : Kept parser q) (hnread : q.nread = parser.nread)
      (hlen : q.contentLength = parser.contentLength) : Fits b none (headersDone settings q ch) :=
    Sound.fits_headersDone (k := 0)
      (h.plain (s := .headersDone) rfl hstate hkept hnread (hlen ▸ h.length)) hstate
  unfold headersAlmostDone
  split
  · exact fits_fail nofun
  split
  · exact fits_notify h.ok
      (Sound.fits_messageDone (k := 0)
        (h.plain (s := .messageDone) rfl rfl ⟨rfl, rfl⟩ rfl h.length))
  split
  · exact fits_fail nofun
  dsimp only
  split
  · exact hdone _ rfl ⟨rfl, rfl⟩ rfl rfl
  · exact ⟨rfl, hdone _ rfl ⟨rfl, rfl⟩ rfl rfl⟩
  · exact ⟨rfl, hdone _ rfl ⟨rfl, rfl⟩ rfl rfl⟩
  · exact ⟨rfl, hdone _ rfl ⟨rfl, rfl⟩ rfl rfl⟩
  · exact ⟨rfl, fits_fail nofun⟩

theorem Sound.fits_headerFieldStart (h : Sound b k parser) :
    Fits b none (headerFieldStart settings parser ch) := by
  unfold headerFieldStart
  split
  · exact h.fits_next rfl rfl ⟨rfl, rfl⟩ rfl rfl
  split
  · exact Sound.fits_headersAlmostDone (k := 0)
      (h.plain (s := .headersAlmostDone) rfl rfl ⟨rfl, rfl⟩ rfl h.length)
  split
  · exact fits_fail nofun
  · refine ⟨rfl, rfl, h.ok, h.lenient, h.nread, h.length, nofun, ?_⟩
    change isFieldState _ = true
    split_ifs <;> rfl

theorem isFieldState_matchName {name : Str} {i : ℕ} {c : Byte} {miss here hit : HeaderState}
    (hmiss : isFieldState miss) (hhere : isFieldState here) (hhit : isFieldState hit) :
    isFieldState (matchName name i c miss here hit) := by
  unfold matchName
  split_ifs
  · exact hmiss
  · exact hhit
  · exact hhere

theorem Sound.fits_headerFieldChar (h : Sound b k parser) (hs : parser.state = .headerField) :
    Fits b (some .headerField) (headerFieldChar parser ch) := by
  have hfield : isFieldState parser.headerState := by
    have := h.state
    rwa [hs] at this
  -- a name that goes on in a header state of names
  have hnext (q : HttpParser) (hstate : q.state = parser.state)
      (hkept : Kept parser q) (hnread : q.nread = parser.nread)
      (hlen : q.contentLength = parser.contentLength) (hq : isFieldState q.headerState) :
      Fits b (some .headerField) (.next q) := by
    have hq' : q.state = .headerField := hstate.trans hs
    refine ⟨hq' ▸ rfl, hkept.1.trans h.ok, hkept.2.trans h.lenient, hnread ▸ h.nread,
      hlen ▸ h.length, ?_, hq' ▸ hq⟩
    intro hchunk
    exact nomatch hq'.symm.trans hchunk
  unfold headerFieldChar
  dsimp only
  split
  case h_1 => exact hnext _ rfl ⟨rfl, rfl⟩ rfl rfl hfield
  case h_2 | h_3 | h_4 =>
    refine hnext _ rfl ⟨rfl, rfl⟩ rfl rfl ?_
    split_ifs <;> rfl
  case h_5 | h_6 | h_8 | h_9 =>
    exact hnext _ rfl ⟨rfl, rfl⟩ rfl rfl (isFieldState_matchName rfl hfield rfl)
  case h_7 =>
    split_ifs
    · exact fits_fail nofun
    · exact hnext _ rfl ⟨rfl, rfl⟩ rfl rfl (isFieldState_matchName rfl hfield rfl)
    · exact hnext _ rfl ⟨rfl, rfl⟩ rfl rfl (isFieldState_matchName rfl hfield rfl)
  case h_10 | h_11 | h_12 | h_13 =>
    refine hnext _ rfl ⟨rfl, rfl⟩ rfl rfl ?_
    dsimp only
    split
    · rfl
    · exact hfield
  case h_14 =>
    unfold isFieldState at hfield
    split at hfield <;> contradiction

theorem Sound.fits_value (h : Sound b k parser) {q : HttpParser} (hstate : q.state = .headerValue)
    (hkept : Kept parser q) (hnread : q.nread = parser.nread)
    (hlen : q.contentLength ≤ ULLONG_MAX) (hq : isValueState q.headerState) :
    Fits b (some .headerValue) (.next q) := by
  refine ⟨hstate ▸ rfl, hkept.1.trans h.ok, hkept.2.trans h.lenient, hnread ▸ h.nread, hlen,
    ?_, ?_⟩
  · intro hchunk
    exact nomatch hstate.symm.trans hchunk
  · rw [hstate]
    exact hq

theorem digit_le (ch : Byte) : digit ch ≤ ULLONG_MAX :=
  (Nat.sub_le _ _).trans (ch.isLt.le.trans (by decide))

theorem Sound.fits_headerValueStart (h : Sound b k parser) :
    Fits b none (headerValueStart parser ch) := by
  unfold headerValueStart
  refine ⟨rfl, ?_⟩
  dsimp only
  split
  case h_1 => exact h.fits_value rfl ⟨rfl, rfl⟩ rfl h.length rfl
  case h_2 =>
    refine h.fits_value rfl ⟨rfl, rfl⟩ rfl h.length ?_
    dsimp only
    split_ifs <;> rfl
  case h_3 hc =>
    split_ifs
    · exact fits_fail nofun
    · refine h.fits_value rfl ⟨rfl, rfl⟩ rfl (digit_le ch) ?_
      rw [hc]
      rfl
  case h_4 =>
    refine h.fits_value rfl ⟨rfl, rfl⟩ rfl h.length ?_
    dsimp only
    split_ifs <;> rfl
  case h_5 hc =>
    refine h.fits_value rfl ⟨rfl, rfl⟩ rfl h.length ?_
    rw [hc]
    rfl
  case h_6 => exact h.fits_value rfl ⟨rfl, rfl⟩ rfl h.length rfl

theorem Sound.fits_headerValueDiscardWs (h : Sound b k parser)
    (hs : parser.state = .headerValueDiscardWs) : Fits b none (headerValueDiscardWs parser ch) := by
  unfold headerValueDiscardWs
  split_ifs
  · exact h.fits_next hs rfl ⟨rfl, rfl⟩ rfl rfl
  · exact h.fits_next rfl rfl ⟨rfl, rfl⟩ rfl rfl
  · exact h.fits_next rfl rfl ⟨rfl, rfl⟩ rfl rfl
  · exact h.fits_headerValueStart

theorem Sound.finishHeader (h : Sound b k parser) (hs : isPlain s) :
    Sound b 0 { finishHeader parser with state := s } := h.plain hs rfl ⟨rfl, rfl⟩ rfl h.length

theorem Sound.fits_headerValueLws (h : Sound b k parser) :
    Fits b none (headerValueLws settings parser ch) := by
  unfold headerValueLws
  split
  · exact Sound.fits_headerValueStart (k := 0)
      (h.plain (s := .headerValueStart) rfl rfl ⟨rfl, rfl⟩ rfl h.length)
  · exact (h.finishHeader (s := .headerFieldStart) rfl).fits_headerFieldStart

theorem Sound.fits_headerValueDiscardLws (h : Sound b k parser) :
    Fits b none (headerValueDiscardLws settings parser ch) := by
  unfold headerValueDiscardLws
  split
  · exact h.fits_next rfl rfl ⟨rfl, rfl⟩ rfl rfl
  · exact ⟨rfl, .inl rfl, h.ok,
      (h.finishHeader (s := .headerFieldStart) rfl).fits_headerFieldStart⟩

/-- A round of the loop over a value that goes on, or that refuses the character. -/
def ValueFits (b : Bool) : Value → Prop
  | .next q h => q.state = .headerValue ∧ Sound b 0 { q with headerState := h }
  | .fail _ e => e ≠ .ok
  | .abort => False

theorem isValueState_matchName {name : Str} {i : ℕ} {c : Byte} {miss here hit : HeaderState}
    (hmiss : isValueState miss) (hhere : isValueState here) (hhit : isValueState hit) :
    isValueState (matchName name i c miss here hit) := by
  unfold matchName
  split_ifs
  · exact hmiss
  · exact hhit
  · exact hhere

theorem Sound.fits_headerValueChar (h : Sound b k parser) (hs : parser.state = .headerValue)
    {hst : HeaderState} (hvalue : isValueState hst) :
    ValueFits b (headerValueChar parser hst ch) := by
  have hnext (q : HttpParser) (hst' : HeaderState) (hstate : q.state = .headerValue)
      (hkept : Kept parser q) (hnread : q.nread = parser.nread)
      (hlen : q.contentLength ≤ ULLONG_MAX) (hq : isValueState hst') :
      ValueFits b (.next q hst') :=
    ⟨hstate, (h.fits_value (q := { q with headerState := hst' }) hstate hkept hnread hlen hq).2⟩
  unfold headerValueChar
  dsimp only
  split
  case h_1 => exact hnext _ _ hs ⟨rfl, rfl⟩ rfl h.length rfl
  case h_2 | h_3 => exact nomatch hvalue
  case h_4 =>
    split
    · exact hnext _ _ hs ⟨rfl, rfl⟩ rfl h.length hvalue
    split
    · exact nofun
    split
    · exact nofun
    · exact hnext _ _ hs ⟨rfl, rfl⟩ rfl (Nat.le_pred_of_lt (Nat.mod_lt _ (by decide))) hvalue
  case h_5 => exact hnext _ _ hs ⟨rfl, rfl⟩ rfl h.length (isValueState_matchName rfl hvalue rfl)
  case h_6 =>
    refine hnext _ _ hs ⟨rfl, rfl⟩ rfl h.length ?_
    split_ifs <;> rfl
  case h_7 | h_8 | h_9 =>
    exact hnext _ _ hs ⟨rfl, rfl⟩ rfl h.length (isValueState_matchName rfl hvalue rfl)
  case h_10 =>
    split_ifs
    · exact hnext _ _ hs ⟨rfl, rfl⟩ rfl h.length rfl
    · exact hnext _ _ hs ⟨rfl, rfl⟩ rfl h.length hvalue
  case h_11 =>
    refine hnext _ _ hs ⟨rfl, rfl⟩ rfl h.length ?_
    split_ifs <;> rfl
  case h_12 | h_13 | h_14 =>
    split
    · exact hnext _ _ hs ⟨rfl, rfl⟩ rfl h.length rfl
    · refine hnext _ _ hs ⟨rfl, rfl⟩ rfl h.length ?_
      split_ifs <;> rfl
  case h_15 => exact hnext _ _ rfl ⟨rfl, rfl⟩ rfl h.length rfl

theorem unhex_lt {v : ℕ} (h : unhex ch = some v) : v < 16 := by
  have hall : ∀ c : BitVec 8, (unhex c).all (· < 16) := by decide +kernel
  have := hall ch
  rw [h] at this
  exact of_decide_eq_true this

theorem Sound.fits_chunkSizeStart (h : Sound b 1 parser) (hs : parser.state = .chunkSizeStart) :
    Fits b none (chunkSizeStart parser ch) := by
  have hchunked : parser.flags.chunked := by
    have := h.state
    rwa [hs] at this
  unfold chunkSizeStart
  refine fits_assert (h.chunk hs) (fits_assert hchunked ?_)
  split
  · exact fits_fail nofun
  · rename_i v hv
    have hlt : v < ULLONG_MAX := (unhex_lt hv).trans (by decide)
    exact ⟨rfl, h.ok, h.lenient, h.nread, hlt.le, nofun, hchunked, hlt⟩

theorem Sound.fits_chunkSize (h : Sound b k parser) (hs : parser.state = .chunkSize) :
    Fits b none (chunkSize parser ch) := by
  obtain ⟨hchunked, hlt⟩ : parser.flags.chunked ∧ parser.contentLength < ULLONG_MAX := by
    have := h.state
    rwa [hs] at this
  unfold chunkSize
  refine fits_assert hchunked ?_
  split
  · exact ⟨rfl, h.ok, h.lenient, h.nread, h.length, nofun, hchunked, hlt⟩
  split
  · split
    · exact ⟨rfl, h.ok, h.lenient, h.nread, h.length, nofun, hchunked, hlt⟩
    · exact fits_fail nofun
  · rename_i v hv
    dsimp only
    split
    · exact fits_fail nofun
    · rename_i hmax
      have hv := unhex_lt hv
      have hsmall : (parser.contentLength * 16 + v) % 2 ^ 64 < ULLONG_MAX := by
        unfold ULLONG_MAX at hmax ⊢
        omega
      refine ⟨hs ▸ rfl, h.ok, h.lenient, h.nread, hsmall.le, ?_, ?_⟩
      · intro hchunk
        exact nomatch hs.symm.trans hchunk
      · dsimp only
        rw [hs]
        exact ⟨hchunked, hsmall⟩

theorem Sound.fits_chunkParameters (h : Sound b k parser) (hs : parser.state = .chunkParameters) :
    Fits b none (chunkParameters parser ch) := by
  obtain ⟨hchunked, hlt⟩ : parser.flags.chunked ∧ parser.contentLength < ULLONG_MAX := by
    have := h.state
    rwa [hs] at this
  unfold chunkParameters
  refine fits_assert hchunked ?_
  split
  · exact ⟨rfl, h.ok, h.lenient, h.nread, h.length, nofun, hchunked, hlt⟩
  · refine ⟨hs ▸ rfl, h.ok, h.lenient, h.nread, h.length, ?_, hs ▸ ⟨hchunked, hlt⟩⟩
    intro hchunk
    exact nomatch hs.symm.trans hchunk

theorem Sound.fits_chunkSizeAlmostDone (h : Sound b k parser)
    (hs : parser.state = .chunkSizeAlmostDone) :
    Fits b none (chunkSizeAlmostDone settings parser ch) := by
  obtain ⟨hchunked, hlt⟩ : parser.flags.chunked ∧ parser.contentLength < ULLONG_MAX := by
    have := h.state
    rwa [hs] at this
  unfold chunkSizeAlmostDone
  refine fits_assert hchunked ?_
  split
  · exact fits_fail nofun
  · dsimp only
    split
    · exact fits_notify h.ok ⟨rfl, h.ok, h.lenient, Nat.zero_le _, h.length, nofun, trivial⟩
    · rename_i hzero
      exact fits_notify h.ok ⟨rfl, h.ok, h.lenient, Nat.zero_le _, h.length, nofun, hchunked,
        Nat.pos_of_ne_zero hzero, hlt⟩

theorem Sound.fits_chunkDataAlmostDone (h : Sound b k parser)
    (hs : parser.state = .chunkDataAlmostDone) (ho : o = none ∨ o = some .body) :
    Fits b o (chunkDataAlmostDone parser ch) := by
  obtain ⟨hchunked, hzero⟩ : parser.flags.chunked ∧ parser.contentLength = 0 := by
    have := h.state
    rwa [hs] at this
  unfold chunkDataAlmostDone
  refine fits_assert hchunked (fits_assert hzero ?_)
  split
  · exact fits_fail nofun
  · refine ⟨?_, h.ok, rfl, h.ok, h.lenient, h.nread, h.length, nofun, hchunked⟩
    exact ho.symm.imp_right fun ho => ⟨ho, rfl⟩

theorem Sound.fits_chunkDataDone (h : Sound b k parser) (hs : parser.state = .chunkDataDone) :
    Fits b none (chunkDataDone settings parser ch) := by
  have hchunked : parser.flags.chunked := by
    have := h.state
    rwa [hs] at this
  unfold chunkDataDone
  refine fits_assert hchunked ?_
  split
  · exact fits_fail nofun
  · exact fits_notify h.ok
      ⟨rfl, h.ok, h.lenient, Nat.zero_le _, h.length, fun _ => rfl, hchunked⟩

/-- The states whose case loops over several characters. -/
def isLoopState : State → Bool
  | .headerField | .headerValue | .bodyIdentity | .bodyIdentityEof | .chunkData => true
  | _ => false

/-- Every case keeps what holds between two characters, fails no assertion, reads inside the
names of the methods and leaves the marks as the next state needs them. -/
theorem Sound.fits_switch (h : Sound b 1 parser) (hloop : isLoopState parser.state = false)
    (ho : Opens parser.state o) : Fits b o (switch settings parser ch) := by
  rcases ho with rfl | ⟨hs, rfl⟩
  · unfold switch
    cases hs : parser.state
    case dead => exact h.fits_dead hs
    case startReqOrRes => exact h.fits_startReqOrRes hs
    case resOrRespH => exact h.fits_resOrRespH
    case startRes => exact h.fits_startRes hs
    case resH | resHT | resHTT | resHTTP | resLineAlmostDone | reqHttpH | reqHttpHT | reqHttpHTT
        | reqHttpHTTP | reqLineAlmostDone | headerAlmostDone | headerValueDiscardWsAlmostDone =>
      exact h.fits_expect nofun rfl
    case resFirstHttpMajor => exact h.fits_firstDigit puts_major nofun rfl
    case resHttpMajor => exact h.fits_resHttpMajor hs
    case resFirstHttpMinor => exact h.fits_firstDigit puts_minor nofun rfl
    case resHttpMinor => exact h.fits_resHttpMinor hs
    case resFirstStatusCode => exact h.fits_resFirstStatusCode hs
    case resStatusCode => exact h.fits_resStatusCode hs
    case resStatusStart => exact h.fits_resStatusStart
    case resStatus => exact h.fits_resStatus hs
    case startReq => exact h.fits_startReq hs
    case reqMethod => exact h.fits_reqMethod hs
    case reqSpacesBeforeUrl => exact h.fits_reqSpacesBeforeUrl hs
    case reqSchema | reqSchemaSlash | reqSchemaSlashSlash | reqServerStart => exact h.fits_reqSchema
    case reqServer | reqServerWithAt | reqPath | reqQueryStringStart | reqQueryString
        | reqFragmentStart | reqFragment => exact h.fits_reqUrl
    case reqHttpStart => exact h.fits_reqHttpStart hs
    case reqFirstHttpMajor => exact h.fits_reqFirstHttpMajor
    case reqHttpMajor => exact h.fits_reqHttpMajor hs
    case reqFirstHttpMinor => exact h.fits_firstDigit puts_minor nofun rfl
    case reqHttpMinor => exact h.fits_reqHttpMinor hs
    case headerFieldStart => exact h.fits_headerFieldStart
    case headerValueDiscardWs => exact h.fits_headerValueDiscardWs hs
    case headerValueDiscardLws => exact h.fits_headerValueDiscardLws
    case headerValueStart => exact h.fits_headerValueStart
    case headerValueLws => exact h.fits_headerValueLws
    case chunkSizeStart => exact h.fits_chunkSizeStart hs
    case chunkSize => exact h.fits_chunkSize hs
    case chunkParameters => exact h.fits_chunkParameters hs
    case chunkSizeAlmostDone => exact h.fits_chunkSizeAlmostDone hs
    case headersAlmostDone => exact h.fits_headersAlmostDone
    case headersDone => exact h.fits_headersDone hs
    case chunkDataAlmostDone => exact h.fits_chunkDataAlmostDone hs (.inl rfl)
    case chunkDataDone => exact h.fits_chunkDataDone hs
    case messageDone => exact h.fits_messageDone
    case headerField | headerValue | bodyIdentity | bodyIdentityEof | chunkData =>
      rw [hs] at hloop
      exact nomatch hloop
  · unfold switch
    rw [hs]
    exact h.fits_chunkDataAlmostDone hs (.inr rfl)

end HttpParserSound
