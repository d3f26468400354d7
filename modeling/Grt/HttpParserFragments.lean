import Grt.HttpParserRuns

/-! How a message is cut into buffers: what is accepted in pieces is accepted as one buffer, with
the same calls but for the cuts and the same parser but for its counter of header bytes. -/
namespace HttpParserFragments

open LittleEndian HttpParserState HttpParserSwitch HttpParserSound PieceStream
open HttpParserExecute hiding headerField headerValue bodyIdentity chunkData perform
open HttpParserMachine HttpParserMarks HttpParserHeaderLoops HttpParserInvariant
open HttpParserRefinement HttpParserRuns

/-- The same parser with fewer characters counted. -/
def lag (n : ℕ) (parser : HttpParser) : HttpParser :=
  { parser with nread := min n parser.nread }

def Step.lag (n : ℕ) : Step → Step
  | .next parser => .next (HttpParserFragments.lag n parser)
  | .exit parser consumed => .exit (HttpParserFragments.lag n parser) consumed
  | .abort => .abort
  | .mark e rest => .mark e (Step.lag n rest)
  | .data e parser consumed rest =>
    .data e (HttpParserFragments.lag n parser) consumed (Step.lag n rest)
  | .call c rest => .call c (Step.lag n rest)

variable {settings : Settings} {parser : HttpParser} {ch : Byte} {n : ℕ}

theorem lag_reset (parser : HttpParser) (h : parser.nread = 0) : lag n parser = parser := by
  rw [lag, h, Nat.min_zero, ← h]

theorem lag_ite {c : Prop} [Decidable c] (x y : Step) :
    Step.lag n (if c then x else y) = if c then Step.lag n x else Step.lag n y :=
  apply_ite (Step.lag n) c x y

theorem lag_mark (e : Element) (rest : Step) :
    Step.lag n (.mark e rest) = .mark e (Step.lag n rest) := rfl

theorem lag_fail (parser : HttpParser) (e : HttpErrno) :
    Step.lag n (fail parser e) = fail (lag n parser) e := rfl

theorem lag_assert {c : Prop} [Decidable c] (rest : Step) :
    Step.lag n (assert c rest) = assert c (Step.lag n rest) := lag_ite ..

theorem lag_notify (parser : HttpParser) (c : Notify) (consumed : ℕ) (rest : Step) :
    Step.lag n (notify settings c parser consumed rest) =
      notify settings c (lag n parser) consumed (Step.lag n rest) := by
  rw [notify, notify, lag_assert]
  change assert (parser.httpErrno = .ok) _ = assert (parser.httpErrno = .ok) _
  congr 1
  split <;> rfl

theorem lag_expect (parser : HttpParser) (want : Byte) (e : HttpErrno) (next : State) :
    Step.lag n (expect parser ch want e next) = expect (lag n parser) ch want e next := lag_ite ..

theorem lag_endText (parser : HttpParser) (e : Element) (next : State) :
    Step.lag n (endText parser e next) = endText (lag n parser) e next := rfl

/-- Numbers are written beside the counter. -/
def Beside (put : HttpParser → ℕ → HttpParser) : Prop :=
  ∀ n parser v, lag n (put parser v) = put (lag n parser) v

theorem lag_firstDigit {put : HttpParser → ℕ → HttpParser} (hput : Beside put) (parser : HttpParser)
    (e : HttpErrno) (next : State) : Step.lag n (firstDigit parser ch e put next) =
      firstDigit (lag n parser) ch e put next := by
  have hnext (q : HttpParser) : lag n { q with state := next } = { lag n q with state := next } := rfl
  rw [firstDigit, firstDigit, lag_ite, Step.lag, hnext, hput]
  rfl

theorem lag_nextDigit {put : HttpParser → ℕ → HttpParser} (hput : Beside put) (parser : HttpParser)
    (e : HttpErrno) (value : ℕ) : Step.lag n (nextDigit parser ch e value put) =
      nextDigit (lag n parser) ch e value put := by
  rw [nextDigit, nextDigit, lag_ite, lag_ite, lag_fail, lag_fail, Step.lag, hput]

theorem lag_resHttpMajor : Step.lag n (resHttpMajor parser ch) = resHttpMajor (lag n parser) ch := by
  rw [resHttpMajor, lag_ite, lag_nextDigit fun _ _ _ => rfl]
  rfl

theorem lag_resHttpMinor : Step.lag n (resHttpMinor parser ch) = resHttpMinor (lag n parser) ch := by
  rw [resHttpMinor, lag_ite, lag_nextDigit fun _ _ _ => rfl]
  rfl

theorem lag_resFirstStatusCode :
    Step.lag n (resFirstStatusCode parser ch) = resFirstStatusCode (lag n parser) ch := by
  rw [resFirstStatusCode, lag_ite, lag_firstDigit fun _ _ _ => rfl]
  rfl

theorem lag_resStatusCode :
    Step.lag n (resStatusCode parser ch) = resStatusCode (lag n parser) ch := by
  rw [resStatusCode, lag_ite, lag_ite, lag_ite, lag_nextDigit fun _ _ _ => rfl]
  rfl

theorem lag_reqFirstHttpMajor :
    Step.lag n (reqFirstHttpMajor parser ch) = reqFirstHttpMajor (lag n parser) ch := by
  rw [reqFirstHttpMajor, lag_ite, lag_firstDigit fun _ _ _ => rfl]
  rfl

theorem lag_reqHttpMajor : Step.lag n (reqHttpMajor parser ch) = reqHttpMajor (lag n parser) ch := by
  rw [reqHttpMajor, lag_ite, lag_nextDigit fun _ _ _ => rfl]
  rfl

theorem lag_reqHttpMinor : Step.lag n (reqHttpMinor parser ch) = reqHttpMinor (lag n parser) ch := by
  rw [reqHttpMinor, lag_ite, lag_ite, lag_nextDigit fun _ _ _ => rfl]
  rfl

theorem lag_dead : Step.lag n (dead parser ch) = dead (lag n parser) ch := lag_ite ..

theorem lag_startReq :
    Step.lag n (startReq settings parser ch) = startReq settings (lag n parser) ch := by
  rw [startReq, startReq, lag_ite]
  dsimp only
  rw [lag_ite]
  congr 2
  split
  · rfl
  · exact lag_notify ..

theorem lag_startReqOrRes :
    Step.lag n (startReqOrRes settings parser ch) = startReqOrRes settings (lag n parser) ch := by
  rw [startReqOrRes, startReqOrRes, lag_ite]
  dsimp only
  rw [lag_ite, lag_notify, lag_startReq]
  rfl

theorem lag_resOrRespH : Step.lag n (resOrRespH parser ch) = resOrRespH (lag n parser) ch := by
  rw [resOrRespH, lag_ite, lag_ite]
  rfl

theorem lag_startRes :
    Step.lag n (startRes settings parser ch) = startRes settings (lag n parser) ch := by
  rw [startRes, startRes]
  dsimp only
  rw [lag_ite, lag_ite, lag_notify, lag_notify]
  rfl

theorem lag_resStatusStart :
    Step.lag n (resStatusStart parser ch) = resStatusStart (lag n parser) ch := by
  rw [resStatusStart, lag_ite, lag_ite]
  rfl

theorem lag_resStatus : Step.lag n (resStatus parser ch) = resStatus (lag n parser) ch := by
  rw [resStatus, lag_ite, lag_ite]
  rfl

theorem lag_reqMethod : Step.lag n (reqMethod parser ch) = reqMethod (lag n parser) ch := by
  have hmethod : (lag n parser).method = parser.method := rfl
  have hindex : (lag n parser).index = parser.index := rfl
  rw [reqMethod, reqMethod, lag_ite, hmethod, hindex]
  cases (methodString parser.method ++ [0])[parser.index]? with
  | none => rfl
  | some m =>
    dsimp only
    rw [lag_ite, lag_ite, lag_ite, lag_ite]
    cases methodBranches.lookup (parser.method, parser.index, ch) <;> rfl

theorem lag_urlChar : Step.lag n (urlChar parser ch) = urlChar (lag n parser) ch := by
  rw [urlChar]
  dsimp only
  rw [lag_ite]
  rfl

theorem lag_reqSpacesBeforeUrl :
    Step.lag n (reqSpacesBeforeUrl parser ch) = reqSpacesBeforeUrl (lag n parser) ch := by
  rw [reqSpacesBeforeUrl, lag_ite, lag_mark, lag_ite, lag_urlChar, lag_urlChar]
  rfl

theorem lag_reqSchema : Step.lag n (reqSchema parser ch) = reqSchema (lag n parser) ch := by
  rw [reqSchema, lag_ite, lag_urlChar]
  rfl

theorem lag_reqUrl : Step.lag n (reqUrl parser ch) = reqUrl (lag n parser) ch := by
  rw [reqUrl, lag_ite, lag_ite, lag_ite, lag_urlChar]
  rfl

theorem lag_reqHttpStart : Step.lag n (reqHttpStart parser ch) = reqHttpStart (lag n parser) ch := by
  rw [reqHttpStart, lag_ite, lag_ite]
  rfl

theorem lag_messageDone :
    Step.lag n (messageDone settings parser) = messageDone settings (lag n parser) := by
  rw [messageDone]
  dsimp only
  rw [lag_notify, lag_ite]
  rfl

theorem lag_endMessage :
    Step.lag n (endMessage settings parser) = endMessage settings (lag n parser) := lag_notify ..

/-- After the headers nothing is counted any more. -/
theorem lag_headersDone :
    Step.lag n (headersDone settings parser ch) = headersDone settings (lag n parser) ch := by
  have hnext (q : HttpParser) (hq : q.nread = 0) : Step.lag n (.next q) = .next q := by
    rw [Step.lag, lag_reset q hq]
  have hexit (q : HttpParser) (hq : q.nread = 0) : Step.lag n (.exit q 1) = .exit q 1 := by
    rw [Step.lag, lag_reset q hq]
  have hend (q : HttpParser) (hq : q.nread = 0) :
      Step.lag n (endMessage settings q) = endMessage settings q := by
    rw [lag_endMessage, lag_reset q hq]
  rw [headersDone, lag_ite]
  dsimp only
  rw [lag_ite, lag_ite, lag_ite, lag_ite, lag_ite, lag_ite, lag_notify, lag_reset _ rfl, hexit _ rfl,
    hend _ rfl, hnext _ rfl, hnext _ rfl, hnext _ rfl]
  rfl

theorem lag_headersAlmostDone :
    Step.lag n (headersAlmostDone settings parser ch) =
      headersAlmostDone settings (lag n parser) ch := by
  rw [headersAlmostDone, headersAlmostDone, lag_ite, lag_ite, lag_ite]
  dsimp only
  rw [lag_notify, lag_messageDone]
  congr 3
  split
  · exact lag_headersDone
  · exact congrArg (Step.call .headersComplete) lag_headersDone
  · exact congrArg (Step.call .headersComplete) lag_headersDone
  · exact congrArg (Step.call .headersComplete) lag_headersDone
  · rfl

theorem lag_headerFieldStart :
    Step.lag n (headerFieldStart settings parser ch) =
      headerFieldStart settings (lag n parser) ch := by
  rw [headerFieldStart, lag_ite, lag_ite, lag_ite, lag_headersAlmostDone]
  rfl

theorem lag_headerFieldChar :
    Step.lag n (headerFieldChar parser ch) = headerFieldChar (lag n parser) ch := by
  obtain ⟨_, _, _, h, _, _, _, _, _, _, _, _, _, _⟩ := parser
  cases h
  case matchingContentLength => exact (lag_ite ..).trans (if_congr Iff.rfl (lag_ite ..) rfl)
  all_goals rfl

theorem lag_headerValueStart :
    Step.lag n (headerValueStart parser ch) = headerValueStart (lag n parser) ch := by
  obtain ⟨_, _, _, h, _, _, _, _, _, _, _, _, _, _⟩ := parser
  cases h
  case contentLength => exact congrArg (Step.mark .headerValue) (lag_ite ..)
  all_goals rfl

theorem lag_headerValueDiscardWs :
    Step.lag n (headerValueDiscardWs parser ch) = headerValueDiscardWs (lag n parser) ch := by
  rw [headerValueDiscardWs, lag_ite, lag_ite, lag_ite, lag_headerValueStart]
  rfl

theorem lag_headerValueLws :
    Step.lag n (headerValueLws settings parser ch) = headerValueLws settings (lag n parser) ch := by
  rw [headerValueLws, lag_ite, lag_headerValueStart, lag_headerFieldStart]
  rfl

theorem lag_headerValueDiscardLws :
    Step.lag n (headerValueDiscardLws settings parser ch) =
      headerValueDiscardLws settings (lag n parser) ch := by
  rw [headerValueDiscardLws, lag_ite]
  dsimp only
  rw [lag_mark]
  change (if _ then _ else Step.mark .headerValue (.data .headerValue _ 0 (Step.lag n _))) = _
  rw [lag_headerFieldStart]
  rfl

theorem lag_chunkSizeStart (h : parser.nread = 1) (hn : 1 ≤ n) :
    Step.lag n (chunkSizeStart parser ch) = chunkSizeStart (lag n parser) ch := by
  have hlag : lag n parser = parser := by rw [lag, h, Nat.min_eq_right hn, ← h]
  have hnext (v : ℕ) (st : State) :
      lag n { parser with contentLength := v, state := st } =
        { parser with contentLength := v, state := st } := by
    rw [lag, h, Nat.min_eq_right hn]
  rw [hlag, chunkSizeStart, lag_assert, lag_assert]
  congr 2
  split
  · rw [lag_fail, hlag]
  · rw [Step.lag, hnext]

theorem lag_chunkSize : Step.lag n (chunkSize parser ch) = chunkSize (lag n parser) ch := by
  rw [chunkSize, chunkSize, lag_assert, lag_ite]
  congr 2
  split
  · rw [lag_ite]
    rfl
  · dsimp only
    rw [lag_ite]
    rfl

theorem lag_chunkParameters :
    Step.lag n (chunkParameters parser ch) = chunkParameters (lag n parser) ch := by
  rw [chunkParameters, lag_assert, lag_ite]
  rfl

theorem lag_chunkSizeAlmostDone :
    Step.lag n (chunkSizeAlmostDone settings parser ch) =
      chunkSizeAlmostDone settings (lag n parser) ch := by
  rw [chunkSizeAlmostDone, lag_assert, lag_ite]
  dsimp only
  rw [lag_notify, Step.lag, lag_reset _ (by split <;> rfl)]
  rfl

theorem lag_chunkDataAlmostDone :
    Step.lag n (chunkDataAlmostDone parser ch) = chunkDataAlmostDone (lag n parser) ch := by
  rw [chunkDataAlmostDone, lag_assert, lag_assert, lag_ite]
  rfl

theorem lag_chunkDataDone :
    Step.lag n (chunkDataDone settings parser ch) = chunkDataDone settings (lag n parser) ch := by
  rw [chunkDataDone, lag_assert, lag_ite]
  dsimp only
  rw [lag_notify, Step.lag, lag_reset _ rfl]
  rfl

/-- Only the start of a chunk's size looks at the counter. -/
theorem lag_switch (hloop : isLoopState parser.state = false)
    (hchunk : parser.state = .chunkSizeStart → parser.nread = 1 ∧ 1 ≤ n) :
    Step.lag n (switch settings parser ch) = switch settings (lag n parser) ch := by
  unfold switch
  rw [show (lag n parser).state = parser.state from rfl]
  cases hs : parser.state
  case dead => exact lag_dead
  case startReqOrRes => exact lag_startReqOrRes
  case resOrRespH => exact lag_resOrRespH
  case startRes => exact lag_startRes
  case resFirstHttpMajor | resFirstHttpMinor | reqFirstHttpMinor =>
    exact lag_firstDigit (fun _ _ _ => rfl) ..
  case resHttpMajor => exact lag_resHttpMajor
  case resHttpMinor => exact lag_resHttpMinor
  case resFirstStatusCode => exact lag_resFirstStatusCode
  case resStatusCode => exact lag_resStatusCode
  case resStatusStart => exact lag_resStatusStart
  case resStatus => exact lag_resStatus
  case startReq => exact lag_startReq
  case reqMethod => exact lag_reqMethod
  case reqSpacesBeforeUrl => exact lag_reqSpacesBeforeUrl
  case reqSchema | reqSchemaSlash | reqSchemaSlashSlash | reqServerStart => exact lag_reqSchema
  case reqServer | reqServerWithAt | reqPath | reqQueryStringStart | reqQueryString
      | reqFragmentStart | reqFragment => exact lag_reqUrl
  case reqHttpStart => exact lag_reqHttpStart
  case reqFirstHttpMajor => exact lag_reqFirstHttpMajor
  case reqHttpMajor => exact lag_reqHttpMajor
  case reqHttpMinor => exact lag_reqHttpMinor
  case headerFieldStart => exact lag_headerFieldStart
  case headerValueDiscardWs => exact lag_headerValueDiscardWs
  case headerValueStart => exact lag_headerValueStart
  case headerValueLws => exact lag_headerValueLws
  case headerValueDiscardLws => exact lag_headerValueDiscardLws
  case headersAlmostDone => exact lag_headersAlmostDone
  case headersDone => exact lag_headersDone
  case messageDone => exact lag_messageDone
  case chunkSizeStart => exact lag_chunkSizeStart (hchunk hs).1 (hchunk hs).2
  case chunkSize => exact lag_chunkSize
  case chunkParameters => exact lag_chunkParameters
  case chunkSizeAlmostDone => exact lag_chunkSizeAlmostDone
  case chunkDataAlmostDone => exact lag_chunkDataAlmostDone
  case chunkDataDone => exact lag_chunkDataDone
  case headerField | headerValue | bodyIdentity | bodyIdentityEof | chunkData =>
    rw [hs] at hloop
    exact nomatch hloop
  all_goals exact lag_expect ..

def Stream.lag (n : ℕ) (s : Stream) : Stream :=
  { s with parser := HttpParserFragments.lag n s.parser }

theorem map_ite {c : Prop} [Decidable c] (f : Stream → Stream) (x y : Except Refusal Stream) :
    (if c then x else y).map f = if c then x.map f else y.map f := apply_ite (Except.map f) c x y

theorem lag_perform (step : Step) (ch : Byte) (log : List Event) :
    perform ch (Step.lag n step) log = (perform ch step log).map (Stream.lag n) := by
  induction step generalizing log with
  | next parser => rfl
  | exit parser consumed =>
    have hsame : (lag n parser).httpErrno = parser.httpErrno := rfl
    rw [Step.lag, perform, perform, hsame, map_ite]
    rfl
  | abort => rfl
  | mark e rest ih => exact ih _
  | data e parser consumed rest ih => exact ih _
  | call c rest ih => exact ih _

theorem lag_headerField (ch : Byte) (log : List Event) :
    headerField (lag n parser) ch log = (headerField parser ch log).map (Stream.lag n) := by
  rw [headerField, headerField, map_ite, map_ite, ← lag_endText, lag_perform, ← lag_headerFieldChar]
  cases headerFieldChar parser ch <;> rfl

/-- The check of a value's characters, which is left out where the rest of the value is skipped. -/
def refuses (parser : HttpParser) (skipping : Bool) (ch : Byte) : Bool :=
  !skipping && !parser.lenientHttpHeaders && !isHeaderChar ch

theorem lag_headerValue {skipping skipping' : Bool} {ch : Byte}
    (hcheck : refuses parser skipping' ch = refuses parser skipping ch) (log : List Event) :
    headerValue (lag n parser) skipping' ch log =
      (headerValue parser skipping ch log).map (Stream.lag n) := by
  have hcheck' : (!skipping' && !(lag n parser).lenientHttpHeaders && !isHeaderChar ch) =
      (!skipping && !parser.lenientHttpHeaders && !isHeaderChar ch) := hcheck
  have hdone : headerAlmostDone { lag n parser with state := .headerAlmostDone } ch =
      Step.lag n (headerAlmostDone { parser with state := .headerAlmostDone } ch) := by
    rw [headerAlmostDone, headerAlmostDone, lag_expect]
    rfl
  rw [headerValue, headerValue, map_ite, map_ite, map_ite, hcheck', hdone, lag_perform]
  rcases headerValueChar_fields parser parser.headerState ch with
    ⟨q, h', hq, hnread, hall⟩ | ⟨q, e, hq, hall⟩ | hq
  · have hlag : headerValueChar (lag n parser) (lag n parser).headerState ch =
        .next { q with nread := min n q.nread, headerState := parser.headerState } h' :=
      hnread ▸ hall (min n parser.nread) parser.headerState
    rw [hq, hlag]
    rfl
  · obtain ⟨q', hq'⟩ := hall (min n parser.nread) parser.headerState
    have hlag : headerValueChar (lag n parser) (lag n parser).headerState ch = .fail q' e := hq'
    rw [hq, hlag]
    rfl
  · have hlag : headerValueChar (lag n parser) (lag n parser).headerState ch = .abort := by
      rcases headerValueChar_fields (lag n parser) parser.headerState ch with
        ⟨q, h', -, -, hall⟩ | ⟨q, e, -, hall⟩ | hlag
      · cases hq.symm.trans (hall parser.nread parser.headerState)
      · cases hq.symm.trans (hall parser.nread parser.headerState).choose_spec
      · exact hlag
    rw [hq, hlag]
    rfl

theorem lag_bodyIdentity (ch : Byte) (log : List Event) :
    bodyIdentity settings (lag n parser) ch log =
      (bodyIdentity settings parser ch log).map (Stream.lag n) := by
  have hlength : (lag n parser).contentLength = parser.contentLength := rfl
  rw [bodyIdentity, bodyIdentity, hlength, map_ite]
  dsimp only
  rw [map_ite, ← lag_perform, lag_messageDone]
  rfl

theorem lag_chunkData (ch : Byte) (log : List Event) :
    chunkData (lag n parser) ch log = (chunkData parser ch log).map (Stream.lag n) := by
  have hlength : (lag n parser).contentLength = parser.contentLength := rfl
  have hflags : (lag n parser).flags = parser.flags := rfl
  rw [chunkData, chunkData, hlength, hflags, map_ite]
  dsimp only
  split
  · rfl
  · split <;> rfl

/-- The counter is only looked at where it passes the limit, and at the start of a chunk. -/
theorem lag_react {skipping skipping' : Bool} {ch : Byte}
    (hcheck : refuses parser skipping' ch = refuses parser skipping ch)
    (hchunk : parser.state = .chunkSizeStart → parser.nread = 1 ∧ 1 ≤ n) (log : List Event) :
    react settings (lag n parser) skipping' ch log =
      (react settings parser skipping ch log).map (Stream.lag n) := by
  by_cases hloop : isLoopState parser.state = false
  · have hloop' : isLoopState (lag n parser).state = false := hloop
    rw [react_switch hloop, react_switch hloop', ← lag_switch hloop hchunk, lag_perform]
  cases hs : parser.state
  case headerField =>
    have hs' : (lag n parser).state = .headerField := hs
    rw [react_headerField hs, react_headerField hs', lag_headerField]
  case headerValue =>
    have hs' : (lag n parser).state = .headerValue := hs
    rw [react_headerValue hs, react_headerValue hs', lag_headerValue hcheck]
  case bodyIdentity =>
    have hs' : (lag n parser).state = .bodyIdentity := hs
    rw [react_bodyIdentity hs, react_bodyIdentity hs', lag_bodyIdentity]
  case bodyIdentityEof =>
    have hs' : (lag n parser).state = .bodyIdentityEof := hs
    rw [react_bodyIdentityEof hs, react_bodyIdentityEof hs']
    rfl
  case chunkData =>
    have hs' : (lag n parser).state = .chunkData := hs
    rw [react_chunkData hs, react_chunkData hs', lag_chunkData]
  all_goals
    rw [hs] at hloop
    exact absurd rfl hloop

/-- Of machines whose counters differ, what the one accepts the other one does. -/
def Follows (n : ℕ) (x y : Except Refusal Stream) : Prop := ∀ s, x = .ok s → y = .ok (Stream.lag n s)

theorem follows_error (e : Refusal) (y : Except Refusal Stream) : Follows n (.error e) y :=
  fun _ h => nomatch h

theorem follows_map (x : Except Refusal Stream) : Follows n x (x.map (Stream.lag n)) := by
  rintro s rfl
  rfl

theorem headerValue_refuses {skipping : Bool} (h : refuses parser skipping ch = true)
    (log : List Event) : headerValue parser skipping ch log = .error .refused := by
  have hchar : isHeaderChar ch = false := by
    rw [refuses, Bool.and_eq_true, Bool.not_eq_true'] at h
    exact h.2
  have hcr : ch ≠ CR := by
    rintro rfl
    cases hchar
  have hlf : ch ≠ LF := by
    rintro rfl
    cases hchar
  rw [headerValue, if_neg hcr, if_neg hlf]
  exact if_pos h

theorem react_skipping (hs : parser.state ≠ .headerValue) (skipping skipping' : Bool) (ch : Byte)
    (log : List Event) :
    react settings parser skipping ch log = react settings parser skipping' ch log := by
  unfold react
  cases hstate : parser.state
  case headerValue => exact absurd hstate hs
  all_goals rfl

/-- A character that is skipped is not checked. -/
theorem follows_react {skipping skipping' : Bool} (hskip : skipping → skipping')
    (hchunk : parser.state = .chunkSizeStart → parser.nread = 1 ∧ 1 ≤ n) (ch : Byte)
    (log : List Event) : Follows n (react settings parser skipping ch log)
      (react settings (lag n parser) skipping' ch log) := by
  by_cases hcheck : refuses parser skipping' ch = refuses parser skipping ch
  · rw [lag_react hcheck hchunk]
    exact follows_map _
  by_cases hs : parser.state = .headerValue
  · have hrefuses : refuses parser skipping ch = true := by
      unfold refuses at hcheck ⊢
      cases skipping
      · cases skipping'
        · exact absurd rfl hcheck
        · exact (Bool.eq_false_or_eq_true _).resolve_right (Ne.symm hcheck)
      · rw [hskip rfl] at hcheck
        exact absurd rfl hcheck
    rw [react_headerValue hs, headerValue_refuses hrefuses]
    exact follows_error _ _
  · have hs' : (lag n parser).state ≠ .headerValue := hs
    rw [react_skipping hs' skipping' skipping, lag_react rfl hchunk]
    exact follows_map _

/-- `t` is where `s` is, in a run with fewer cuts. -/
structure Behind (s t : Stream) : Prop where
  parser : ∃ n, t.parser = lag n s.parser
  log : t.log = s.log
  progress : t.progress = s.progress ∨
    s.progress = .fresh ∧ (t.progress = .looping ∨ t.progress = .skipping)

variable {s s' t : Stream} {b : Bool} {data : Str} {pieces : List Str}

theorem behind_lag (n : ℕ) (s : Stream) : Behind s (Stream.lag n s) := ⟨⟨n, rfl⟩, rfl, .inl rfl⟩

theorem behind_self (s : Stream) : Behind s s := by
  refine ⟨⟨s.parser.nread, ?_⟩, rfl, .inl rfl⟩
  rw [lag, Nat.min_self]

/-- After a character the runs are at the same place of the code again. -/
theorem Behind.step (h : Behind s t) (hs : Running b s)
    (hstep : step settings s ch = .ok s') : ∃ n, step settings t ch = .ok (Stream.lag n s') := by
  obtain ⟨n, hparser⟩ := h.parser
  have hreturned : s.progress ≠ .returned := by
    intro hreturned
    rw [HttpParserMachine.step, if_pos hreturned] at hstep
    cases hstep
  have hreturned' : t.progress ≠ .returned := by
    rcases h.progress with h | ⟨-, h | h⟩
    · exact h ▸ hreturned
    · rw [h]
      decide
    · rw [h]
      decide
  have hskip : decide (s.progress = .skipping) → decide (t.progress = .skipping) := by
    rw [decide_eq_true_eq, decide_eq_true_eq]
    rcases h.progress with h | ⟨h, -⟩
    · exact fun hs => h.trans hs
    · rw [h]
      exact fun hs => by cases hs
  have hstate : t.parser.state = s.parser.state := by rw [hparser]; rfl
  cases hheader : parsingHeader s.parser.state with
  | true =>
    rw [step_header ch hreturned hheader] at hstep
    rw [step_header ch hreturned' (hstate ▸ hheader), hparser, h.log]
    split at hstep
    · cases hstep
    rename_i hover
    have hless : min n s.parser.nread ≤ s.parser.nread := Nat.min_le_right ..
    have hover' : ¬ HTTP_MAX_HEADER_SIZE < (lag n s.parser).nread + 1 := by
      change ¬ _ < min n s.parser.nread + 1
      omega
    have hcount : ({ lag n s.parser with nread := (lag n s.parser).nread + 1 } : HttpParser) =
        lag (n + 1) { s.parser with nread := s.parser.nread + 1 } := by
      change ({ s.parser with nread := min n s.parser.nread + 1 } : HttpParser) =
        { s.parser with nread := min (n + 1) (s.parser.nread + 1) }
      rw [Nat.succ_min_succ]
    rw [if_neg hover', hcount]
    refine ⟨n + 1, follows_react hskip ?_ ch s.log s' hstep⟩
    intro hchunk
    exact ⟨congrArg (· + 1) (hs.sound.chunk hchunk), Nat.le_add_left ..⟩
  | false =>
    rw [step_body ch hreturned hheader] at hstep
    rw [step_body ch hreturned' (hstate ▸ hheader), hparser, h.log]
    refine ⟨n, follows_react hskip ?_ ch s.log s' hstep⟩
    intro hchunk
    rw [hchunk] at hheader
    cases hheader

theorem Behind.run (h : Behind s t) (hs : Running b s) (hdata : data ≠ [])
    (hrun : SymbolMachine.run (HttpParserMachine.step settings) s data = .ok s') :
    ∃ n, SymbolMachine.run (HttpParserMachine.step settings) t data = .ok (Stream.lag n s') := by
  induction data generalizing s t with
  | nil => exact absurd rfl hdata
  | cons c data ih =>
    obtain ⟨u, hu, hrun⟩ := SymbolMachine.run_cons_ok.mp hrun
    obtain ⟨n, hv⟩ := h.step hs hu
    have hrunning : Runs b (HttpParserMachine.step settings s c) := hs.step c
    rw [hu] at hrunning
    cases data with
    | nil =>
      cases hrun
      exact ⟨n, SymbolMachine.run_cons_ok.mpr ⟨_, hv, rfl⟩⟩
    | cons d data =>
      obtain ⟨m, hw⟩ := ih (behind_lag n u) hrunning (List.cons_ne_nil d data) hrun
      exact ⟨m, SymbolMachine.run_cons_ok.mpr ⟨_, hv, hw⟩⟩

theorem endBuffer_ok (h : endBuffer s = .ok s') :
    (s.progress = .looping ∨ s.progress = .skipping) ∧ s.parser.nread + 1 ≤ HTTP_MAX_HEADER_SIZE ∧
        s' = ⟨{ s.parser with nread := s.parser.nread + 1 }, .fresh, s.log⟩ ∨
      (s.progress = .fresh ∨ s.progress = .returned) ∧ s' = ⟨s.parser, .fresh, s.log⟩ := by
  have hcount (hloop : s.progress = .looping ∨ s.progress = .skipping) :
      s.parser.nread + 1 ≤ HTTP_MAX_HEADER_SIZE ∧
        s' = ⟨{ s.parser with nread := s.parser.nread + 1 }, .fresh, s.log⟩ := by
    rw [endBuffer_counts hloop, countByte] at h
    split at h
    · cases h
    · rename_i hover
      cases h
      exact ⟨Nat.le_of_not_lt hover, rfl⟩
  cases hp : s.progress with
  | looping => exact .inl ⟨.inl rfl, hcount (.inl hp)⟩
  | skipping => exact .inl ⟨.inr rfl, hcount (.inr hp)⟩
  | fresh =>
    rw [endBuffer, hp] at h
    cases h
    exact .inr ⟨.inl rfl, rfl⟩
  | returned =>
    rw [endBuffer, hp] at h
    cases h
    exact .inr ⟨.inr rfl, rfl⟩

/-- The end of a buffer puts a run without this cut further behind. -/
theorem behind_endBuffer (n : ℕ) (hreturned : s.progress ≠ .returned)
    (h : endBuffer s = .ok s') : Behind s' (Stream.lag n s) := by
  rcases endBuffer_ok h with ⟨hloop, -, rfl⟩ | ⟨hfresh, rfl⟩
  · refine ⟨⟨min n s.parser.nread, ?_⟩, rfl, .inr ⟨rfl, hloop⟩⟩
    change ({ s.parser with nread := min n s.parser.nread } : HttpParser) =
      { s.parser with nread := min (min n s.parser.nread) (s.parser.nread + 1) }
    rw [Nat.min_eq_left ((Nat.min_le_right n s.parser.nread).trans (Nat.le_succ _))]
  · exact ⟨⟨n, rfl⟩, rfl, .inl (hfresh.resolve_right hreturned)⟩

theorem lag_endBuffer (n : ℕ) (h : endBuffer s = .ok s') :
    ∃ m, endBuffer (Stream.lag n s) = .ok (Stream.lag m s') := by
  rcases endBuffer_ok h with ⟨hloop, hover, rfl⟩ | ⟨hfresh, rfl⟩
  · have hloop' : (Stream.lag n s).progress = .looping ∨ (Stream.lag n s).progress = .skipping :=
      hloop
    have hless : min n s.parser.nread ≤ s.parser.nread := Nat.min_le_right ..
    have hover' : ¬ HTTP_MAX_HEADER_SIZE < (Stream.lag n s).parser.nread + 1 := by
      change ¬ _ < min n s.parser.nread + 1
      omega
    refine ⟨n + 1, ?_⟩
    rw [endBuffer_counts hloop', countByte, if_neg hover']
    change Except.ok (Stream.mk { s.parser with nread := min n s.parser.nread + 1 } _ _) =
      .ok (Stream.mk { s.parser with nread := min (n + 1) (s.parser.nread + 1) } _ _)
    rw [Nat.succ_min_succ]
    rfl
  · refine ⟨n, ?_⟩
    rw [endBuffer, show (Stream.lag n s).progress = s.progress from rfl]
    rcases hfresh with h | h
    · rw [h]
      rfl
    · rw [h]
      rfl

/-- A run over pieces, against a run over all of them at once. -/
theorem Behind.feed (h : Behind s t) (hs : Running b s) (hpieces : pieces ≠ [])
    (hdata : ∀ data ∈ pieces, data ≠ [])
    (hupgraded : ∀ before after u, pieces = before ++ after → before ≠ [] → after ≠ [] →
      readAll settings s before = .ok u → ¬ Upgraded u.parser)
    (hread : readAll settings s pieces = .ok s') :
    ∃ n, HttpParserMachine.feed settings pieces.flatten t = .ok (Stream.lag n s') := by
  induction pieces generalizing s t with
  | nil => exact absurd rfl hpieces
  | cons data rest ih =>
    rw [List.forall_mem_cons] at hdata
    obtain ⟨u, hu, hread⟩ := SymbolMachine.run_cons_ok.mp hread
    have hfeed : HttpParserMachine.feed settings data s = .ok u :=
      (if_neg hdata.1).symm.trans hu
    obtain ⟨v, hv, hend⟩ := SymbolMachine.bind_eq_ok.mp hfeed
    obtain ⟨n, hn⟩ := h.run hs hdata.1 hv
    have hrunning : Runs b (SymbolMachine.run (HttpParserMachine.step settings) s data) :=
      hs.run data
    have hrunning' : Runs b (HttpParserMachine.feed settings data s) := hs.feed data
    rw [hv] at hrunning
    rw [hfeed] at hrunning'
    rw [List.flatten_cons, feed_append, hn]
    change ∃ n, HttpParserMachine.feed settings rest.flatten (Stream.lag _ v) = _
    by_cases hrest : rest = []
    · subst hrest
      cases hread
      exact lag_endBuffer n hend
    · have hnot : ¬ Upgraded u.parser := by
        refine hupgraded [data] rest u rfl (List.cons_ne_nil _ _) hrest ?_
        exact SymbolMachine.run_cons_ok.mpr ⟨u, hu, rfl⟩
      have hreturned : v.progress ≠ .returned := by
        intro hreturned
        refine hnot ?_
        rcases endBuffer_ok hend with ⟨hloop, -, -⟩ | ⟨-, rfl⟩
        · rw [hreturned] at hloop
          rcases hloop with h | h <;> exact nomatch h
        · exact hrunning.returned hreturned
      refine ih (behind_endBuffer n hreturned hend) hrunning' hrest hdata.2 ?_ hread
      intro before after w hsplit hbefore hafter hw
      refine hupgraded (data :: before) after w (by rw [hsplit]; rfl) (List.cons_ne_nil _ _) hafter ?_
      exact SymbolMachine.run_cons_ok.mpr ⟨u, hu, hw⟩

/-- Buffers that are executed one after the other behave as one buffer: if all of them are
consumed, and none but the last hands the connection over to another protocol, then the whole is
consumed too, with the same calls but for the cuts and the same parser but for the counter of
header bytes. -/
theorem executeAll_flatten (hsettings : DataOk settings) (t : HttpParserType)
    (before : List Str) (hbefore : ∀ data ∈ before, Fitting data) (hpieces : pieces ≠ [])
    (hdata : ∀ data ∈ pieces, data ≠ []) (hfit : Fitting pieces.flatten)
    (hupgraded : ∀ first rest q events, pieces = first ++ rest → first ≠ [] → rest ≠ [] →
      executeAll settings (httpParserInit t, []) (before ++ first) = .ok (q, events) →
      ¬ Upgraded q) {parser : HttpParser} {events : List Event}
    (h : executeAll settings (httpParserInit t, []) (before ++ pieces) = .ok (parser, events)) :
    ∃ n events', n ≤ parser.nread ∧ executeAll settings (httpParserInit t, [])
        (before ++ [pieces.flatten]) = .ok ({ parser with nread := n }, events') ∧
      Same events events' := by
  have hflatten : pieces.flatten ≠ [] := by
    obtain ⟨data, rest, rfl⟩ := List.exists_cons_of_ne_nil hpieces
    exact List.append_ne_nil_of_left_ne_nil (hdata data (List.mem_cons_self ..)) _
  have hfits (first : List Str) (hfirst : first ⊆ pieces) :
      ∀ data ∈ before ++ first, Fitting data := by
    intro data hmem
    rcases List.mem_append.mp hmem with hmem | hmem
    · exact hbefore data hmem
    · have hsub := (List.sublist_flatten_of_mem (hfirst hmem)).length_le
      exact (Nat.add_le_add_right hsub _).trans_lt hfit
  obtain ⟨s, hs, rfl, hsame, -⟩ :=
    readAll_of_executeAll hsettings t (hfits pieces (List.Subset.refl _)) h
  obtain ⟨u, hu, hread⟩ := SymbolMachine.run_append_ok.mp hs
  obtain ⟨-, -, -, -, hrunning⟩ := executeAll_of_readAll hsettings t hbefore hu
  obtain ⟨n, hn⟩ := (behind_self u).feed hrunning hpieces hdata (fun first rest w hsplit hfirst
      hrest hw => by
    have hw' : readAll settings (fresh (httpParserInit t) []) (before ++ first) = .ok w :=
      SymbolMachine.run_append_ok.mpr ⟨u, hu, hw⟩
    obtain ⟨events, hevents, -⟩ := executeAll_of_readAll hsettings t
      (hfits first (hsplit ▸ List.subset_append_left first rest)) hw'
    exact hupgraded first rest w.parser events hsplit hfirst hrest hevents) hread
  have hwhole : readAll settings (fresh (httpParserInit t) []) (before ++ [pieces.flatten]) =
      .ok (Stream.lag n s) := by
    refine SymbolMachine.run_append_ok.mpr ⟨u, hu, ?_⟩
    exact SymbolMachine.run_cons_ok.mpr ⟨_, (if_neg hflatten).trans hn, rfl⟩
  have hfits' : ∀ data ∈ before ++ [pieces.flatten], Fitting data := by
    rw [List.forall_mem_append, List.forall_mem_singleton]
    exact ⟨hbefore, hfit⟩
  obtain ⟨events', hevents, hsame', -⟩ := executeAll_of_readAll hsettings t hfits' hwhole
  exact ⟨min n s.parser.nread, events', Nat.min_le_right .., hevents, hsame.trans hsame'.symm⟩

/-- A request that is cut in its URL. -/
theorem executeAll_flatten_cut : ∃ q n events events',
    executeAll willing (httpParserInit .request, []) [chars ['G', 'E', 'T', ' ', '/', 'a'],
      chars ['b', ' ', 'H', 'T', 'T', 'P', '/', '1', '.', '1'] ++ [LF, LF]] = .ok (q, events) ∧
    executeAll willing (httpParserInit .request, []) [chars ['G', 'E', 'T', ' ', '/', 'a', 'b',
      ' ', 'H', 'T', 'T', 'P', '/', '1', '.', '1'] ++ [LF, LF]] =
        .ok ({ q with nread := n }, events') ∧ Same events events' := by
  have hcut : executeAll willing (httpParserInit .request, [])
      ([] ++ [chars ['G', 'E', 'T', ' ', '/', 'a'],
        chars ['b', ' ', 'H', 'T', 'T', 'P', '/', '1', '.', '1'] ++ [LF, LF]]) = .ok _ := rfl
  obtain ⟨n, events', -, hwhole, hsame⟩ := executeAll_flatten willing_ok .request []
    nofun (List.cons_ne_nil _ _) (by decide) (by decide) (fun first rest q events hsplit hfirst
      hrest h hupgraded => by
    obtain ⟨c, first, rfl⟩ := List.exists_cons_of_ne_nil hfirst
    obtain ⟨d, rest, rfl⟩ := List.exists_cons_of_ne_nil hrest
    obtain ⟨rfl, hsplit⟩ := List.cons.inj hsplit
    have hnil : first = [] := by
      have hlen := congrArg List.length hsplit
      rw [List.length_append] at hlen
      exact List.length_eq_zero_iff.mp (by simp at hlen; omega)
    subst hnil
    have hupgrade : some q.upgrade = some false :=
      (congrArg (fun x => x.toOption.map fun y => y.1.upgrade) h).symm.trans (by decide)
    exact absurd ((Option.some.inj hupgrade).symm.trans hupgraded.1) nofun) hcut
  exact ⟨_, n, _, events', hcut, hwhole, hsame⟩

end HttpParserFragments
