import Grt.HttpParserMarks

/-! The loops of `http_parser_execute` over a header's name and value agree with the machine that
reads one character at a time, with the counter they keep and the search for the end of a value. -/
namespace HttpParserHeaderLoops

open LittleEndian HttpParserState HttpParserSwitch HttpParserSound PieceStream
open HttpParserExecute hiding headerField headerValue bodyIdentity chunkData perform
open HttpParserMachine hiding headerField headerValue bodyIdentity chunkData perform
open HttpParserMarks

variable {settings : Settings} {data : Str} {pre log : List Event} {o : Option (Element × ℕ)}
  {l : Loop} {s : Stream} {ch : Byte} {b : Bool} {e : Element} {m p consumed : ℕ}

/-- The loop over a name does not look at the counter. -/
theorem headerFieldChar_nread (parser : HttpParser) (n : ℕ) (ch : Byte) :
    (∃ q, headerFieldChar parser ch = .next q ∧ q.nread = parser.nread ∧ q.state = parser.state ∧
        headerFieldChar { parser with nread := n } ch = .next { q with nread := n }) ∨
      (∃ q e, e ≠ .ok ∧ headerFieldChar parser ch = fail q e ∧
        headerFieldChar { parser with nread := n } ch = fail { q with nread := n } e) ∨
      headerFieldChar parser ch = .abort := by
  obtain ⟨_, _, _, h, _, _, _, _, _, _, _, _, _, _⟩ := parser
  unfold headerFieldChar nextIndex
  cases h <;> dsimp only
  case matchingContentLength =>
    split_ifs
    · exact .inr (.inl ⟨_, .unexpectedContentLength, nofun, rfl, rfl⟩)
    · exact .inl ⟨_, rfl, rfl, rfl, rfl⟩
    · exact .inl ⟨_, rfl, rfl, rfl, rfl⟩
  all_goals first | exact .inl ⟨_, rfl, rfl, rfl, rfl⟩ | exact .inr (.inr rfl)

theorem sound_headerFieldChar {parser : HttpParser} {k : ℕ} (h : Sound b k parser)
    (hs : parser.state = .headerField) (n : ℕ) (ch : Byte) :
    (∃ q, headerFieldChar parser ch = .next q ∧ q.nread = parser.nread ∧
        q.state = .headerField ∧ Sound b 0 q ∧
        headerFieldChar { parser with nread := n } ch = .next { q with nread := n }) ∨
      (∃ q e, e ≠ .ok ∧ headerFieldChar parser ch = fail q e ∧
        headerFieldChar { parser with nread := n } ch = fail { q with nread := n } e) := by
  have hfits : Fits b (some .headerField) (headerFieldChar parser ch) := h.fits_headerFieldChar hs
  rcases headerFieldChar_nread parser n ch with ⟨q, hq, hnread, hstate, hn⟩ | hfail | habort
  · rw [hq] at hfits
    exact .inl ⟨q, hq, hnread, hstate.trans hs, hfits.2, hn⟩
  · exact .inr hfail
  · rw [habort] at hfits
    exact hfits.elim

theorem headerOverflow_ne : HttpErrno.headerOverflow ≠ .ok := by decide

theorem invalidHeaderToken_ne : HttpErrno.invalidHeaderToken ≠ .ok := by decide

variable {start n : ℕ} {rest : Str} {k : Loop → Except Exit Loop}

/-- Of a parser in the states of a header, the counter may be changed within its bound. -/
theorem sound_withNread {parser : HttpParser} {j : ℕ} (h : Sound b j parser)
    (hs : parser.state = .headerField ∨ parser.state = .headerValue)
    (hn : n ≤ HTTP_MAX_HEADER_SIZE) : Sound b 0 { parser with nread := n } where
  ok := h.ok
  lenient := h.lenient
  nread := hn
  length := h.length
  chunk hchunk := by
    rcases hs with hs | hs
    · exact nomatch hs.symm.trans hchunk
    · exact nomatch hs.symm.trans hchunk
  state := by
    have := h.state
    rcases hs with hs | hs
    · change SoundAt _ parser.state
      rw [hs] at this ⊢
      exact this
    · change SoundAt _ parser.state
      rw [hs] at this ⊢
      exact this

/-- Once too many characters are counted, the loop over a name ends in a refusal. -/
theorem headerFieldLoop_overflow {l : Loop} (hstate : l.parser.state = .headerField)
    (hsound : Sound b 0 l.parser) (hrest : data.drop l.p = rest) (hle : l.p ≤ data.length)
    (hsize : data.length + HTTP_MAX_HEADER_SIZE < 2 ^ 32)
    (hover : HTTP_MAX_HEADER_SIZE < l.parser.nread + (l.p - start)) :
    ∃ r, (headerFieldLoop settings data rest l >>= afterHeaderField settings data start) =
      .error (.returned r) ∧ r.parser.httpErrno ≠ .ok := by
  have hstop (l : Loop) (hle : l.p ≤ data.length) (hn : l.parser.nread ≤ HTTP_MAX_HEADER_SIZE)
      (hover : HTTP_MAX_HEADER_SIZE < l.parser.nread + (l.p - start)) :
      ∃ r, afterHeaderField settings data start l = .error (.returned r) ∧
        r.parser.httpErrno ≠ .ok := by
    rw [afterHeaderField, count_eq l (by omega), if_pos hover]
    exact ⟨_, rfl, nofun⟩
  induction rest generalizing l with
  | nil => exact hstop l hle hsound.nread hover
  | cons c rest ih =>
    rw [headerFieldLoop]
    split
    · exact hstop l hle hsound.nread hover
    · have hlt : l.p < data.length := by
        by_contra hge
        rw [List.drop_eq_nil_of_le (Nat.le_of_not_lt hge)] at hrest
        exact nomatch hrest
      rcases sound_headerFieldChar hsound hstate 0 c with
        ⟨q, hq, hnread, hqstate, hqsound, -⟩ | hfail
      · rw [hq]
        refine ih (l := { l with parser := q, p := l.p + 1 }) hqstate hqsound ?_ hlt ?_
        · change data.drop (l.p + 1) = rest
          rw [← List.drop_drop, hrest]
          rfl
        · change _ < q.nread + (l.p + 1 - start)
          omega
      · obtain ⟨q, e, he, hq, -⟩ := hfail
        rw [hq]
        exact ⟨_, rfl, he⟩

theorem drop_succ (hrest : data.drop p = ch :: rest) :
    p < data.length ∧ data[p]? = some ch ∧ data.drop (p + 1) = rest := by
  have hlt : p < data.length := by
    by_contra hge
    rw [List.drop_eq_nil_of_le (Nat.le_of_not_lt hge)] at hrest
    exact nomatch hrest
  rw [List.drop_eq_getElem_cons hlt] at hrest
  injection hrest with hch hrest
  exact ⟨hlt, List.getElem?_eq_some_iff.mpr ⟨hlt, hch⟩, hrest⟩

/-- A loop that reaches the end of the buffer steps back on the last character, which the outer
loop then leaves. -/
theorem endOfBuffer_ends {l : Loop} {log : List Event} (hk : Continues settings data pre b start k)
    (hp : l.p = data.length) (hlt : start < data.length) {parser : HttpParser}
    (hsound : Sound b 0 parser) (ho : openElement parser.state = some e)
    (hmid : Mid data pre (some (e, m)) l log) :
    Ends data pre b (k { l with parser, p := l.p - 1 }) (.ok ⟨parser, .fresh, log⟩) := by
  have hback : l.p - 1 + 1 = l.p := Nat.sub_add_cancel (Nat.one_le_of_lt (hp ▸ hlt))
  have hb : Between data pre b (Loop.advance { l with parser, p := l.p - 1 })
      ⟨parser, .fresh, log⟩ :=
    ⟨rfl, rfl, hsound, (hback.trans hp).le, some (e, m),
      fun _ => .inl ho.symm, hmid.move rfl hback rfl⟩
  have hends := hk _ _ (Nat.le_pred_of_lt (hp ▸ hlt)) hb
  rw [hback, hp, List.drop_length, feed_nil] at hends
  exact hp ▸ hends

/-- The end of the loop over a name at a character that is not part of it. -/
theorem afterHeaderField_ends (hs : DataOk settings) {l : Loop} {log : List Event}
    (hch : data[l.p]? = some ch) (hle : start ≤ l.p) (htoken : token ch = 0)
    (hover : l.parser.nread + (l.p - start) ≤ HTTP_MAX_HEADER_SIZE)
    (hsound : Sound b 0 { l.parser with nread := l.parser.nread + (l.p - start) })
    (hmid : Mid data pre (some (.headerField, m)) l log)
    (hk : Continues settings data pre b start k) :
    Ends data pre b (afterHeaderField settings data start l >>= k)
      (HttpParserMachine.headerField
        { l.parser with nread := l.parser.nread + (l.p - start) } ch log >>=
          feed settings (data.drop (l.p + 1))) := by
  have hlt : l.p + 1 ≤ data.length := (List.getElem?_eq_some_iff.mp hch).1
  rw [afterHeaderField, count_eq l (hover.trans_lt (by decide)), if_neg hover.not_gt,
    HttpParserMachine.headerField, if_pos htoken]
  simp only [SymbolMachine.ok_bind, hch]
  split
  · exact (perform_agrees hs _ (o := some (.headerField, m)) (hsound.fits_endText rfl)
      (hmid.parser { l.parser with nread := l.parser.nread + (l.p - start) }) hch).ends hlt
      (Nat.lt_succ_of_le hle) hk
  · exact .refused invalidHeaderToken_ne

/-- The loop over a name that began at `start`, against the machine at the same character, which
has counted each character by itself. -/
theorem headerFieldLoop_ends (hs : DataOk settings) {l : Loop} {s : Stream}
    (hrest : data.drop l.p = rest) (hle : l.p ≤ data.length) (hstart : start ≤ l.p)
    (hlt : start < data.length) (hsize : data.length + HTTP_MAX_HEADER_SIZE < 2 ^ 32)
    (hparser : s.parser = { l.parser with nread := n + (l.p - start) })
    (hn : l.parser.nread = n + 1) (hstate : l.parser.state = .headerField)
    (hprogress : s.progress = if l.p = start then .fresh else .looping)
    (hsound : Sound b 0 s.parser) (hbound : n + 1 ≤ HTTP_MAX_HEADER_SIZE)
    (hmid : Mid data pre (some (.headerField, m)) l s.log)
    (hk : Continues settings data pre b start k) :
    Ends data pre b
      (headerFieldLoop settings data rest l >>= afterHeaderField settings data start >>= k)
      (feed settings rest s) := by
  have hnread : s.parser.nread = n + (l.p - start) := by rw [hparser]
  have hsstate : s.parser.state = .headerField := by rw [hparser, ← hstate]
  have hl : l.parser = { s.parser with nread := n + 1 } := by rw [hparser, ← hn]
  have hlsound : Sound b 0 l.parser := hl ▸ sound_withNread hsound (.inl hsstate) hbound
  induction rest generalizing l s with
  | nil =>
    have hp : l.p = data.length := hle.antisymm (List.drop_eq_nil_iff.mp hrest)
    have hne : l.p ≠ start := (hp ▸ hlt).ne'
    rw [if_neg hne] at hprogress
    rw [feed_nil, endBuffer, hprogress]
    change Ends data pre b (afterHeaderField settings data start l >>= k)
      (countByte s.parser >>= fun parser => .ok ⟨parser, .fresh, s.log⟩)
    rw [afterHeaderField, count_eq l (by omega), countByte, hn, hnread,
      show n + 1 + (l.p - start) = n + (l.p - start) + 1 by omega]
    by_cases hover : HTTP_MAX_HEADER_SIZE < n + (l.p - start) + 1
    · rw [if_pos hover, if_pos hover]
      exact .refused headerOverflow_ne
    · rw [if_neg hover, if_neg hover]
      simp only [SymbolMachine.ok_bind, List.getElem?_eq_none hp.ge]
      have hsound' := sound_withNread hsound (.inl hsstate) (Nat.le_of_not_lt hover)
      rw [hparser] at hsound' ⊢
      exact endOfBuffer_ends hk hp hlt hsound' (by rw [hstate]; rfl) hmid
  | cons ch rest ih =>
    obtain ⟨hlt', hch, hrest'⟩ := drop_succ hrest
    have hne : s.progress ≠ .returned := by
      rw [hprogress]
      split <;> decide
    rw [feed_cons, step_header ch hne (hsstate ▸ rfl)]
    by_cases hover : HTTP_MAX_HEADER_SIZE < s.parser.nread + 1
    · obtain ⟨r, hr, hbad⟩ : ∃ r, (headerFieldLoop settings data (ch :: rest) l >>=
          afterHeaderField settings data start) = .error (.returned r) ∧
          r.parser.httpErrno ≠ .ok :=
        headerFieldLoop_overflow hstate hlsound hrest hle hsize (by omega)
      rw [if_pos hover, hr]
      exact .refused hbad
    · have hcounted : ({ s.parser with nread := s.parser.nread + 1 } : HttpParser) =
          { l.parser with nread := l.parser.nread + (l.p - start) } := by
        rw [hparser, hn]
        dsimp only
        congr 1
        omega
      have hstate' : ({ s.parser with nread := s.parser.nread + 1 } : HttpParser).state =
        .headerField := hsstate
      have hcountedSound := sound_withNread hsound (.inl hsstate) (Nat.le_of_not_lt hover)
      rw [if_neg hover, react_headerField hstate']
      by_cases htoken : token ch = 0
      · rw [headerFieldLoop, if_pos htoken]
        rw [hcounted] at hcountedSound ⊢
        rw [← hrest']
        exact afterHeaderField_ends hs hch hstart htoken hcountedSound.nread hcountedSound hmid hk
      · rw [headerFieldLoop, if_neg htoken, HttpParserMachine.headerField, if_neg htoken, hcounted]
        rcases sound_headerFieldChar hlsound hstate (l.parser.nread + (l.p - start)) ch with
          ⟨q, hq, hqnread, hqstate, hqsound, hq'⟩ | ⟨q, e, he, hq, hq'⟩
        · rw [hq, hq']
          have hadd : l.parser.nread + (l.p - start) = n + (l.p + 1 - start) := by omega
          rw [hcounted] at hcountedSound
          have hqn := hqnread.trans hn
          exact ih (l := { l with parser := q, p := l.p + 1 }) hrest' hlt'
            (Nat.le_succ_of_le hstart) (by rw [hadd]) hqn hqstate
            (if_neg (Nat.lt_succ_of_le hstart).ne').symm
            (sound_withNread hqsound (.inl hqstate) hcountedSound.nread)
            ((hmid.advance hch).move rfl rfl rfl) hadd hqstate (by rw [← hqn]) hqsound
        · rw [hq, hq']
          exact .refused he

def isLineEnd (c : Byte) : Bool := c = CR || c = LF

theorem findIdx?_isLineEnd (xs : Str) :
    xs.findIdx? isLineEnd = match xs.idxOf? CR, xs.idxOf? LF with
      | some cr, some lf => some (if lf ≤ cr then lf else cr)
      | some cr, none => some cr
      | none, some lf => some lf
      | none, none => none := by
  cases hcr : xs.idxOf? CR with
  | none =>
    rw [List.idxOf?_eq_none_iff] at hcr
    cases hlf : xs.idxOf? LF with
    | none =>
      rw [List.idxOf?_eq_none_iff] at hlf
      refine List.findIdx?_eq_none_iff.mpr fun c hc => ?_
      have h1 : c ≠ CR := fun h => hcr (h ▸ hc)
      have h2 : c ≠ LF := fun h => hlf (h ▸ hc)
      simp [isLineEnd, h1, h2]
    | some lf =>
      obtain ⟨hlt, heq, hbefore⟩ := List.idxOf?_eq_some_iff.mp hlf
      refine List.findIdx?_eq_some_iff_getElem.mpr ⟨hlt, by simp [isLineEnd, heq], fun j hj => ?_⟩
      have h1 : xs[j] ≠ CR := fun h => hcr (h ▸ List.getElem_mem _)
      simp [isLineEnd, h1, hbefore j hj]
  | some cr =>
    obtain ⟨hcrlt, hcreq, hcrbefore⟩ := List.idxOf?_eq_some_iff.mp hcr
    cases hlf : xs.idxOf? LF with
    | none =>
      rw [List.idxOf?_eq_none_iff] at hlf
      refine List.findIdx?_eq_some_iff_getElem.mpr
        ⟨hcrlt, by simp [isLineEnd, hcreq], fun j hj => ?_⟩
      have h2 : xs[j] ≠ LF := fun h => hlf (h ▸ List.getElem_mem _)
      simp [isLineEnd, h2, hcrbefore j hj]
    | some lf =>
      obtain ⟨hlflt, hlfeq, hlfbefore⟩ := List.idxOf?_eq_some_iff.mp hlf
      dsimp only
      split
      · refine List.findIdx?_eq_some_iff_getElem.mpr
          ⟨hlflt, by simp [isLineEnd, hlfeq], fun j hj => ?_⟩
        simp [isLineEnd, hlfbefore j hj, hcrbefore j (by omega)]
      · refine List.findIdx?_eq_some_iff_getElem.mpr
          ⟨hcrlt, by simp [isLineEnd, hcreq], fun j hj => ?_⟩
        simp [isLineEnd, hcrbefore j hj, hlfbefore j (by omega)]

theorem lineEnd_eq (rest : Str) : lineEnd rest =
    ((rest.take (min rest.length HTTP_MAX_HEADER_SIZE)).findIdx? isLineEnd).getD rest.length := by
  rw [lineEnd, findIdx?_isLineEnd]
  cases (rest.take _).idxOf? CR <;> cases (rest.take _).idxOf? LF <;> rfl

/-- The search stops at the first line end, unless that lies beyond the largest header. -/
theorem lineEnd_cases (rest : Str) : lineEnd rest = rest.findIdx isLineEnd ∨
    lineEnd rest = rest.length ∧ HTTP_MAX_HEADER_SIZE < rest.length ∧
      HTTP_MAX_HEADER_SIZE ≤ rest.findIdx isLineEnd := by
  set limit := min rest.length HTTP_MAX_HEADER_SIZE with hlimit
  have hsplit : rest.findIdx isLineEnd = if (rest.take limit).findIdx isLineEnd <
      (rest.take limit).length then (rest.take limit).findIdx isLineEnd
      else (rest.drop limit).findIdx isLineEnd + (rest.take limit).length := by
    rw [← List.findIdx_append, List.take_append_drop]
  have hlen : (rest.take limit).length = limit := by
    rw [List.length_take]
    omega
  rw [lineEnd_eq, ← hlimit]
  cases h : (rest.take limit).findIdx? isLineEnd with
  | some k =>
    obtain ⟨hlt, hk⟩ := List.findIdx?_eq_some_iff_findIdx_eq.mp h
    rw [hk, if_pos hlt] at hsplit
    exact .inl hsplit.symm
  | none =>
    have hnone := List.findIdx?_eq_none_iff_findIdx_eq.mp h
    rw [hnone, if_neg (lt_irrefl _), hlen] at hsplit
    rw [Option.getD_none]
    have hle : rest.findIdx isLineEnd ≤ rest.length := List.findIdx_le_length
    by_cases hmax : rest.length ≤ HTTP_MAX_HEADER_SIZE
    · left
      omega
    · right
      exact ⟨rfl, Nat.lt_of_not_le hmax, by omega⟩

/-- The loop over a value looks neither at the counter nor at the state it stores at its end. -/
theorem headerValueChar_fields (parser : HttpParser) (h : HeaderState) (ch : Byte) :
    (∃ q h', headerValueChar parser h ch = .next q h' ∧ q.nread = parser.nread ∧
        ∀ n g, headerValueChar { parser with nread := n, headerState := g } h ch =
          .next { q with nread := n, headerState := g } h') ∨
      (∃ q e, headerValueChar parser h ch = .fail q e ∧
        ∀ n g, ∃ q', headerValueChar { parser with nread := n, headerState := g } h ch =
          .fail q' e) ∨
      headerValueChar parser h ch = .abort := by
  unfold headerValueChar nextIndex
  cases h <;> dsimp only
  case contentLength =>
    split_ifs
    · exact .inl ⟨_, _, rfl, rfl, fun _ _ => rfl⟩
    · exact .inr (.inl ⟨_, _, rfl, fun _ _ => ⟨_, rfl⟩⟩)
    · exact .inr (.inl ⟨_, _, rfl, fun _ _ => ⟨_, rfl⟩⟩)
    · exact .inl ⟨_, _, rfl, rfl, fun _ _ => rfl⟩
  case matchingConnectionToken | connectionKeepAlive | connectionClose | connectionUpgrade =>
    split
    · exact .inl ⟨_, _, rfl, rfl, fun _ _ => rfl⟩
    · exact .inl ⟨_, _, rfl, rfl, fun _ _ => rfl⟩
  all_goals first
    | exact .inl ⟨_, _, rfl, rfl, fun _ _ => rfl⟩
    | exact .inr (.inr rfl)

theorem sound_headerValueChar {parser : HttpParser} {j : ℕ} (hsound : Sound b j parser)
    (hs : parser.state = .headerValue) {h : HeaderState} (hh : isValueState h) (ch : Byte) :
    (∃ q h', headerValueChar parser h ch = .next q h' ∧ q.nread = parser.nread ∧
        q.state = .headerValue ∧ Sound b 0 { q with headerState := h' } ∧
        ∀ n g, headerValueChar { parser with nread := n, headerState := g } h ch =
          .next { q with nread := n, headerState := g } h') ∨
      (∃ e, e ≠ .ok ∧ ∀ n g, ∃ q',
        headerValueChar { parser with nread := n, headerState := g } h ch = .fail q' e) := by
  have hfits : ValueFits b (headerValueChar parser h ch) := hsound.fits_headerValueChar hs hh
  rcases headerValueChar_fields parser h ch with ⟨q, h', hq, hnread, hall⟩ | ⟨q, e, hq, hall⟩ | hq
  · rw [hq] at hfits
    exact .inl ⟨q, h', hq, hnread, hfits.1, hfits.2, hall⟩
  · rw [hq] at hfits
    exact .inr ⟨e, hfits, hall⟩
  · rw [hq] at hfits
    exact hfits.elim

variable {h : HeaderState} {skip : ℕ} {lenient : Bool}

/-- What the loop over a value knows of its parser, whose header state is the local one. -/
structure InValue (b : Bool) (parser : HttpParser) (h : HeaderState) : Prop where
  state : parser.state = .headerValue
  sound : Sound b 0 { parser with headerState := h }

theorem InValue.value {parser : HttpParser} (hv : InValue b parser h) : isValueState h := by
  have := hv.sound.state
  rwa [show ({ parser with headerState := h } : HttpParser).state = .headerValue from hv.state]
    at this

theorem InValue.withNread {parser : HttpParser} (hv : InValue b parser h)
    (hn : n ≤ HTTP_MAX_HEADER_SIZE) : Sound b 0 { parser with nread := n, headerState := h } :=
  sound_withNread hv.sound (.inr hv.state) hn

/-- A round of the loop over a value, on parsers that differ in what it does not look at. -/
theorem InValue.char {parser : HttpParser} (hv : InValue b parser h) (ch : Byte) :
    (∃ q h', headerValueChar parser h ch = .next q h' ∧ q.nread = parser.nread ∧
        InValue b q h' ∧ ∀ n, headerValueChar { parser with nread := n, headerState := h } h ch =
          .next { q with nread := n, headerState := h } h') ∨
      (∃ e, e ≠ .ok ∧ (∃ q, headerValueChar parser h ch = .fail q e) ∧
        ∀ n, ∃ q,
          headerValueChar { parser with nread := n, headerState := h } h ch = .fail q e) := by
  rcases sound_headerValueChar hv.sound hv.state hv.value ch with
    ⟨q, h', hq, hnread, hstate, hsound, hall⟩ | ⟨e, he, hall⟩
  · refine .inl ⟨{ q with nread := parser.nread, headerState := parser.headerState }, h',
      hall parser.nread parser.headerState, rfl, ⟨hstate, ?_⟩, fun n => hall n h⟩
    rw [← hnread]
    exact hsound
  · exact .inr ⟨e, he, hall parser.nread parser.headerState, fun n => hall n h⟩

theorem callbackData_ok (data : Str) (hs : DataOk settings) (hok : l.parser.httpErrno = .ok)
    (e : Element) (extra consumed : ℕ) :
    ∃ l', HttpParserExecute.callbackData settings data e extra consumed l = .ok l' ∧
      l'.parser = l.parser ∧ l'.p = l.p := by
  rw [HttpParserExecute.callbackData, if_neg (not_not.mpr hok)]
  cases l.mark e with
  | none => exact ⟨l, rfl, rfl, rfl⟩
  | some m =>
    dsimp only
    rw [hs e]
    exact ⟨_, rfl, rfl, rfl⟩

theorem afterHeaderValue_overflow {l : Loop} (hn : l.parser.nread + (l.p - start) < 2 ^ 32)
    (hover : HTTP_MAX_HEADER_SIZE < l.parser.nread + (l.p - start)) :
    ∃ r, afterHeaderValue data start h l = .error (.returned r) ∧ r.parser.httpErrno ≠ .ok := by
  rw [afterHeaderValue, count_eq { l with parser.headerState := h } hn, if_pos hover]
  exact ⟨_, rfl, nofun⟩

theorem afterHeaderValue_eq (l : Loop)
    (hsmall : l.parser.nread + (l.p - start) ≤ HTTP_MAX_HEADER_SIZE) :
    afterHeaderValue data start h l = .ok { l with
      parser := { l.parser with nread := l.parser.nread + (l.p - start), headerState := h }
      p := if l.p = data.length then l.p - 1 else l.p } := by
  rw [afterHeaderValue, count_eq { l with parser.headerState := h }
    (hsmall.trans_lt (by decide)), if_neg hsmall.not_gt]
  change (if l.p = data.length then _ else _) = _
  split <;> rfl

/-- Once too many characters are counted, the loop over a value ends in a refusal. -/
theorem headerValueLoop_overflow (hs : DataOk settings) {l : Loop} (hv : InValue b l.parser h)
    (hrest : data.drop l.p = rest) (hle : l.p ≤ data.length)
    (hsize : data.length + HTTP_MAX_HEADER_SIZE < 2 ^ 32)
    (hover : HTTP_MAX_HEADER_SIZE < l.parser.nread + (l.p - start)) :
    ∃ r, headerValueLoop settings data lenient start rest skip h l = .error (.returned r) ∧
      r.parser.httpErrno ≠ .ok := by
  have hn : l.parser.nread ≤ HTTP_MAX_HEADER_SIZE := hv.sound.nread
  induction rest generalizing l h skip with
  | nil => exact afterHeaderValue_overflow (by omega) hover
  | cons c rest ih =>
    obtain ⟨hlt, -, hrest'⟩ := drop_succ hrest
    have hnext (q : HttpParser) (h' : HeaderState) (skip : ℕ) (hq : q.nread = l.parser.nread)
        (hv : InValue b q h') : ∃ r, headerValueLoop settings data lenient start rest skip h'
          { l with parser := q, p := l.p + 1 } = .error (.returned r) ∧
          r.parser.httpErrno ≠ .ok := by
      refine ih (l := { l with parser := q, p := l.p + 1 }) hv hrest' hlt ?_ (hq.trans_le hn)
      change _ < q.nread + (l.p + 1 - start)
      omega
    cases skip with
    | succ skip => exact hnext _ h skip rfl hv
    | zero =>
      rw [headerValueLoop]
      split
      · obtain ⟨l', hl', hparser, hp⟩ := callbackData_ok data (l := { l with
          parser.state := .headerAlmostDone, parser.headerState := h }) hs hv.sound.ok .headerValue
          0 1
        rw [hl']
        refine afterHeaderValue_overflow ?_ ?_
        · rw [hparser, hp]
          change l.parser.nread + (l.p - start) < _
          omega
        · rw [hparser, hp]
          exact hover
      split
      · have hsmall : l.parser.nread + (l.p - start) < 2 ^ 32 := by omega
        rw [count_eq { l with parser.state := .headerAlmostDone } hsmall, if_pos hover]
        exact ⟨_, rfl, nofun⟩
      split
      · exact ⟨_, rfl, nofun⟩
      split
      · exact hnext _ h _ rfl hv
      · rcases hv.char c with ⟨q, h', hq, hqn, hqv, -⟩ | ⟨e, he, ⟨q, hq⟩, -⟩
        · rw [hq]
          exact hnext q h' 0 hqn hqv
        · rw [hq]
          exact ⟨_, rfl, he⟩

theorem step_value {parser : HttpParser} {j : ℕ} (hparser : s.parser = { parser with
      nread := j, headerState := h }) (hstate : parser.state = .headerValue)
    (hprogress : s.progress ≠ .returned) (ch : Byte) : step settings s ch =
      if HTTP_MAX_HEADER_SIZE < j + 1 then .error .refused
      else HttpParserMachine.headerValue { parser with nread := j + 1, headerState := h }
        (s.progress = .skipping) ch s.log := by
  have hs : s.parser.state = .headerValue := by rw [hparser, ← hstate]
  have hs' : ({ parser with nread := j + 1, headerState := h } : HttpParser).state =
    .headerValue := hstate
  rw [step_header ch hprogress (hs ▸ rfl), hparser]
  dsimp only
  rw [react_headerValue hs']

/-- A value that ends with a carriage return. -/
theorem headerValue_cr (hs : DataOk settings) {l : Loop} {log : List Event}
    (hv : InValue b l.parser h) (hch : data[l.p]? = some CR) (hstart : start ≤ l.p)
    (hsmall : l.parser.nread + (l.p - start) ≤ HTTP_MAX_HEADER_SIZE)
    (hmid : Mid data pre (some (.headerValue, m)) l log)
    (hk : Continues settings data pre b start k) :
    Ends data pre b (headerValueLoop settings data b start (CR :: rest) 0 h l >>= k)
      (HttpParserMachine.headerValue { l.parser with
        nread := l.parser.nread + (l.p - start), headerState := h } lenient CR log >>=
          feed settings (data.drop (l.p + 1))) := by
  have hlt : l.p < data.length := (List.getElem?_eq_some_iff.mp hch).1
  have hmid' := hmid.parser { l.parser with state := .headerAlmostDone, headerState := h }
  rw [headerValueLoop, if_pos rfl, callbackData_single hmid'.mark hs hv.sound.ok 0,
    HttpParserMachine.headerValue, if_pos rfl]
  let closed : Loop := { l with
    parser := { l.parser with state := .headerAlmostDone, headerState := h }, mark := single none
    events := l.events ++ [.data .headerValue (slice data m l.p)] }
  change Ends data pre b (afterHeaderValue data start h closed >>= k) _
  rw [afterHeaderValue_eq closed hsmall, if_neg hlt.ne]
  refine hk _ _ hstart ⟨rfl, rfl, ?_, hlt, none, fun _ => .inl rfl, ?_⟩
  · exact ⟨hv.sound.ok, hv.sound.lenient, hsmall, hv.sound.length, nofun, trivial⟩
  · exact hmid'.handOver.advance_none.move rfl rfl rfl

/-- A value that ends with a line feed. -/
theorem headerValue_lf (hs : DataOk settings) {l : Loop} {log : List Event}
    (hv : InValue b l.parser h) (hch : data[l.p]? = some LF) (hstart : start ≤ l.p)
    (hsmall : l.parser.nread + (l.p - start) ≤ HTTP_MAX_HEADER_SIZE)
    (hmid : Mid data pre (some (.headerValue, m)) l log)
    (hk : Continues settings data pre b start k) :
    Ends data pre b (headerValueLoop settings data b start (LF :: rest) 0 h l >>= k)
      (HttpParserMachine.headerValue { l.parser with
        nread := l.parser.nread + (l.p - start), headerState := h } lenient LF log >>=
          feed settings (data.drop (l.p + 1))) := by
  have hlt : l.p < data.length := (List.getElem?_eq_some_iff.mp hch).1
  have hne : LF ≠ CR := by decide
  set q : HttpParser := { l.parser with state := .headerAlmostDone, headerState := h
                                        nread := l.parser.nread + (l.p - start) } with hq
  have hsound : Sound b 0 q :=
    ⟨hv.sound.ok, hv.sound.lenient, hsmall, hv.sound.length, nofun, trivial⟩
  have hmid' := hmid.parser q
  rw [headerValueLoop, if_neg hne, if_pos rfl,
    count_eq { l with parser.state := .headerAlmostDone } (hsmall.trans_lt (by decide)),
    if_neg hsmall.not_gt, HttpParserMachine.headerValue, if_neg hne, if_pos rfl]
  change Ends data pre b ((HttpParserExecute.callbackData settings data .headerValue 0 0
    { l with parser := q } >>= fun l => HttpParserExecute.perform settings data
      (headerAlmostDone l.parser LF) l) >>= k) _
  rw [callbackData_single hmid'.mark hs hsound.ok 0]
  exact (perform_agrees hs (headerAlmostDone q LF) (o := none) (hsound.fits_expect nofun rfl)
    hmid'.handOver hch).ends hlt (Nat.lt_succ_of_le hstart) hk

theorem isLineEnd_eq_false (hch : isLineEnd ch = false) : ch ≠ CR ∧ ch ≠ LF := by
  simpa [isLineEnd] using hch

/-- In `h_general` the machine only logs. -/
theorem headerValue_general (parser : HttpParser) {skipping : Bool} (hch : isLineEnd ch = false)
    (hcheck : (!skipping && !parser.lenientHttpHeaders && !isHeaderChar ch) = false)
    (hh : parser.headerState = .general) :
    HttpParserMachine.headerValue parser skipping ch log =
      .ok ⟨parser, .skipping, log ++ [.data .headerValue [ch]]⟩ := by
  obtain ⟨hcr, hlf⟩ := isLineEnd_eq_false hch
  rw [HttpParserMachine.headerValue, if_neg hcr, if_neg hlf, hcheck, if_neg Bool.false_ne_true, hh]
  change Except.ok _ = _
  rw [if_pos rfl, ← hh]

/-- A value that goes on beyond the largest header is refused. -/
theorem feed_skipping_overflow {s : Stream} (hstate : s.parser.state = .headerValue)
    (hh : s.parser.headerState = .general) (hprogress : s.progress = .skipping)
    (hn : s.parser.nread ≤ HTTP_MAX_HEADER_SIZE)
    (hend : HTTP_MAX_HEADER_SIZE ≤ s.parser.nread + rest.findIdx isLineEnd)
    (hlen : HTTP_MAX_HEADER_SIZE < s.parser.nread + rest.length) :
    ∃ e, feed settings rest s = .error e := by
  induction rest generalizing s with
  | nil => exact absurd hlen hn.not_gt
  | cons c rest ih =>
    have hne : s.progress ≠ .returned := hprogress ▸ nofun
    have heta : s.parser = { s.parser with nread := s.parser.nread, headerState := .general } := by
      rw [← hh]
    rw [feed_cons, step_value heta hstate hne]
    split
    · exact ⟨_, rfl⟩
    · rename_i hover
      rw [List.findIdx_cons] at hend
      rw [List.length_cons] at hlen
      cases hc : isLineEnd c with
      | true =>
        rw [hc] at hend
        exact absurd (Nat.lt_succ_of_le hend) hover
      | false =>
        rw [hc, cond_false] at hend
        rw [headerValue_general _ hc (by rw [hprogress]; rfl) rfl]
        exact ih (s := ⟨{ s.parser with nread := s.parser.nread + 1, headerState := .general },
            .skipping, s.log ++ [.data .headerValue [c]]⟩) hstate rfl rfl
          (Nat.le_of_not_lt hover) (by change _ ≤ s.parser.nread + 1 + _; omega)
          (by change _ < s.parser.nread + 1 + _; omega)

theorem headerValueLoop_skip (l : Loop) (hskip : rest.length ≤ skip) :
    headerValueLoop settings data lenient start rest skip h l =
      afterHeaderValue data start h { l with p := l.p + rest.length } := by
  induction rest generalizing l skip with
  | nil => rfl
  | cons c rest ih =>
    rw [List.length_cons] at hskip ⊢
    obtain ⟨skip, rfl⟩ := Nat.exists_eq_add_of_le' (Nat.one_le_of_lt hskip)
    rw [headerValueLoop, ih l.advance (Nat.le_of_succ_le_succ hskip), Loop.advance, Nat.add_assoc,
      Nat.add_comm 1]

theorem endBuffer_counts (hprogress : s.progress = .looping ∨ s.progress = .skipping) :
    endBuffer s = (countByte s.parser >>= fun parser => .ok ⟨parser, .fresh, s.log⟩) := by
  rw [endBuffer]
  rcases hprogress with h | h <;> rw [h]

/-- The loop over a value that began at `start`, against the machine at the same character. What
`h_general` skips ends at the first line end. -/
theorem headerValueLoop_ends (hs : DataOk settings) {l : Loop} {s : Stream}
    (hrest : data.drop l.p = rest) (hle : l.p ≤ data.length) (hstart : start ≤ l.p)
    (hlt : start < data.length) (hsize : data.length + HTTP_MAX_HEADER_SIZE < 2 ^ 32)
    (hparser : s.parser = { l.parser with nread := n + (l.p - start), headerState := h })
    (hn : l.parser.nread = n + 1) (hv : InValue b l.parser h)
    (hsmall : n + (l.p - start) ≤ HTTP_MAX_HEADER_SIZE)
    (hprogress : s.progress = .skipping ∧ start < l.p ∧ h = .general ∧
        skip = rest.findIdx isLineEnd ∨
      s.progress = (if l.p = start then .fresh else .looping) ∧ skip = 0)
    (hmid : Mid data pre (some (.headerValue, m)) l s.log)
    (hk : Continues settings data pre b start k) :
    Ends data pre b (headerValueLoop settings data b start rest skip h l >>= k)
      (feed settings rest s) := by
  induction rest generalizing l s h skip with
  | nil =>
    have hp : l.p = data.length := hle.antisymm (List.drop_eq_nil_iff.mp hrest)
    have hne : l.p ≠ start := (hp ▸ hlt).ne'
    have hlooping : s.progress = .looping ∨ s.progress = .skipping := by
      rcases hprogress with hprogress | hprogress
      · exact .inr hprogress.1
      · exact .inl (hprogress.1.trans (if_neg hne))
    have hloop : headerValueLoop settings data b start [] skip h l =
        afterHeaderValue data start h l := headerValueLoop_skip l (Nat.zero_le _)
    rw [hloop, feed_nil, endBuffer_counts hlooping, countByte, hparser]
    by_cases hover : HTTP_MAX_HEADER_SIZE < n + (l.p - start) + 1
    · obtain ⟨r, hr, hbad⟩ : ∃ r, afterHeaderValue data start h l = .error (.returned r) ∧
          r.parser.httpErrno ≠ .ok := afterHeaderValue_overflow (by omega) (by omega)
      rw [if_pos hover, hr]
      exact .refused hbad
    · have hsmall' : l.parser.nread + (l.p - start) ≤ HTTP_MAX_HEADER_SIZE := by omega
      rw [if_neg hover, afterHeaderValue_eq l hsmall', if_pos hp,
        show n + (l.p - start) + 1 = l.parser.nread + (l.p - start) by omega]
      have hopen : openElement l.parser.state = some .headerValue := by
        rw [hv.state]
        rfl
      exact endOfBuffer_ends hk hp hlt (hv.withNread hsmall') hopen hmid
  | cons ch rest ih =>
    obtain ⟨hlt', hch, hrest'⟩ := drop_succ hrest
    have hne : s.progress ≠ .returned := by
      rcases hprogress with hprogress | hprogress
      · rw [hprogress.1]
        decide
      · rw [hprogress.1]
        split <;> decide
    rw [feed_cons, step_value hparser hv.state hne]
    by_cases hover : HTTP_MAX_HEADER_SIZE < n + (l.p - start) + 1
    · obtain ⟨r, hr, hbad⟩ : ∃ r, headerValueLoop settings data b start (ch :: rest) skip h l =
          .error (.returned r) ∧ r.parser.httpErrno ≠ .ok :=
        headerValueLoop_overflow hs hv hrest hle hsize (by omega)
      rw [if_pos hover, hr]
      exact .refused hbad
    have hnread : n + (l.p - start) + 1 = l.parser.nread + (l.p - start) := by omega
    have hsmall' : l.parser.nread + (l.p - start) ≤ HTTP_MAX_HEADER_SIZE := by omega
    rw [if_neg hover, hnread]
    have hcounted := hv.withNread hsmall'
    -- a character that `h_general` or a search passes over
    have hgeneral (skip : ℕ) (hh : h = .general) (hend : isLineEnd ch = false) (skipping : Bool)
        (hcheck : (!skipping && !l.parser.lenientHttpHeaders && !isHeaderChar ch) = false)
        (hskip : skip = rest.findIdx isLineEnd) :
        Ends data pre b (headerValueLoop settings data b start rest skip h l.advance >>= k)
          (HttpParserMachine.headerValue { l.parser with
            nread := l.parser.nread + (l.p - start), headerState := h } skipping ch s.log >>=
              feed settings rest) := by
      subst hh
      rw [headerValue_general { l.parser with
        nread := l.parser.nread + (l.p - start), headerState := .general } hend hcheck rfl]
      have hadd : l.parser.nread + (l.p - start) = n + (l.p + 1 - start) := by omega
      exact ih (l := l.advance) hrest' hlt' (Nat.le_succ_of_le hstart)
        (by rw [hadd]; rfl) hn hv (hadd ▸ hsmall')
        (.inl ⟨rfl, Nat.lt_succ_of_le hstart, rfl, hskip⟩) (hmid.advance hch)
    cases skip with
    | succ skip =>
      rcases hprogress with ⟨hskipping, -, hh, hfind⟩ | ⟨-, hzero⟩
      · rw [List.findIdx_cons] at hfind
        cases hend : isLineEnd ch with
        | true =>
          rw [hend] at hfind
          cases hfind
        | false =>
          rw [hend, cond_false] at hfind
          rw [hskipping]
          exact hgeneral skip hh hend true rfl (Nat.succ.inj hfind)
      · cases hzero
    | zero =>
      by_cases hcr : ch = CR
      · subst hcr
        exact hrest' ▸ headerValue_cr hs hv hch hstart hsmall' hmid hk
      by_cases hlf : ch = LF
      · subst hlf
        exact hrest' ▸ headerValue_lf hs hv hch hstart hsmall' hmid hk
      have hend : isLineEnd ch = false := by simp [isLineEnd, hcr, hlf]
      have hfresh : s.progress ≠ .skipping := by
        rcases hprogress with ⟨-, -, -, hfind⟩ | ⟨hprogress, -⟩
        · rw [List.findIdx_cons, hend] at hfind
          cases hfind
        · rw [hprogress]
          split <;> decide
      rw [headerValueLoop, if_neg hcr, if_neg hlf, decide_eq_false hfresh]
      by_cases hcheck : (!b && !isHeaderChar ch) = true
      · have hcheck' : (!false && !l.parser.lenientHttpHeaders && !isHeaderChar ch) = true := by
          rw [show l.parser.lenientHttpHeaders = b from hv.sound.lenient]
          exact hcheck
        rw [if_pos hcheck, HttpParserMachine.headerValue, if_neg hcr, if_neg hlf, hcheck',
          if_pos rfl]
        exact .refused invalidHeaderToken_ne
      have hcheck' : (!false && !l.parser.lenientHttpHeaders && !isHeaderChar ch) = false := by
        rw [show l.parser.lenientHttpHeaders = b from hv.sound.lenient]
        exact Bool.eq_false_iff.mpr hcheck
      rw [if_neg hcheck]
      by_cases hh : h = .general
      · rw [if_pos hh]
        rcases lineEnd_cases (ch :: rest) with hfind | ⟨hall, hlong, hfar⟩
        · rw [List.findIdx_cons, hend, cond_false] at hfind
          exact hgeneral _ hh hend false hcheck' (by rw [hfind]; rfl)
        · -- the search leaves the buffer, and both count too many characters
          subst hh
          have hlen : rest.length = data.length - (l.p + 1) := by
            rw [← hrest', List.length_drop]
          rw [List.length_cons] at hall hlong
          rw [List.findIdx_cons, hend, cond_false] at hfar
          have hloop : headerValueLoop settings data b start rest (lineEnd (ch :: rest) - 1)
              .general l.advance = afterHeaderValue data start .general
                { l.advance with p := l.p + 1 + rest.length } :=
            headerValueLoop_skip l.advance (by rw [hall]; exact le_rfl)
          obtain ⟨r, hr, hbad⟩ : ∃ r, afterHeaderValue data start .general
              { l.advance with p := l.p + 1 + rest.length } = .error (.returned r) ∧
                r.parser.httpErrno ≠ .ok := by
            refine afterHeaderValue_overflow ?_ ?_
            · change l.parser.nread + (l.p + 1 + rest.length - start) < _
              omega
            · change _ < l.parser.nread + (l.p + 1 + rest.length - start)
              omega
          rw [hloop, hr, headerValue_general { l.parser with
            nread := l.parser.nread + (l.p - start), headerState := .general } hend hcheck' rfl]
          obtain ⟨e, he⟩ : ∃ e, feed settings rest ⟨{ l.parser with
              nread := l.parser.nread + (l.p - start), headerState := .general }, .skipping,
              s.log ++ [.data .headerValue [ch]]⟩ = .error e :=
            feed_skipping_overflow hv.state rfl rfl hsmall'
              (by change _ ≤ l.parser.nread + (l.p - start) + _; omega)
              (by change _ < l.parser.nread + (l.p - start) + _; omega)
          change Ends data pre b (.error (.returned r)) (feed settings rest _)
          rw [he]
          exact .refused hbad
      · rw [if_neg hh, HttpParserMachine.headerValue, if_neg hcr, if_neg hlf, hcheck',
          if_neg Bool.false_ne_true]
        rcases hv.char ch with ⟨q, h', hq, hqn, hqv, hall⟩ | ⟨e, he, ⟨q, hq⟩, hall⟩
        · rw [hq, hall]
          have hadd : l.parser.nread + (l.p - start) = n + (l.p + 1 - start) := by omega
          refine ih (l := { l with parser := q, p := l.p + 1 }) hrest' hlt'
            (Nat.le_succ_of_le hstart) ?_ (hqn.trans hn) hqv (hadd ▸ hsmall') ?_
            ((hmid.advance hch).move rfl rfl rfl)
          · rw [hadd]
          · exact .inr ⟨(if_neg hh).trans (if_neg (Nat.lt_succ_of_le hstart).ne').symm, rfl⟩
        · obtain ⟨q', hq'⟩ := hall (l.parser.nread + (l.p - start))
          rw [hq, hq']
          exact .refused he

end HttpParserHeaderLoops
