import Grt.HttpParserHeaderLoops

/-! Every run of the machine: no assertion fails, no read leaves its array, the header stays
within its bound, and the text that is open is the last one in the log. -/
namespace HttpParserInvariant

open LittleEndian HttpParserState HttpParserSwitch HttpParserSound PieceStream
open HttpParserExecute hiding headerField headerValue bodyIdentity chunkData perform
open HttpParserMachine
open HttpParserMarks HttpParserHeaderLoops

variable {settings : Settings} {s s' : Stream} {ch : Byte} {b : Bool} {log : List Event}
  {parser : HttpParser} {o : Option Element}

theorem counted {parser : HttpParser} (hsound : Sound b 0 parser)
    (hn : parser.nread + 1 ≤ HTTP_MAX_HEADER_SIZE) :
    Sound b 1 { parser with nread := parser.nread + 1 } where
  ok := hsound.ok
  lenient := hsound.lenient
  nread := hn
  length := hsound.length
  chunk hchunk := by
    change parser.nread + 1 = 1
    rw [hsound.chunk hchunk]
  state := by
    have := hsound.state
    change SoundAt _ parser.state
    cases hs : parser.state <;> rw [hs] at this <;> exact this

/-- In the states that count no characters no chunk size begins. -/
theorem uncounted {parser : HttpParser} (hsound : Sound b 0 parser)
    (hs : parsingHeader parser.state = false) : Sound b 1 parser where
  ok := hsound.ok
  lenient := hsound.lenient
  nread := hsound.nread
  length := hsound.length
  chunk hchunk := by
    rw [hchunk] at hs
    exact nomatch hs
  state := hsound.state

theorem react_switch {parser : HttpParser} (h : isLoopState parser.state = false) (skipping : Bool)
    (ch : Byte) (log : List Event) : react settings parser skipping ch log =
      HttpParserMachine.perform ch (switch settings parser ch) log := by
  unfold react
  cases hs : parser.state <;> first | rfl | (rw [hs] at h; exact nomatch h)

/-- The text that goes on in the next buffer is the last one handed over. -/
def Opened (s : State) (log : List Event) : Prop := ∀ e, openElement s = some e → EndsWith e log

theorem openElement_upgraded (h : Upgraded parser) : openElement parser.state = none := by
  rcases h.2 with h | h | h <;> rw [h] <;> rfl

/-- What holds of a stream between two characters. -/
structure Running (b : Bool) (s : Stream) : Prop where
  sound : Sound b 0 s.parser
  opened : Opened s.parser.state s.log
  inLoop : s.progress = .looping ∨ s.progress = .skipping →
    s.parser.state = .headerField ∨ s.parser.state = .headerValue
  returned : s.progress = .returned → Upgraded s.parser

theorem Running.enter {parser : HttpParser} (hsound : Sound b 0 parser)
    (hopened : Opened parser.state log) : Running b ⟨parser, .fresh, log⟩ where
  sound := hsound
  opened := hopened
  inLoop h := absurd h (not_inLoop (.inl rfl))
  returned h := absurd h fresh_ne_returned

/-- The stream goes on running, or the character is refused by an error of the parser. -/
def Runs (b : Bool) : Except Refusal Stream → Prop
  | .ok s => Running b s
  | .error e => e = .refused

theorem opened_logged (log : List Event) (ch : Byte) :
    Opened parser.state (log ++ logged parser.state ch) := by
  intro e he
  rw [logged, he]
  exact (endsWith_singleton e [ch]).append log

theorem opened_none (h : openElement parser.state = none) : Opened parser.state log := by
  intro e he
  rw [h] at he
  exact nomatch he

theorem runs_perform {step : Step} (hfits : Fits b o step) (ch : Byte) (log : List Event) :
    Runs b (perform ch step log) := by
  induction step generalizing o log with
  | next parser => exact .enter hfits.2 (opened_logged log ch)
  | exit parser consumed =>
    rw [perform]
    by_cases hok : parser.httpErrno = .ok
    · obtain ⟨-, -, hupgraded, hsound⟩ := hfits hok
      rw [if_pos hok]
      exact ⟨hsound, opened_none (openElement_upgraded hupgraded),
        fun h => absurd h (not_inLoop (.inr rfl)), fun _ => hupgraded⟩
    · rw [if_neg hok]
      rfl
  | abort => exact hfits.elim
  | mark e rest ih => exact ih hfits.2 _
  | data e parser consumed rest ih => exact ih hfits.2.2 _
  | call n rest ih => exact ih hfits.2 _

theorem opened_append {e : Element} (h : openElement parser.state = some e) (log : List Event)
    (ch : Byte) : Opened parser.state (log ++ [.data e [ch]]) := by
  intro e' he
  cases h.symm.trans he
  exact (endsWith_singleton e [ch]).append log

theorem eq_headerField_of_open {st : State} (h : openElement st = some .headerField) :
    st = .headerField := by
  cases st <;> first | rfl | exact nomatch h

theorem runs_headerField (h : Sound b 1 parser) (hs : parser.state = .headerField) (ch : Byte)
    (log : List Event) : Runs b (headerField parser ch log) := by
  rw [headerField]
  split
  · split
    · exact runs_perform (h.fits_endText rfl) ch log
    · rfl
  · have hfits : Fits b (some .headerField) (headerFieldChar parser ch) :=
      h.fits_headerFieldChar hs
    split
    · rename_i q hq
      rw [hq] at hfits
      obtain ⟨hopen, hsound⟩ := hfits
      exact ⟨hsound, opened_append hopen.symm log ch,
        fun _ => .inl (eq_headerField_of_open hopen.symm), fun h => absurd h looping_ne_returned⟩
    · rename_i hq
      rw [hq] at hfits
      exact hfits.elim
    · rfl

theorem runs_headerValue (h : Sound b 1 parser) (hs : parser.state = .headerValue)
    (skipping : Bool) (ch : Byte) (log : List Event) :
    Runs b (headerValue parser skipping ch log) := by
  rw [headerValue]
  have hdone : Sound b 0 { parser with state := .headerAlmostDone } :=
    h.plain rfl rfl ⟨rfl, rfl⟩ rfl h.length
  have halmost : Fits b none (headerAlmostDone { parser with state := .headerAlmostDone } ch) :=
    hdone.fits_expect (by decide) rfl
  split
  · exact .enter hdone (opened_none rfl)
  split
  · exact runs_perform halmost ch log
  split
  · rfl
  · have hfits : ValueFits b (headerValueChar parser parser.headerState ch) := by
      have hvalue := h.state
      rw [hs] at hvalue
      exact h.fits_headerValueChar hs hvalue
    split
    · rename_i q h' hq
      rw [hq] at hfits
      obtain ⟨hstate, hsound⟩ := hfits
      have hopen : openElement q.state = some .headerValue := by
        rw [hstate]
        rfl
      refine ⟨hsound, opened_append hopen log ch, fun _ => .inr hstate, ?_⟩
      · intro hprogress
        change (if _ then _ else _) = _ at hprogress
        split at hprogress <;> cases hprogress
    · rfl
    · rename_i hq
      rw [hq] at hfits
      exact hfits.elim

theorem runs_bodyIdentity (h : Sound b 1 parser) (hs : parser.state = .bodyIdentity) (ch : Byte)
    (log : List Event) : Runs b (bodyIdentity settings parser ch log) := by
  have hlength := h.state
  rw [hs] at hlength
  obtain ⟨hpos, hmax⟩ := hlength
  rw [bodyIdentity, if_neg (by omega)]
  dsimp only
  split
  · have hdone : Sound b 0 { parser with
        contentLength := parser.contentLength - 1, state := .messageDone } :=
      h.plain rfl rfl ⟨rfl, rfl⟩ rfl ((Nat.sub_le _ _).trans h.length)
    exact runs_perform hdone.fits_messageDone ch _
  · rename_i hrest
    refine .enter ⟨h.ok, h.lenient, h.nread, (Nat.sub_le _ _).trans h.length, ?_, ?_⟩
      (opened_none (by rw [hs]; rfl))
    · intro hchunk
      exact nomatch hs.symm.trans hchunk
    · change SoundAt _ parser.state
      rw [hs]
      exact ⟨Nat.pos_of_ne_zero hrest, (Nat.sub_le _ _).trans_lt hmax⟩

theorem runs_chunkData (h : Sound b 1 parser) (hs : parser.state = .chunkData) (ch : Byte)
    (log : List Event) : Runs b (chunkData parser ch log) := by
  have hlength := h.state
  rw [hs] at hlength
  obtain ⟨hchunked, hpos, hmax⟩ := hlength
  have hassert : ¬ (parser.flags.chunked = false ∨ parser.contentLength = 0 ∨
      parser.contentLength = ULLONG_MAX) := by
    rw [hchunked]
    rintro (h | h | h)
    · exact nomatch h
    · omega
    · omega
  rw [chunkData, if_neg hassert]
  dsimp only
  split
  · rename_i hzero
    exact .enter ⟨h.ok, h.lenient, h.nread, hzero.le.trans (Nat.zero_le _), nofun, hchunked, hzero⟩
      (opened_none rfl)
  · rename_i hrest
    refine .enter ⟨h.ok, h.lenient, h.nread, (Nat.sub_le _ _).trans h.length, ?_, ?_⟩
      (opened_none (by rw [hs]; rfl))
    · intro hchunk
      exact nomatch hs.symm.trans hchunk
    · change SoundAt _ parser.state
      rw [hs]
      exact ⟨hchunked, Nat.pos_of_ne_zero hrest, (Nat.sub_le _ _).trans_lt hmax⟩

theorem runs_react (h : Sound b 1 parser) (skipping : Bool) (ch : Byte) (log : List Event) :
    Runs b (react settings parser skipping ch log) := by
  by_cases hloop : isLoopState parser.state = false
  · rw [react_switch hloop]
    exact runs_perform (h.fits_switch hloop (.inl rfl)) ch log
  cases hs : parser.state
  case headerField => exact react_headerField hs ▸ runs_headerField h hs ch log
  case headerValue => exact react_headerValue hs ▸ runs_headerValue h hs skipping ch log
  case bodyIdentity => exact react_bodyIdentity hs ▸ runs_bodyIdentity h hs ch log
  case bodyIdentityEof =>
    have hplain : Sound b 0 parser := h.plain (by rw [hs]; rfl) rfl ⟨rfl, rfl⟩ rfl h.length
    rw [react_bodyIdentityEof hs]
    exact .enter hplain (opened_none (by rw [hs]; rfl))
  case chunkData => exact react_chunkData hs ▸ runs_chunkData h hs ch log
  all_goals
    rw [hs] at hloop
    exact absurd rfl hloop

/-- One character. -/
theorem Running.step (h : Running b s) (ch : Byte) : Runs b (step settings s ch) := by
  rw [HttpParserMachine.step]
  split
  · rfl
  · cases hheader : parsingHeader s.parser.state with
    | true =>
      rw [if_pos rfl, countByte]
      split
      · rfl
      · rename_i hover
        exact runs_react (counted h.sound (Nat.le_of_not_lt hover)) _ ch s.log
    | false => exact runs_react (uncounted h.sound hheader) _ ch s.log

/-- A counted character in a state whose case looks at nothing else. -/
theorem step_switch (hprogress : s.progress ≠ .returned) (hheader : parsingHeader s.parser.state)
    (hloop : isLoopState s.parser.state = false) (hn : s.parser.nread < HTTP_MAX_HEADER_SIZE)
    (ch : Byte) : step settings s ch = perform ch
      (switch settings { s.parser with nread := s.parser.nread + 1 } ch) s.log := by
  have hloop' : isLoopState ({ s.parser with nread := s.parser.nread + 1 } : HttpParser).state =
    false := hloop
  rw [step_header ch hprogress hheader, if_neg (Nat.not_lt.mpr hn), react_switch hloop']

theorem step_switch_ok (hheader : parsingHeader s.parser.state)
    (hloop : isLoopState s.parser.state = false) (h : step settings s ch = .ok s') :
    perform ch (switch settings { s.parser with nread := s.parser.nread + 1 } ch) s.log =
      .ok s' := by
  have hprogress : s.progress ≠ .returned := by
    intro hprogress
    rw [step, if_pos hprogress] at h
    cases h
  have hn : s.parser.nread < HTTP_MAX_HEADER_SIZE := by
    by_contra hn
    rw [step_header ch hprogress hheader, if_pos (Nat.lt_succ_of_le (Nat.le_of_not_lt hn))] at h
    cases h
  rwa [step_switch hprogress hheader hloop hn] at h

/-- A case that only goes on, from a state that is written out. -/
theorem step_to (parser : HttpParser) (st : State) (log : List Event) {q : HttpParser}
    (hheader : parsingHeader st) (hloop : isLoopState st = false)
    (hn : parser.nread < HTTP_MAX_HEADER_SIZE)
    (hswitch : switch settings { parser with state := st, nread := parser.nread + 1 } ch =
      .next q) : step settings ⟨{ parser with state := st }, .fresh, log⟩ ch =
      .ok ⟨q, .fresh, log ++ logged q.state ch⟩ := by
  refine (step_switch fresh_ne_returned hheader hloop hn ch).trans ?_
  change perform ch (switch settings { parser with state := st, nread := parser.nread + 1 } ch)
    log = _
  rw [hswitch, perform]

/-- The same where no text is open. -/
theorem step_quiet (parser : HttpParser) (st : State) (log : List Event) {q : HttpParser}
    (hheader : parsingHeader st) (hloop : isLoopState st = false)
    (hn : parser.nread < HTTP_MAX_HEADER_SIZE)
    (hswitch : switch settings { parser with state := st, nread := parser.nread + 1 } ch =
      .next q) (hopen : openElement q.state = none) :
    step settings ⟨{ parser with state := st }, .fresh, log⟩ ch = .ok ⟨q, .fresh, log⟩ := by
  rw [step_to parser st log hheader hloop hn hswitch, logged, hopen, List.append_nil]

theorem Running.run (h : Running b s) (xs : Str) :
    Runs b (SymbolMachine.run (HttpParserMachine.step settings) s xs) := by
  induction xs generalizing s with
  | nil => exact h
  | cons c xs ih =>
    rw [SymbolMachine.run_cons]
    have hstep : Runs b (HttpParserMachine.step settings s c) := h.step c
    cases hs : HttpParserMachine.step settings s c with
    | ok s =>
      rw [hs] at hstep
      exact ih hstep
    | error e =>
      rw [hs] at hstep
      exact hstep

theorem Running.endBuffer (h : Running b s) : Runs b (endBuffer s) := by
  have hcount (hloop : s.progress = .looping ∨ s.progress = .skipping) :
      Runs b (countByte s.parser >>= fun parser => .ok ⟨parser, .fresh, s.log⟩) := by
    rw [countByte]
    split
    · rfl
    · rename_i hover
      exact .enter (sound_withNread h.sound (h.inLoop hloop) (Nat.le_of_not_lt hover)) h.opened
  rw [HttpParserMachine.endBuffer]
  cases hp : s.progress with
  | looping => exact hcount (.inl hp)
  | skipping => exact hcount (.inr hp)
  | fresh => exact .enter h.sound h.opened
  | returned => exact .enter h.sound h.opened

theorem Running.feed (h : Running b s) (data : Str) : Runs b (feed settings data s) := by
  rw [HttpParserMachine.feed]
  have hrun : Runs b (SymbolMachine.run (HttpParserMachine.step settings) s data) := h.run data
  cases hs : SymbolMachine.run (HttpParserMachine.step settings) s data with
  | ok s =>
    rw [hs] at hrun
    exact hrun.endBuffer
  | error e =>
    rw [hs] at hrun
    exact hrun

theorem sound_httpParserInit (t : HttpParserType) : Sound false 0 (httpParserInit t) :=
  ⟨rfl, rfl, Nat.zero_le _, Nat.zero_le _, by cases t <;> exact nofun, by cases t <;> trivial⟩

end HttpParserInvariant
