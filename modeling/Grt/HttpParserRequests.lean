import Grt.HttpParserTargets
import Mathlib.Data.Nat.Digits.Lemmas

/-! Requests as they are written, and how the machine reads them: each header, each body and each
chunk is handed over as it was written, and the parser is ready for the next request. -/
namespace HttpParserRequests

open LittleEndian HttpParserState HttpParserSwitch HttpParserSound PieceStream
open HttpParserExecute hiding headerField headerValue bodyIdentity chunkData perform
open HttpParserMachine HttpParserMarks HttpParserInvariant HttpParserNames
open HttpParserLengths HttpParserBodies HttpParserTargets
open HttpParserMethods (perform_fail perform_call)

variable {settings : Settings} {c : Byte} {name value text : Str} {parser : HttpParser}
  {log : List Event} {s s' : Stream}

def versionText : Str := chars ['H', 'T', 'T', 'P', '/', '1', '.', '1'] ++ [CR, LF]

theorem run_version (settings : Settings) (parser : HttpParser)
    (hn : parser.nread + 10 ≤ HTTP_MAX_HEADER_SIZE) (log : List Event) :
    SymbolMachine.run (step settings) ⟨{ parser with state := .reqHttpStart }, .fresh, log⟩
        versionText =
      .ok ⟨{ parser with
        state := .headerFieldStart, httpMajor := 1, httpMinor := 1, nread := parser.nread + 10 },
          .fresh, log⟩ := by
  have hstep (st st' : State) (major minor k : ℕ) (c : Byte) (hheader : parsingHeader st)
      (hloop : isLoopState st = false) (hopen : openElement st' = none) (major' minor' : ℕ)
      (hk : k < 10)
      (hswitch : switch settings { parser with
          state := st, httpMajor := major, httpMinor := minor, nread := parser.nread + k + 1 } c =
        .next { parser with
          state := st', httpMajor := major', httpMinor := minor'
          nread := parser.nread + k + 1 }) :
      step settings ⟨{ parser with
          state := st, httpMajor := major, httpMinor := minor, nread := parser.nread + k }, .fresh,
            log⟩ c =
        .ok ⟨{ parser with
          state := st', httpMajor := major', httpMinor := minor', nread := parser.nread + (k + 1) },
            .fresh, log⟩ :=
    step_quiet { parser with httpMajor := major, httpMinor := minor, nread := parser.nread + k } st
      log hheader hloop (by change parser.nread + k < _; omega) hswitch hopen
  refine (SymbolMachine.run_cons_of_ok
    (hstep .reqHttpStart .reqHttpH _ _ 0 _ rfl rfl rfl _ _ (by decide) rfl) _).trans ?_
  refine (SymbolMachine.run_cons_of_ok
    (hstep .reqHttpH .reqHttpHT _ _ 1 _ rfl rfl rfl _ _ (by decide) rfl) _).trans ?_
  refine (SymbolMachine.run_cons_of_ok
    (hstep .reqHttpHT .reqHttpHTT _ _ 2 _ rfl rfl rfl _ _ (by decide) rfl) _).trans ?_
  refine (SymbolMachine.run_cons_of_ok
    (hstep .reqHttpHTT .reqHttpHTTP _ _ 3 _ rfl rfl rfl _ _ (by decide) rfl) _).trans ?_
  refine (SymbolMachine.run_cons_of_ok
    (hstep .reqHttpHTTP .reqFirstHttpMajor _ _ 4 _ rfl rfl rfl _ _ (by decide) rfl) _).trans ?_
  refine (SymbolMachine.run_cons_of_ok
    (hstep .reqFirstHttpMajor .reqHttpMajor _ _ 5 _ rfl rfl rfl 1 _ (by decide) rfl) _).trans ?_
  refine (SymbolMachine.run_cons_of_ok
    (hstep .reqHttpMajor .reqFirstHttpMinor _ _ 6 _ rfl rfl rfl _ _ (by decide) rfl) _).trans ?_
  refine (SymbolMachine.run_cons_of_ok
    (hstep .reqFirstHttpMinor .reqHttpMinor _ _ 7 _ rfl rfl rfl _ 1 (by decide) rfl) _).trans ?_
  refine (SymbolMachine.run_cons_of_ok
    (hstep .reqHttpMinor .reqLineAlmostDone _ _ 8 _ rfl rfl rfl _ _ (by decide) rfl) _).trans ?_
  exact SymbolMachine.run_cons_of_ok
    (hstep .reqLineAlmostDone .headerFieldStart _ _ 9 _ rfl rfl rfl _ _ (by decide) rfl) _

def headerLine (name value : Str) : Str := name ++ [char ':', SP] ++ value ++ [CR, LF]

def headerLog (name value : Str) : List Event :=
  textLog .headerField name ++ textLog .headerValue value

theorem token_line (hc : token c ≠ 0) : c ≠ CR ∧ c ≠ LF := by
  constructor <;> rintro rfl <;> exact hc (by decide)

/-- The parser at the blank after a name. -/
def afterName (parser : HttpParser) (name : Str) : HttpParser :=
  { inName parser (name.map token) with nread := parser.nread + (name.length + 2) }

theorem run_headerName (settings : Settings) (parser : HttpParser) (hname : name ≠ [])
    (htoken : ∀ c ∈ name, token c ≠ 0)
    (honce : ¬ (parser.flags.contentlength ∧ lengthNamed (name.map token)))
    (hn : parser.nread + (name.length + 2) ≤ HTTP_MAX_HEADER_SIZE) (log : List Event) :
    SymbolMachine.run (step settings) ⟨{ parser with state := .headerFieldStart }, .fresh, log⟩
        (name ++ [char ':', SP]) =
      .ok ⟨{ afterName parser name with state := .headerValueDiscardWs }, .fresh,
        log ++ textLog .headerField name⟩ := by
  have hrun := (run_name settings parser hname htoken (fun c hc => token_line (htoken c hc))
    (by omega) log).trans (if_neg honce)
  have hcolon := step_colon settings parser (name.map token)
    (by rw [List.length_map]; omega) (namePlace_ne name) (log ++ textLog .headerField name)
  rw [List.length_map] at hcolon
  have hblank := step_blank settings { inName parser (name.map token) with
    nread := parser.nread + (name.length + 1) } (.inl rfl : SP = SP ∨ SP = HT)
    (by change parser.nread + (name.length + 1) < _; omega) (log ++ textLog .headerField name)
  exact (SymbolMachine.run_append_of_ok hrun _).trans <|
    (SymbolMachine.run_cons_of_ok hcolon _).trans (SymbolMachine.run_cons_of_ok hblank _)

/-- A line after the headers that is not folded ends the header before it. -/
theorem step_lws (settings : Settings) (parser : HttpParser) (hc : ¬ (c = SP ∨ c = HT))
    (hn : parser.nread < HTTP_MAX_HEADER_SIZE) (log : List Event) :
    step settings ⟨{ parser with state := .headerValueLws }, .fresh, log⟩ c =
      step settings ⟨{ finishHeader parser with state := .headerFieldStart }, .fresh, log⟩ c := by
  refine (step_switch fresh_ne_returned rfl rfl hn c).trans
    (Eq.trans ?_ (step_switch fresh_ne_returned rfl rfl hn c).symm)
  change perform c (headerValueLws settings { parser with
    state := .headerValueLws, nread := parser.nread + 1 } c) log = _
  rw [headerValueLws, if_neg hc]
  rfl

/-- The same after an empty value, whose callback is called then. -/
theorem step_discardLws (settings : Settings) (parser : HttpParser) (hc : ¬ (c = SP ∨ c = HT))
    (hn : parser.nread < HTTP_MAX_HEADER_SIZE) (log : List Event) :
    step settings ⟨{ parser with state := .headerValueDiscardLws }, .fresh, log⟩ c =
      step settings ⟨{ finishHeader parser with state := .headerFieldStart }, .fresh,
        log ++ textLog .headerValue []⟩ c := by
  refine (step_switch fresh_ne_returned rfl rfl hn c).trans
    (Eq.trans ?_ (step_switch fresh_ne_returned rfl rfl hn c).symm)
  change perform c (headerValueDiscardLws settings { parser with
    state := .headerValueDiscardLws, nread := parser.nread + 1 } c) log = _
  rw [headerValueDiscardLws, if_neg hc]
  rfl

/-- The states at the end of a name that the parser does not know. -/
def isOrdinary : HeaderState → Bool
  | .general | .C | .CO | .CON | .matchingConnection | .matchingProxyConnection
  | .matchingContentLength | .matchingTransferEncoding | .matchingUpgrade => true
  | _ => false

/-- The characters of a value. -/
def ValueChars (value : Str) : Prop := ∀ c ∈ value, isHeaderChar c ∧ c ≠ CR ∧ c ≠ LF

instance (value : Str) : Decidable (ValueChars value) :=
  inferInstanceAs (Decidable (∀ c ∈ value, isHeaderChar c ∧ c ≠ CR ∧ c ≠ LF))

/-- The parser in a value that it does not look into. -/
def inGeneral (parser : HttpParser) (count : ℕ) : HttpParser :=
  { parser with state := .headerValue, headerState := .general, nread := count }

/-- Where the machine stands after some characters of a value. -/
theorem generalPlace_ne (value : Str) :
    (if value = [] then Progress.fresh else .skipping) ≠ .returned := by
  split <;> decide

theorem lengthPlace_ne (value : Str) :
    (if value = [] then Progress.fresh else .looping) ≠ .returned := by
  split <;> decide

theorem run_general (settings : Settings) (parser : HttpParser) (count : ℕ) {progress : Progress}
    (hprogress : progress ≠ .returned) (hvalue : ValueChars value)
    (hn : count + value.length ≤ HTTP_MAX_HEADER_SIZE) (log : List Event) :
    SymbolMachine.run (step settings) ⟨inGeneral parser count, progress, log⟩ value =
      .ok ⟨inGeneral parser (count + value.length), if value = [] then progress else .skipping,
        log ++ pieceLog .headerValue value⟩ := by
  induction value generalizing count progress log with
  | nil => exact congrArg (fun log => Except.ok (Stream.mk _ _ log)) (List.append_nil log).symm
  | cons c value ih =>
    rw [ValueChars, List.forall_mem_cons] at hvalue
    rw [List.length_cons] at hn
    have hstep : step settings ⟨inGeneral parser count, progress, log⟩ c =
        .ok ⟨inGeneral parser (count + 1), .skipping, log ++ [.data .headerValue [c]]⟩ :=
      step_valueChar (inGeneral parser count) rfl hprogress hvalue.1.2 hvalue.1.1
        (by change count < _; omega) rfl log
    refine (SymbolMachine.run_cons_of_ok hstep _).trans ?_
    have hskipping : Progress.skipping ≠ .returned := by decide
    refine (ih (count + 1) hskipping hvalue.2 (by omega) _).trans ?_
    rw [if_neg (List.cons_ne_nil c value), List.append_assoc, List.length_cons, Nat.add_assoc,
      Nat.add_comm 1]
    split <;> rfl

/-- The two characters at the end of a line. -/
theorem run_lineEnd (settings : Settings) (parser : HttpParser)
    (hstate : parser.state = .headerValue) {progress : Progress} (hprogress : progress ≠ .returned)
    (hn : parser.nread + 2 ≤ HTTP_MAX_HEADER_SIZE) (log : List Event) :
    SymbolMachine.run (step settings) ⟨parser, progress, log⟩ [CR, LF] =
      .ok ⟨{ parser with state := .headerValueLws, nread := parser.nread + 2 }, .fresh, log⟩ := by
  have hcr := step_endValue settings parser hstate hprogress (by omega) log
  have hlf : step settings ⟨{ parser with
        state := .headerAlmostDone, nread := parser.nread + 1 }, .fresh, log⟩ LF =
      .ok ⟨{ parser with state := .headerValueLws, nread := parser.nread + 1 + 1 }, .fresh,
        log⟩ :=
    step_quiet { parser with nread := parser.nread + 1 } .headerAlmostDone log rfl rfl
      (by change parser.nread + 1 < _; omega) rfl rfl
  exact (SymbolMachine.run_cons_of_ok hcr _).trans (SymbolMachine.run_cons_of_ok hlf _)

theorem finishHeader_ordinary (parser : HttpParser) (h : isOrdinary parser.headerState) :
    finishHeader parser = parser := by
  obtain ⟨_, _, _, h', _, _, _, _, _, _, _, _, _, _⟩ := parser
  cases h' <;> first | rfl | cases h

theorem headerValueStart_ordinary (parser : HttpParser) (h : isOrdinary parser.headerState)
    (c : Byte) : headerValueStart parser c = .mark .headerValue (.next { parser with
      state := .headerValue, index := 0, headerState := .general }) := by
  obtain ⟨_, _, _, h', _, _, _, _, _, _, _, _, _, _⟩ := parser
  cases h' <;> first | rfl | cases h

/-- An ordinary value, up to the first character of the next line. -/
theorem run_ordinary (settings : Settings) (parser : HttpParser)
    (hordinary : isOrdinary parser.headerState) (hvalue : ValueChars value)
    (hfirst : ∀ c, value.head? = some c → ¬ (c = SP ∨ c = HT)) (hc : ¬ (c = SP ∨ c = HT))
    (hn : parser.nread + (value.length + 2) < HTTP_MAX_HEADER_SIZE) (rest : Str)
    (log : List Event) : ∃ h i,
    SymbolMachine.run (step settings)
        ⟨{ parser with state := .headerValueDiscardWs }, .fresh, log⟩
        (value ++ [CR, LF] ++ c :: rest) =
      SymbolMachine.run (step settings) ⟨{ parser with
        state := .headerFieldStart, headerState := h, index := i
        nread := parser.nread + (value.length + 2) }, .fresh,
          log ++ textLog .headerValue value⟩ (c :: rest) := by
  cases value with
  | nil =>
    refine ⟨parser.headerState, parser.index, ?_⟩
    have hcr : step settings ⟨{ parser with state := .headerValueDiscardWs }, .fresh, log⟩ CR =
        .ok ⟨{ parser with
          state := .headerValueDiscardWsAlmostDone, nread := parser.nread + 1 }, .fresh, log⟩ :=
      step_quiet parser .headerValueDiscardWs log rfl rfl (by omega) rfl rfl
    have hlf : step settings ⟨{ parser with
          state := .headerValueDiscardWsAlmostDone, nread := parser.nread + 1 }, .fresh, log⟩ LF =
        .ok ⟨{ parser with
          state := .headerValueDiscardLws, nread := parser.nread + 1 + 1 }, .fresh, log⟩ :=
      step_quiet { parser with nread := parser.nread + 1 } .headerValueDiscardWsAlmostDone log rfl
        rfl (by change parser.nread + 1 < _; omega) rfl rfl
    refine (SymbolMachine.run_cons_of_ok hcr _).trans ?_
    refine (SymbolMachine.run_cons_of_ok hlf _).trans ?_
    have hnext := step_discardLws settings { parser with nread := parser.nread + 2 } hc hn log
    have hsame := finishHeader_ordinary { parser with nread := parser.nread + 2 } hordinary
    rw [hsame] at hnext
    exact congrArg (· >>= fun s => SymbolMachine.run (step settings) s rest) hnext
  | cons d value =>
    refine ⟨.general, 0, ?_⟩
    rw [ValueChars, List.forall_mem_cons] at hvalue
    rw [List.length_cons] at hn ⊢
    have hstart : step settings ⟨{ parser with state := .headerValueDiscardWs }, .fresh, log⟩ d =
        .ok ⟨inGeneral { parser with index := 0 } (parser.nread + 1), .fresh,
          log ++ textLog .headerValue [d]⟩ := by
      refine (step_valueStart settings parser ⟨hfirst d rfl, hvalue.1.2⟩ (by omega) log).trans ?_
      rw [headerValueStart_ordinary _ (by exact hordinary)]
      exact congrArg (fun log => Except.ok (Stream.mk _ .fresh log)) (List.append_assoc log _ _)
    have hgeneral := run_general settings { parser with index := 0 } (parser.nread + 1)
      fresh_ne_returned hvalue.2 (by omega) (log ++ textLog .headerValue [d])
    have hend := run_lineEnd settings
      (inGeneral { parser with index := 0 } (parser.nread + 1 + value.length)) rfl
      (generalPlace_ne value) (by change parser.nread + 1 + value.length + 2 ≤ _; omega)
      (log ++ textLog .headerValue [d] ++ pieceLog .headerValue value)
    have hline : SymbolMachine.run (step settings)
        ⟨{ parser with state := .headerValueDiscardWs }, .fresh, log⟩
        (d :: value ++ [CR, LF]) = _ :=
      (SymbolMachine.run_cons_of_ok hstart _).trans <|
        (SymbolMachine.run_append_of_ok hgeneral _).trans hend
    have hnext := step_lws settings { parser with
      index := 0, headerState := .general, nread := parser.nread + 1 + value.length + 2 } hc
      (by change parser.nread + 1 + value.length + 2 < _; omega)
      (log ++ textLog .headerValue [d] ++ pieceLog .headerValue value)
    refine (SymbolMachine.run_append_of_ok hline _).trans ?_
    refine (congrArg (· >>= fun s => SymbolMachine.run (step settings) s rest) hnext).trans ?_
    have hcount : parser.nread + 1 + value.length + 2 = parser.nread + (value.length + 1 + 2) := by
      omega
    rw [List.append_assoc log, hcount]
    rfl

/-- The names whose values have a meaning to the parser, but for that of a length. -/
def knownNames : List Str := [CONNECTION, PROXY_CONNECTION, TRANSFER_ENCODING, UPGRADE]

/-- A header that the parser only hands over. -/
structure Header where
  name : Str
  value : Str
  name_ne : name ≠ []
  name_token : ∀ c ∈ name, token c ≠ 0
  unknown : name.map token ∉ knownNames
  no_length : ¬ CONTENT_LENGTH <+: name.map token
  chars : ValueChars value
  first : ∀ c, value.head? = some c → ¬ (c = SP ∨ c = HT)

def Header.line (h : Header) : Str := headerLine h.name h.value

def Header.calls (h : Header) : List Event := headerLog h.name h.value

theorem length_headerLine (name value : Str) :
    (headerLine name value).length = name.length + 2 + (value.length + 2) := by
  simp only [headerLine, List.length_append]
  rfl

theorem ordinary_nameState {w : Str} (hw : w ≠ []) (hunknown : w ∉ knownNames)
    (hlength : ¬ CONTENT_LENGTH <+: w) : isOrdinary (nameState w).1 := by
  have hreads := reads_nameState hw
  generalize nameState w = x at hreads
  obtain ⟨h, i⟩ := x
  have hmem {v : Str} (hv : v ∈ knownNames) (heq : w = v) : isOrdinary h :=
    absurd (heq ▸ hv) hunknown
  cases h
  case connection => exact hreads.elim (hmem (by decide)) (hmem (by decide))
  case transferEncoding => exact hmem (by decide) hreads
  case upgrade => exact hmem (by decide) hreads
  case contentLength =>
    have hname : w = CONTENT_LENGTH := hreads
    exact absurd (hname ▸ List.prefix_refl w) hlength
  all_goals first | rfl | exact hreads.elim

theorem lengthNamed_false {w : Str} (hlength : ¬ CONTENT_LENGTH <+: w) : lengthNamed w = false := by
  rw [lengthNamed, Bool.eq_false_iff, Ne, List.isPrefixOf_iff_prefix]
  exact hlength

/-- A header is handed over, and the parser is at the next line. -/
theorem run_header (settings : Settings) (parser : HttpParser) (h : Header)
    (hc : ¬ (c = SP ∨ c = HT)) (hn : parser.nread + h.line.length < HTTP_MAX_HEADER_SIZE)
    (rest : Str) (log : List Event) : ∃ hs i,
    SymbolMachine.run (step settings) ⟨{ parser with state := .headerFieldStart }, .fresh, log⟩
        (h.line ++ c :: rest) =
      SymbolMachine.run (step settings) ⟨{ parser with
        state := .headerFieldStart, headerState := hs, index := i
        nread := parser.nread + h.line.length }, .fresh, log ++ h.calls⟩ (c :: rest) := by
  have hlength := lengthNamed_false h.no_length
  have hmap : h.name.map token ≠ [] := fun hnil => h.name_ne (List.map_eq_nil_iff.mp hnil)
  rw [Header.line, length_headerLine] at hn ⊢
  have hname := run_headerName settings parser h.name_ne h.name_token
    (by rw [hlength]; exact fun h => (by cases h.2)) (by omega) log
  have hordinary : isOrdinary (afterName parser h.name).headerState :=
    ordinary_nameState hmap h.unknown h.no_length
  obtain ⟨hs, i, hvalue⟩ := run_ordinary settings (afterName parser h.name) hordinary h.chars
    h.first hc (by change parser.nread + (h.name.length + 2) + _ < _; omega) rest
    (log ++ textLog .headerField h.name)
  have hafter : afterName parser h.name = { parser with
      state := .headerField, headerState := (nameState (h.name.map token)).1
      index := (nameState (h.name.map token)).2, nread := parser.nread + (h.name.length + 2) } := by
    rw [afterName, inName, hlength, Bool.or_false]
  refine ⟨hs, i, ?_⟩
  have htext : headerLine h.name h.value ++ c :: rest =
      (h.name ++ [char ':', SP]) ++ (h.value ++ [CR, LF] ++ c :: rest) := by
    simp [headerLine]
  rw [htext]
  refine (SymbolMachine.run_append_of_ok hname _).trans (hvalue.trans ?_)
  rw [hafter, List.append_assoc, Nat.add_assoc]
  rfl

theorem token_not_blank (hc : token c ≠ 0) : ¬ (c = SP ∨ c = HT) := by
  rintro (rfl | rfl) <;> exact hc (by decide)

def linesText (headers : List Header) : Str := headers.flatMap Header.line

def linesLog (headers : List Header) : List Event := headers.flatMap Header.calls

/-- No line of a header begins with a blank. -/
theorem linesText_first (headers : List Header) (hc : ¬ (c = SP ∨ c = HT)) (rest : Str) :
    ∃ d tail, linesText headers ++ c :: rest = d :: tail ∧ ¬ (d = SP ∨ d = HT) := by
  cases headers with
  | nil => exact ⟨c, rest, rfl, hc⟩
  | cons h headers =>
    obtain ⟨d, name, hname⟩ := List.exists_cons_of_ne_nil h.name_ne
    have htoken : token d ≠ 0 := h.name_token d (hname ▸ List.mem_cons_self ..)
    refine ⟨d, name ++ ([char ':', SP] ++ h.value ++ [CR, LF] ++ linesText headers ++ c :: rest),
      ?_, token_not_blank htoken⟩
    simp [linesText, Header.line, headerLine, hname]

theorem run_headers (settings : Settings) (parser : HttpParser) (headers : List Header)
    (hc : ¬ (c = SP ∨ c = HT))
    (hn : parser.nread + (linesText headers).length < HTTP_MAX_HEADER_SIZE) (rest : Str)
    (log : List Event) : ∃ hs i,
    SymbolMachine.run (step settings) ⟨{ parser with state := .headerFieldStart }, .fresh, log⟩
        (linesText headers ++ c :: rest) =
      SymbolMachine.run (step settings) ⟨{ parser with
        state := .headerFieldStart, headerState := hs, index := i
        nread := parser.nread + (linesText headers).length }, .fresh, log ++ linesLog headers⟩
          (c :: rest) := by
  induction headers generalizing parser log with
  | nil =>
    refine ⟨parser.headerState, parser.index, ?_⟩
    rw [linesLog, List.flatMap_nil, List.append_nil]
    rfl
  | cons h headers ih =>
    rw [linesText, List.flatMap_cons, List.length_append] at hn
    obtain ⟨d, tail, htail, hd⟩ := linesText_first headers hc rest
    obtain ⟨hs, i, hfirst⟩ := run_header settings parser h hd (by omega) tail log
    obtain ⟨hs', i', hrest⟩ := ih { parser with
      headerState := hs, index := i, nread := parser.nread + h.line.length }
        (by change parser.nread + _ + (linesText headers).length < _; rw [linesText]; omega)
        (log ++ h.calls)
    refine ⟨hs', i', ?_⟩
    have htext : linesText (h :: headers) ++ c :: rest = h.line ++ d :: tail := by
      rw [linesText, List.flatMap_cons, List.append_assoc, ← linesText, htail]
    rw [htext, hfirst, ← htail]
    refine hrest.trans ?_
    rw [List.append_assoc, Nat.add_assoc, ← List.length_append]
    rfl

def decDigit (d : ℕ) : Byte := BitVec.ofNat 8 (48 + d)

def lengthText (n : ℕ) : Str := (DigitReader.digits 10 n).map decDigit

def lengthName : Str :=
  chars ['C', 'o', 'n', 't', 'e', 'n', 't', '-', 'L', 'e', 'n', 'g', 't', 'h']

def encodingName : Str :=
  chars ['T', 'r', 'a', 'n', 's', 'f', 'e', 'r', '-', 'E', 'n', 'c', 'o', 'd', 'i', 'n', 'g']

theorem decDigit_spec {d : ℕ} (hd : d < 10) :
    isNum (decDigit d) ∧ digit (decDigit d) = d ∧ ¬ (decDigit d = SP ∨ decDigit d = HT) := by
  have hall : ∀ d < 10, isNum (decDigit d) ∧ digit (decDigit d) = d ∧
      ¬ (decDigit d = SP ∨ decDigit d = HT) := by decide
  exact hall d hd

theorem lengthDigits_lengthText (n : ℕ) :
    lengthDigits (lengthText n) = DigitReader.digits 10 n := by
  have hlt := DigitReader.digits_lt (by decide : 1 < 10) n
  rw [lengthText]
  generalize DigitReader.digits 10 n = ds at hlt
  induction ds with
  | nil => rfl
  | cons d ds ih =>
    rw [List.forall_mem_cons] at hlt
    obtain ⟨hnum, hdigit, -⟩ := decDigit_spec hlt.1
    rw [List.map_cons, lengthDigits_cons hnum, hdigit, ih hlt.2]

theorem num_lengthText (n : ℕ) :
    ∀ c ∈ lengthText n, isNum c ∧ ¬ (c = SP ∨ c = HT) := by
  intro c hc
  obtain ⟨d, hd, rfl⟩ := List.mem_map.mp hc
  obtain ⟨hnum, -, hblank⟩ := decDigit_spec (DigitReader.digits_lt (by decide) n d hd)
  exact ⟨hnum, hblank⟩

theorem run_lengthValue (settings : Settings) (parser : HttpParser)
    (hh : parser.headerState = .contentLength) {n : ℕ} (hlimit : n / 10 ≤ LENGTH_LIMIT)
    (hn : parser.nread + ((lengthText n).length + 2) ≤ HTTP_MAX_HEADER_SIZE) (log : List Event) :
    SymbolMachine.run (step settings)
        ⟨{ parser with state := .headerValueDiscardWs }, .fresh, log⟩
        (lengthText n ++ [CR, LF]) =
      .ok ⟨{ parser with
        state := .headerValueLws, headerState := .contentLength, index := 0, contentLength := n
        nread := parser.nread + ((lengthText n).length + 2) }, .fresh,
          log ++ textLog .headerValue (lengthText n)⟩ := by
  have hnum := num_lengthText n
  have hvalue : DigitReader.value 10 0 (lengthDigits (lengthText n)) = n := by
    rw [lengthDigits_lengthText, DigitReader.value_digits]
  cases hlength : lengthText n with
  | nil => exact absurd (List.map_eq_nil_iff.mp hlength) (DigitReader.digits_ne_nil 10 n)
  | cons c xs =>
    rw [hlength] at hnum hvalue hn
    rw [List.forall_mem_cons] at hnum
    rw [List.length_cons] at hn
    have hread := (read_lengthDigits hnum.1.1 xs n).mpr ⟨hvalue, hlimit⟩
    have hstart := (step_lengthStart settings parser
      ⟨hnum.1.2, (isNum_spec hnum.1.1).2.2.1⟩ hh (by omega) log).trans (if_pos hnum.1.1)
    have hdigits := run_length settings { parser with index := 0 } (digit c) (parser.nread + 1)
      fresh_ne_returned (fun d hd => .inl (hnum.2 d hd).1) (by omega)
      (log ++ textLog .headerValue [c])
    rw [hread] at hdigits
    have hend := run_lineEnd settings
      (inLength { parser with index := 0 } n (parser.nread + 1 + xs.length)) rfl
      (lengthPlace_ne xs) (by change parser.nread + 1 + xs.length + 2 ≤ _; omega)
      (log ++ textLog .headerValue [c] ++ pieceLog .headerValue xs)
    refine (SymbolMachine.run_cons_of_ok hstart _).trans ?_
    refine (SymbolMachine.run_append_of_ok hdigits _).trans (hend.trans ?_)
    have hcount : parser.nread + 1 + xs.length + 2 = parser.nread + ((c :: xs).length + 2) := by
      rw [List.length_cons]
      omega
    rw [List.append_assoc log, ← hcount]
    rfl

/-- From a value's line end to the next line. -/
theorem run_nextLine (settings : Settings) (parser : HttpParser) (hc : ¬ (c = SP ∨ c = HT))
    (hn : parser.nread < HTTP_MAX_HEADER_SIZE) (rest : Str) (log : List Event) :
    SymbolMachine.run (step settings) ⟨{ parser with state := .headerValueLws }, .fresh, log⟩
        (c :: rest) =
      SymbolMachine.run (step settings)
        ⟨{ finishHeader parser with state := .headerFieldStart }, .fresh, log⟩ (c :: rest) :=
  congrArg (· >>= fun s => SymbolMachine.run (step settings) s rest)
    (step_lws settings parser hc hn log)

theorem headerLine_cons (name value rest : Str) (c : Byte) :
    headerLine name value ++ c :: rest =
      (name ++ [char ':', SP]) ++ ((value ++ [CR, LF]) ++ c :: rest) := by
  simp [headerLine]

/-- The line of a content length. -/
theorem run_lengthLine (settings : Settings) (parser : HttpParser) {n : ℕ}
    (honce : parser.flags.contentlength = false) (hlimit : n / 10 ≤ LENGTH_LIMIT)
    (hc : ¬ (c = SP ∨ c = HT))
    (hn : parser.nread + (headerLine lengthName (lengthText n)).length < HTTP_MAX_HEADER_SIZE)
    (rest : Str) (log : List Event) :
    SymbolMachine.run (step settings) ⟨{ parser with state := .headerFieldStart }, .fresh, log⟩
        (headerLine lengthName (lengthText n) ++ c :: rest) =
      SymbolMachine.run (step settings) ⟨{ parser with
        state := .headerFieldStart, headerState := .contentLength, index := 0
        flags.contentlength := true, contentLength := n
        nread := parser.nread + (headerLine lengthName (lengthText n)).length }, .fresh,
          log ++ headerLog lengthName (lengthText n)⟩ (c :: rest) := by
  rw [length_headerLine] at hn ⊢
  have hname := run_headerName settings parser (by decide : lengthName ≠ []) (by decide)
    (by rw [honce]; exact fun h => (by cases h.1)) (by omega) log
  have hvalue := run_lengthValue settings (afterName parser lengthName) rfl hlimit
    (by change parser.nread + (lengthName.length + 2) + _ ≤ _; omega)
    (log ++ textLog .headerField lengthName)
  have hafter : afterName parser lengthName = { parser with
      state := .headerField, headerState := .contentLength, index := 13
      flags.contentlength := true, nread := parser.nread + (lengthName.length + 2) } := by
    rw [afterName, inName, honce]
    rfl
  rw [headerLine_cons]
  refine (SymbolMachine.run_append_of_ok hname _).trans ?_
  refine (SymbolMachine.run_append_of_ok hvalue _).trans ?_
  rw [hafter]
  refine (run_nextLine settings { parser with
    headerState := .contentLength, index := 0, flags.contentlength := true, contentLength := n
    nread := parser.nread + (lengthName.length + 2) + ((lengthText n).length + 2) } hc
    (by change parser.nread + _ + _ < _; omega) rest _).trans ?_
  rw [List.append_assoc, Nat.add_assoc]
  rfl

/-- A character of `chunked`, which the parser follows. -/
theorem step_chunked (settings : Settings) (parser : HttpParser) (i : ℕ) {progress : Progress}
    (hprogress : progress ≠ .returned) (h : HeaderState) (hline : c ≠ CR ∧ c ≠ LF)
    (hchar : isHeaderChar c)
    (hvalue : matchName CHUNKED (i + 1) (lower c) .general .matchingTransferEncodingChunked
      .transferEncodingChunked = h) (hi : i < 127)
    (hn : parser.nread + i < HTTP_MAX_HEADER_SIZE) (log : List Event) :
    step settings ⟨{ parser with
        state := .headerValue, headerState := .matchingTransferEncodingChunked, index := i
        nread := parser.nread + i }, progress, log⟩ c =
      .ok ⟨{ parser with
        state := .headerValue, headerState := h, index := i + 1
        nread := parser.nread + (i + 1) }, .looping, log ++ [.data .headerValue [c]]⟩ := by
  have hindex : (i + 1) % 128 = i + 1 := Nat.mod_eq_of_lt (by omega)
  have hnext : headerValueChar { parser with
        state := .headerValue, headerState := .matchingTransferEncodingChunked, index := i
        nread := parser.nread + i + 1 } .matchingTransferEncodingChunked c =
      .next { parser with
        state := .headerValue, headerState := .matchingTransferEncodingChunked, index := i + 1
        nread := parser.nread + i + 1 } h := by
    change Value.next { parser with
        state := .headerValue, headerState := .matchingTransferEncodingChunked
        index := (i + 1) % 128, nread := parser.nread + i + 1 }
      (matchName CHUNKED ((i + 1) % 128) (lower c) .general .matchingTransferEncodingChunked
        .transferEncodingChunked) = _
    rw [hindex, hvalue]
  exact step_valueChar { parser with
    state := .headerValue, headerState := .matchingTransferEncodingChunked, index := i
    nread := parser.nread + i } rfl hprogress hline hchar hn hnext log

def chunkedText : Str := chars ['c', 'h', 'u', 'n', 'k', 'e', 'd']

theorem run_chunkedValue (settings : Settings) (parser : HttpParser)
    (hh : parser.headerState = .transferEncoding)
    (hn : parser.nread + 9 ≤ HTTP_MAX_HEADER_SIZE) (log : List Event) :
    SymbolMachine.run (step settings)
        ⟨{ parser with state := .headerValueDiscardWs }, .fresh, log⟩ (chunkedText ++ [CR, LF]) =
      .ok ⟨{ parser with
        state := .headerValueLws, headerState := .transferEncodingChunked, index := 6
        nread := parser.nread + 9 }, .fresh, log ++ textLog .headerValue chunkedText⟩ := by
  have hstart : step settings ⟨{ parser with state := .headerValueDiscardWs }, .fresh, log⟩
        (char 'c') =
      .ok ⟨{ parser with
        state := .headerValue, headerState := .matchingTransferEncodingChunked, index := 0
        nread := parser.nread + 1 }, .fresh, log ++ textLog .headerValue [char 'c']⟩ := by
    refine (step_valueStart settings parser (by decide) (by omega) log).trans ?_
    rw [headerValueStart]
    dsimp only
    rw [hh]
    exact congrArg (fun log => Except.ok (Stream.mk _ .fresh log)) (List.append_assoc log _ _)
  have hletter (i : ℕ) (c : Byte) (progress : Progress) (h : HeaderState)
      (hprogress : progress ≠ .returned) (hc : (c ≠ CR ∧ c ≠ LF) ∧ isHeaderChar c)
      (hvalue : matchName CHUNKED (i + 1) (lower c) .general .matchingTransferEncodingChunked
        .transferEncodingChunked = h) (hi : i < 6) (log : List Event) :=
    step_chunked settings { parser with nread := parser.nread + 1 } i hprogress h hc.1 hc.2 hvalue
      (by omega) (by change parser.nread + 1 + i < _; omega) log
  have hend := run_lineEnd settings { parser with
    state := .headerValue, headerState := .transferEncodingChunked, index := 6
    nread := parser.nread + 1 + 6 } rfl looping_ne_returned
      (by change parser.nread + 1 + 6 + 2 ≤ _; omega)
      (log ++ textLog .headerValue [char 'c'] ++ pieceLog .headerValue (chunkedText.drop 1))
  refine (SymbolMachine.run_cons_of_ok hstart _).trans ?_
  refine (SymbolMachine.run_cons_of_ok (hletter 0 (char 'h') .fresh _ (by decide) (by decide) rfl
    (by decide) _) _).trans ?_
  refine (SymbolMachine.run_cons_of_ok (hletter 1 (char 'u') .looping _ (by decide) (by decide) rfl
    (by decide) _) _).trans ?_
  refine (SymbolMachine.run_cons_of_ok (hletter 2 (char 'n') .looping _ (by decide) (by decide) rfl
    (by decide) _) _).trans ?_
  refine (SymbolMachine.run_cons_of_ok (hletter 3 (char 'k') .looping _ (by decide) (by decide) rfl
    (by decide) _) _).trans ?_
  refine (SymbolMachine.run_cons_of_ok (hletter 4 (char 'e') .looping _ (by decide) (by decide) rfl
    (by decide) _) _).trans ?_
  refine (SymbolMachine.run_cons_of_ok (hletter 5 (char 'd') .looping _ (by decide) (by decide) rfl
    (by decide) _) _).trans ?_
  simp only [List.append_assoc] at hend ⊢
  exact hend

/-- The line of a body in chunks. -/
theorem run_encodingLine (settings : Settings) (parser : HttpParser) (hc : ¬ (c = SP ∨ c = HT))
    (hn : parser.nread + (headerLine encodingName chunkedText).length < HTTP_MAX_HEADER_SIZE)
    (rest : Str) (log : List Event) :
    SymbolMachine.run (step settings) ⟨{ parser with state := .headerFieldStart }, .fresh, log⟩
        (headerLine encodingName chunkedText ++ c :: rest) =
      SymbolMachine.run (step settings) ⟨{ parser with
        state := .headerFieldStart, headerState := .transferEncodingChunked, index := 6
        flags.chunked := true
        nread := parser.nread + (headerLine encodingName chunkedText).length }, .fresh,
          log ++ headerLog encodingName chunkedText⟩ (c :: rest) := by
  rw [length_headerLine] at hn ⊢
  have hunnamed : lengthNamed (encodingName.map token) = false := by decide
  have hname := run_headerName settings parser (by decide : encodingName ≠ []) (by decide)
    (by rw [hunnamed]; exact fun h => (by cases h.2)) (by omega) log
  have hvalue := run_chunkedValue settings (afterName parser encodingName) rfl
    (by change parser.nread + (encodingName.length + 2) + (chunkedText.length + 2) ≤ _; omega)
    (log ++ textLog .headerField encodingName)
  have hafter : afterName parser encodingName = { parser with
      state := .headerField, headerState := .transferEncoding, index := 16
      nread := parser.nread + (encodingName.length + 2) } := by
    rw [afterName, inName, hunnamed, Bool.or_false]
    rfl
  rw [headerLine_cons]
  refine (SymbolMachine.run_append_of_ok hname _).trans ?_
  refine (SymbolMachine.run_append_of_ok hvalue _).trans ?_
  rw [hafter]
  refine (run_nextLine settings { parser with
    headerState := .transferEncodingChunked, index := 6
    nread := parser.nread + (encodingName.length + 2) + (chunkedText.length + 2) } hc
    (by change parser.nread + _ + _ < _; omega) rest _).trans ?_
  rw [List.append_assoc, Nat.add_assoc]
  rfl

inductive Body where
  | none
  | length (data : Str)
  | chunks (pieces : List Str) (hne : ∀ data ∈ pieces, data ≠ [])

/-- A request that asks for no other protocol and does not close the connection. -/
structure Request where
  method : HttpMethod
  target : Str
  headers : List Header
  body : Body
  method_ne : method ≠ .CONNECT
  target_ok : Target method target

/-- The line that announces a body. -/
def Body.line : Body → Str
  | .none => []
  | .length data => headerLine lengthName (lengthText data.length)
  | .chunks _ _ => headerLine encodingName chunkedText

def Body.lineLog : Body → List Event
  | .none => []
  | .length data => headerLog lengthName (lengthText data.length)
  | .chunks _ _ => headerLog encodingName chunkedText

def Body.written : Body → Str
  | .none => []
  | .length data => data
  | .chunks pieces _ => chunksText pieces

/-- Whether the message goes on after its headers. -/
def Body.goesOn : Body → Bool
  | .none => false
  | .length data => data != []
  | .chunks _ _ => true

/-- The calls at the empty line. -/
def Body.firstCalls (body : Body) : List Event :=
  [.notify .headersComplete] ++ if body.goesOn then [] else [.notify .messageComplete]

/-- The calls after it. -/
def Body.calls : Body → List Event
  | .none => []
  | .length data => if data = [] then [] else pieceLog .body data ++ [.notify .messageComplete]
  | .chunks pieces _ => (pieces ++ [[]]).flatMap chunkLog ++ [.notify .messageComplete]

def Request.line (r : Request) : Str :=
  methodString r.method ++ [SP] ++ (r.target ++ [SP]) ++ versionText

def Request.head (r : Request) : Str := r.line ++ linesText r.headers ++ r.body.line ++ [CR, LF]

def Request.written (r : Request) : Str := r.head ++ r.body.written

def Request.calls (r : Request) : List Event :=
  [.notify .messageBegin] ++ textLog .url r.target ++ linesLog r.headers ++ r.body.lineLog ++
    r.body.firstCalls ++ r.body.calls

/-- The parser between two requests. -/
structure Idle (parser : HttpParser) : Prop where
  type : parser.type = .request
  ok : parser.httpErrno = .ok
  state : parser.state = .startReq
  nread : parser.nread ≤ 2

/-- A parser on a request that asks for no other protocol and does not close the connection. -/
structure Plain (parser : HttpParser) : Prop where
  type : parser.type = .request
  ok : parser.httpErrno = .ok
  method : parser.method ≠ .CONNECT
  major : parser.httpMajor = 1
  minor : parser.httpMinor = 1
  trailing : parser.flags.trailing = false
  upgrade : parser.flags.upgrade = false
  skipbody : parser.flags.skipbody = false
  close : parser.flags.connectionClose = false

/-- The same before the line that announces its body. -/
structure InHeaders (parser : HttpParser) : Prop extends Plain parser where
  chunked : parser.flags.chunked = false
  contentlength : parser.flags.contentlength = false
  length : parser.contentLength = ULLONG_MAX

variable {r : Request}

theorem not_end_of_accepts {st : State} (h : isUrlEnd (urlState st text)) :
    ∀ c ∈ text, ¬ isTargetEnd c := by
  induction text generalizing st with
  | nil => exact List.forall_mem_nil _
  | cons c text ih =>
    rw [urlState_cons] at h
    refine List.forall_mem_cons.mpr ⟨?_, ih h⟩
    intro hend
    have hdead : parseUrlChar st c = .dead := by
      unfold parseUrlChar
      refine if_pos ?_
      rcases hend with rfl | rfl | rfl <;> decide
    rw [hdead, urlState_dead] at h
    cases h

/-- The first line of a request. -/
theorem run_line (hw : Willing settings) (hidle : Idle parser)
    (hn : parser.nread + r.line.length ≤ HTTP_MAX_HEADER_SIZE) (log : List Event) :
    ∃ q, InHeaders q ∧ q.nread = parser.nread + r.line.length ∧
      SymbolMachine.run (step settings) ⟨parser, .fresh, log⟩ r.line =
        .ok ⟨{ q with state := .headerFieldStart }, .fresh,
          log ++ [.notify .messageBegin] ++ textLog .url r.target⟩ := by
  have haccepts := (accepts_target r.method r.target).mpr r.target_ok
  have hne : r.target ≠ [] := by
    intro hnil
    rw [hnil, urlState_nil, targetState, if_neg r.method_ne] at haccepts
    cases haccepts
  have hlength : r.line.length =
      (methodString r.method).length + 1 + (r.target.length + 1) + 10 := by
    simp only [Request.line, List.length_append]
    rfl
  rw [hlength] at hn ⊢
  have heta : parser = { parser with state := .startReq } := by rw [← hidle.state]
  have hmethod := HttpParserMethods.run_method settings parser r.method hidle.ok (hw _)
    (by omega) log
  have htarget := (run_target settings { parser with
    flags := noFlags, contentLength := ULLONG_MAX, index := (methodString r.method).length + 1
    method := r.method, nread := parser.nread + ((methodString r.method).length + 1) } hne
    (not_end_of_accepts haccepts)
    (by change parser.nread + _ + _ < _; omega) (log ++ [.notify .messageBegin])).trans
      (if_pos haccepts)
  have hversion := run_version settings { parser with
    flags := noFlags, contentLength := ULLONG_MAX, index := (methodString r.method).length + 1
    method := r.method
    nread := parser.nread + ((methodString r.method).length + 1) + (r.target.length + 1) }
    (by change parser.nread + _ + _ + 10 ≤ _; omega)
    (log ++ [.notify .messageBegin] ++ textLog .url r.target)
  rw [← heta] at hmethod
  refine ⟨{ parser with
    flags := noFlags, contentLength := ULLONG_MAX, index := (methodString r.method).length + 1
    method := r.method, httpMajor := 1, httpMinor := 1
    nread := parser.nread + ((methodString r.method).length + 1) + (r.target.length + 1) + 10 },
    ⟨⟨hidle.type, hidle.ok, r.method_ne, rfl, rfl, rfl, rfl, rfl, rfl⟩, rfl, rfl, rfl⟩, ?_, ?_⟩
  · change parser.nread + _ + _ + 10 = _
    omega
  · rw [Request.line, List.append_assoc (methodString r.method ++ [SP])]
    refine (SymbolMachine.run_append_of_ok hmethod _).trans ?_
    exact (SymbolMachine.run_append_of_ok htarget _).trans hversion

/-- A request of version 1.1 that does not close the connection. -/
theorem newMessage_request (htype : parser.type = .request) (hmajor : parser.httpMajor = 1)
    (hminor : parser.httpMinor = 1) (hclose : parser.flags.connectionClose = false) :
    newMessage parser = .startReq := by
  rw [newMessage, httpShouldKeepAlive, httpMessageNeedsEof, hmajor, hminor, hclose, htype,
    startState, htype]
  rfl

/-- The line end after the headers, from where the case goes on as that of `s_headers_done`. -/
theorem step_headersAlmostDone (hw : Willing settings) (h : Plain parser)
    (honce : ¬ (parser.flags.chunked ∧ parser.flags.contentlength))
    (hn : parser.nread < HTTP_MAX_HEADER_SIZE) (log : List Event) :
    step settings ⟨{ parser with state := .headersAlmostDone }, .fresh, log⟩ LF =
      perform LF (headersDone settings { parser with
        state := .headersDone, upgrade := false, nread := parser.nread + 1 } LF)
          (log ++ [.notify .headersComplete]) := by
  refine (step_switch fresh_ne_returned rfl rfl hn LF).trans ?_
  change perform LF (headersAlmostDone settings { parser with
    state := .headersAlmostDone, nread := parser.nread + 1 } LF) log = _
  have hno : ((parser.flags.upgrade && parser.flags.connectionUpgrade) ||
      decide (parser.method = .CONNECT)) = false := by
    rw [h.upgrade, decide_eq_false h.method]
    rfl
  rw [headersAlmostDone, if_neg (by decide), if_neg (by rw [h.trailing]; decide),
    if_neg (by exact honce)]
  dsimp only
  rw [hw .headersComplete, hno]
  rfl

/-- What a request goes on with after its headers. -/
def afterHeaders (settings : Settings) (parser : HttpParser) : Step :=
  if parser.flags.chunked then .next { parser with state := .chunkSizeStart }
  else if parser.contentLength = 0 ∨ parser.contentLength = ULLONG_MAX then
    endMessage settings parser
  else .next { parser with state := .bodyIdentity }

theorem headersDone_request (settings : Settings) (parser : HttpParser)
    (htype : parser.type = .request) (hupgrade : parser.upgrade = false)
    (hskip : parser.flags.skipbody = false) :
    headersDone settings parser LF = afterHeaders settings { parser with nread := 0 } := by
  have hneeds : httpMessageNeedsEof { parser with nread := 0 } = false := if_pos htype
  rw [headersDone, if_neg (by decide)]
  dsimp only
  rw [hneeds, hupgrade, hskip, if_neg (fun h => (by cases h.1)), if_neg (by decide), afterHeaders]
  split
  · rfl
  · by_cases hzero : parser.contentLength = 0
    · rw [if_pos hzero, if_pos (.inl hzero)]
    · rw [if_neg hzero]
      by_cases hmax : parser.contentLength = ULLONG_MAX
      · rw [if_neg (not_not.mpr hmax)]
        exact (if_pos rfl).trans (if_pos (.inr hmax)).symm
      · rw [if_pos hmax, if_neg (not_or.mpr ⟨hzero, hmax⟩)]

/-- The empty line of a request. -/
theorem run_emptyLine (hw : Willing settings) (h : Plain parser)
    (honce : ¬ (parser.flags.chunked ∧ parser.flags.contentlength))
    (hn : parser.nread + 2 ≤ HTTP_MAX_HEADER_SIZE) {step' : Step}
    (hafter : afterHeaders settings { parser with
      state := .headersDone, upgrade := false, nread := 0 } = step')
    {s : Stream} (log : List Event)
    (hs : perform LF step' (log ++ [.notify .headersComplete]) = .ok s) :
    SymbolMachine.run (step settings) ⟨{ parser with state := .headerFieldStart }, .fresh, log⟩
      [CR, LF] = .ok s := by
  have hcr := step_endHeaders settings parser (by omega) log
  have hplain : Plain { parser with nread := parser.nread + 1 } :=
    ⟨h.type, h.ok, h.method, h.major, h.minor, h.trailing, h.upgrade, h.skipbody, h.close⟩
  have hlf := step_headersAlmostDone hw hplain honce (by change parser.nread + 1 < _; omega) log
  have hdone := headersDone_request settings { parser with
    state := .headersDone, upgrade := false, nread := parser.nread + 1 + 1 } h.type rfl h.skipbody
  refine SymbolMachine.run_cons_ok.mpr ⟨_, hcr, SymbolMachine.run_cons_ok.mpr ⟨s, ?_, rfl⟩⟩
  subst hafter
  exact hlf.trans <|
    (congrArg (fun step => perform LF step (log ++ [.notify .headersComplete])) hdone).trans hs

theorem perform_endMessage (hw : Willing settings) (parser : HttpParser)
    (hok : parser.httpErrno = .ok) (c : Byte) (log : List Event) :
    perform c (endMessage settings parser) log =
      .ok ⟨{ parser with state := newMessage parser }, .fresh,
        log ++ [.notify .messageComplete]⟩ := by
  rw [endMessage, perform_call (by exact hok) (hw _)]
  refine congrArg (fun log => Except.ok (Stream.mk _ .fresh log)) ?_
  exact (congrArg _ (logged_newMessage parser c)).trans (List.append_nil _)

/-- A request without a body ends with the empty line. -/
theorem run_noBody (hw : Willing settings) (h : Plain parser)
    (hchunked : parser.flags.chunked = false)
    (hlength : parser.contentLength = 0 ∨ parser.contentLength = ULLONG_MAX)
    (hn : parser.nread + 2 ≤ HTTP_MAX_HEADER_SIZE) (log : List Event) :
    ∃ q, Idle q ∧ SymbolMachine.run (step settings)
        ⟨{ parser with state := .headerFieldStart }, .fresh, log⟩ [CR, LF] =
      .ok ⟨q, .fresh, log ++ [.notify .headersComplete] ++ [.notify .messageComplete]⟩ := by
  have hafter : afterHeaders settings { parser with
      state := .headersDone, upgrade := false, nread := 0 } =
      endMessage settings { parser with state := .headersDone, upgrade := false, nread := 0 } := by
    rw [afterHeaders, if_neg (by rw [hchunked]; decide), if_pos hlength]
  have hline := run_emptyLine hw h (by rw [hchunked]; exact fun h => (by cases h.1)) hn hafter log
    (perform_endMessage hw { parser with
      state := .headersDone, upgrade := false, nread := 0 } h.ok LF _)
  refine ⟨_, ?_, hline⟩
  exact ⟨h.type, h.ok, newMessage_request h.type h.major h.minor h.close, Nat.zero_le _⟩

/-- A request with a body of a given length goes on with it. -/
theorem run_lengthBody (hw : Willing settings) (h : Plain parser)
    (hchunked : parser.flags.chunked = false)
    (hlength : parser.contentLength ≠ 0 ∧ parser.contentLength ≠ ULLONG_MAX)
    (hn : parser.nread + 2 ≤ HTTP_MAX_HEADER_SIZE) (log : List Event) :
    SymbolMachine.run (step settings) ⟨{ parser with state := .headerFieldStart }, .fresh, log⟩
        [CR, LF] =
      .ok ⟨{ parser with state := .bodyIdentity, upgrade := false, nread := 0 }, .fresh,
        log ++ [.notify .headersComplete]⟩ := by
  have hafter : afterHeaders settings { parser with
      state := .headersDone, upgrade := false, nread := 0 } =
      .next { parser with state := .bodyIdentity, upgrade := false, nread := 0 } := by
    rw [afterHeaders, if_neg (by rw [hchunked]; decide), if_neg (not_or.mpr hlength)]
  exact run_emptyLine hw h (by rw [hchunked]; exact fun h => (by cases h.1)) hn hafter log
    (congrArg (fun log => Except.ok (Stream.mk _ .fresh log)) (List.append_nil _))

/-- A request with a body in chunks goes on with the first one. -/
theorem run_chunkBody (hw : Willing settings) (h : Plain parser)
    (hchunked : parser.flags.chunked = true) (honce : parser.flags.contentlength = false)
    (hn : parser.nread + 2 ≤ HTTP_MAX_HEADER_SIZE) (log : List Event) :
    SymbolMachine.run (step settings) ⟨{ parser with state := .headerFieldStart }, .fresh, log⟩
        [CR, LF] =
      .ok ⟨{ parser with state := .chunkSizeStart, upgrade := false, nread := 0 }, .fresh,
        log ++ [.notify .headersComplete]⟩ := by
  have hafter : afterHeaders settings { parser with
      state := .headersDone, upgrade := false, nread := 0 } =
      .next { parser with state := .chunkSizeStart, upgrade := false, nread := 0 } := by
    rw [afterHeaders, if_pos (by exact hchunked)]
  exact run_emptyLine hw h (by rw [honce]; exact fun h => (by cases h.2)) hn hafter log
    (congrArg (fun log => Except.ok (Stream.mk _ .fresh log)) (List.append_nil _))

theorem length_sizeText {n : ℕ} (hn : n < 2 ^ 32) : (sizeText n).length ≤ 8 := by
  rw [sizeText, List.length_map, DigitReader.digits]
  split
  · decide
  · rw [List.length_reverse]
    exact (Nat.digits_length_le_iff (by decide) n).mpr hn

theorem length_le_chunksText {pieces : List Str} {data : Str} (h : data ∈ pieces) :
    data.length ≤ (chunksText pieces).length := by
  have hchunk : data.length ≤ (chunkText data).length := by
    simp only [chunkText, List.length_append]
    omega
  have hsub := (List.sublist_flatten_of_mem (List.mem_map_of_mem (f := chunkText) h)).length_le
  rw [chunksText, List.flatMap_def, List.length_append]
  omega

variable {q : HttpParser}

/-- The parser in front of a body. -/
structure AtBody (st : State) (parser : HttpParser) : Prop where
  type : parser.type = .request
  ok : parser.httpErrno = .ok
  state : parser.state = st
  major : parser.httpMajor = 1
  minor : parser.httpMinor = 1
  close : parser.flags.connectionClose = false
  upgrade : parser.upgrade = false
  nread : parser.nread = 0

/-- What the parser knows of a body in front of it. -/
def Awaits (parser : HttpParser) : Body → Prop
  | .none => Idle parser
  | .length data =>
    if data = [] then Idle parser
    else AtBody .bodyIdentity parser ∧ parser.contentLength = data.length
  | .chunks _ _ => AtBody .chunkSizeStart parser ∧ parser.flags.chunked

/-- The line that announces a body and the empty line. -/
theorem run_announce (hw : Willing settings) (hq : InHeaders q) (body : Body)
    (hsize : body.written.length < 2 ^ 32)
    (hn : q.nread + body.line.length + 2 ≤ HTTP_MAX_HEADER_SIZE) (log : List Event) :
    ∃ p, Awaits p body ∧ SymbolMachine.run (step settings)
        ⟨{ q with state := .headerFieldStart }, .fresh, log⟩ (body.line ++ [CR, LF]) =
      .ok ⟨p, .fresh, log ++ body.lineLog ++ body.firstCalls⟩ := by
  have hlimit : LENGTH_LIMIT = 1844674407370955160 := by decide
  have hullong : ULLONG_MAX = 18446744073709551615 := by decide
  have hblank : ¬ (CR = SP ∨ CR = HT) := by decide
  cases body with
  | none =>
    obtain ⟨p, hidle, hrun⟩ := run_noBody hw hq.toPlain hq.chunked (.inr hq.length) hn log
    refine ⟨p, hidle, hrun.trans ?_⟩
    rw [Body.lineLog, List.append_nil, List.append_assoc]
    rfl
  | length data =>
    rw [Body.line] at hn ⊢
    rw [Body.written] at hsize
    have hline := run_lengthLine settings q hq.contentlength (by omega : data.length / 10 ≤ _)
      hblank (by omega) [LF] log
    have hplain : Plain { q with
        headerState := .contentLength, index := 0, flags.contentlength := true
        contentLength := data.length
        nread := q.nread + (headerLine lengthName (lengthText data.length)).length } :=
      ⟨hq.type, hq.ok, hq.method, hq.major, hq.minor, hq.trailing, hq.upgrade, hq.skipbody,
        hq.close⟩
    by_cases hnil : data = []
    · subst hnil
      obtain ⟨p, hidle, hrun⟩ := run_noBody hw hplain hq.chunked (.inl rfl) hn
        (log ++ headerLog lengthName (lengthText 0))
      refine ⟨p, hidle, hline.trans (hrun.trans ?_)⟩
      rw [List.append_assoc _ [Item.notify Notify.headersComplete]]
      rfl
    · have hpos : data.length ≠ 0 := fun h => hnil (List.length_eq_zero_iff.mp h)
      have hrun := run_lengthBody hw hplain hq.chunked
        (by change data.length ≠ 0 ∧ data.length ≠ _; omega) hn
        (log ++ headerLog lengthName (lengthText data.length))
      have hcalls : (Body.length data).firstCalls = [.notify .headersComplete] := by
        simp [Body.firstCalls, Body.goesOn, hnil]
      refine ⟨_, (if_neg hnil).mpr ?_, hline.trans (hcalls ▸ hrun)⟩
      exact ⟨⟨hq.type, hq.ok, rfl, hq.major, hq.minor, hq.close, rfl, rfl⟩, rfl⟩
  | chunks pieces hne =>
    rw [Body.line] at hn ⊢
    have hline := run_encodingLine settings q hblank (by omega) [LF] log
    have hplain : Plain { q with
        headerState := .transferEncodingChunked, index := 6, flags.chunked := true
        nread := q.nread + (headerLine encodingName chunkedText).length } :=
      ⟨hq.type, hq.ok, hq.method, hq.major, hq.minor, hq.trailing, hq.upgrade, hq.skipbody,
        hq.close⟩
    have hrun := run_chunkBody hw hplain rfl hq.contentlength hn
      (log ++ headerLog encodingName chunkedText)
    refine ⟨_, ?_, hline.trans hrun⟩
    exact ⟨⟨hq.type, hq.ok, rfl, hq.major, hq.minor, hq.close, rfl, rfl⟩, rfl⟩

/-- The sizes of chunks that all fit into 32 bits. -/
theorem chunks_fit {pieces : List Str} (hne : ∀ data ∈ pieces, data ≠ [])
    (hsize : (chunksText pieces).length < 2 ^ 32) :
    ∀ data ∈ pieces, data ≠ [] ∧ data.length / 16 ≤ SIZE_LIMIT ∧
      (sizeText data.length).length + 1 < HTTP_MAX_HEADER_SIZE := by
  intro data hdata
  have hle := length_le_chunksText hdata
  have hdigits := length_sizeText (hle.trans_lt hsize)
  have hmax : HTTP_MAX_HEADER_SIZE = 81920 := rfl
  have hsizes : SIZE_LIMIT = 1152921504606846974 := by decide
  exact ⟨hne data hdata, by omega, by omega⟩

/-- A body, after which the parser is ready for the next request. -/
theorem run_written (hw : Willing settings) {p : HttpParser} {body : Body} (hp : Awaits p body)
    (hsize : body.written.length < 2 ^ 32) (log : List Event) :
    ∃ q, Idle q ∧ SymbolMachine.run (step settings) ⟨p, .fresh, log⟩ body.written =
      .ok ⟨q, .fresh, log ++ body.calls⟩ := by
  have hullong : ULLONG_MAX = 18446744073709551615 := by decide
  cases body with
  | none =>
    refine ⟨p, hp, ?_⟩
    rw [Body.calls, List.append_nil]
    rfl
  | length data =>
    rw [Body.written] at hsize ⊢
    rw [Awaits] at hp
    rw [Body.calls]
    by_cases hnil : data = []
    · rw [if_pos hnil] at hp
      subst hnil
      refine ⟨p, hp, ?_⟩
      rw [if_pos rfl, List.append_nil]
      rfl
    · rw [if_neg hnil] at hp ⊢
      obtain ⟨hp, hlength⟩ := hp
      have hrun := run_body hw p hp.ok hp.upgrade hlength hnil (by omega) log
      have heta : p = { p with state := .bodyIdentity } := by rw [← hp.state]
      rw [← heta] at hrun
      rw [← List.append_assoc]
      refine ⟨_, ?_, hrun⟩
      exact ⟨hp.type, hp.ok, newMessage_request hp.type hp.major hp.minor hp.close,
        hp.nread.le.trans (Nat.zero_le _)⟩
  | chunks pieces hne =>
    rw [Body.written] at hsize ⊢
    obtain ⟨hp, hchunked⟩ := hp
    have hrun := run_chunks hw p hp.ok hp.upgrade hchunked (chunks_fit hne hsize) log
    have heta : p = { p with state := .chunkSizeStart, nread := 0 } := by
      rw [← hp.state, ← hp.nread]
    rw [← heta] at hrun
    rw [Body.calls, ← List.append_assoc]
    refine ⟨_, ?_, hrun⟩
    exact ⟨hp.type, hp.ok, newMessage_request hp.type hp.major hp.minor hp.close, le_rfl⟩

/-- No line before a body begins with a blank. -/
theorem announce_first (body : Body) :
    ∃ d tail, body.line ++ [CR, LF] = d :: tail ∧ ¬ (d = SP ∨ d = HT) := by
  cases body with
  | none => exact ⟨CR, _, rfl, by decide⟩
  | length data => exact ⟨char 'C', _, rfl, by decide⟩
  | chunks pieces hne => exact ⟨char 'T', _, rfl, by decide⟩

/-- The machine on a request up to its body. -/
theorem run_head (hw : Willing settings) (hidle : Idle parser) (r : Request)
    (hhead : r.head.length + 2 ≤ HTTP_MAX_HEADER_SIZE)
    (hsize : r.body.written.length < 2 ^ 32) (log : List Event) :
    ∃ p, Awaits p r.body ∧ SymbolMachine.run (step settings) ⟨parser, .fresh, log⟩ r.head =
      .ok ⟨p, .fresh, log ++ [.notify .messageBegin] ++ textLog .url r.target ++
        linesLog r.headers ++ r.body.lineLog ++ r.body.firstCalls⟩ := by
  have hnread := hidle.nread
  simp only [Request.head, List.length_append, List.length_cons, List.length_nil] at hhead
  obtain ⟨q, hq, hqnread, hline⟩ := run_line (r := r) hw hidle (by omega) log
  obtain ⟨d, tail, htail, hd⟩ := announce_first r.body
  obtain ⟨hs, i, hheaders⟩ := run_headers settings q r.headers hd (by omega) tail
    (log ++ [.notify .messageBegin] ++ textLog .url r.target)
  have hafter : InHeaders { q with
      headerState := hs, index := i, nread := q.nread + (linesText r.headers).length } :=
    ⟨⟨hq.type, hq.ok, hq.method, hq.major, hq.minor, hq.trailing, hq.upgrade, hq.skipbody,
      hq.close⟩, hq.chunked, hq.contentlength, hq.length⟩
  obtain ⟨p, hp, hannounce⟩ := run_announce hw hafter r.body hsize
    (by change q.nread + _ + _ + 2 ≤ _; omega)
    (log ++ [.notify .messageBegin] ++ textLog .url r.target ++ linesLog r.headers)
  refine ⟨p, hp, ?_⟩
  rw [Request.head, List.append_assoc (r.line ++ _), List.append_assoc r.line, htail]
  refine (SymbolMachine.run_append_of_ok hline _).trans (hheaders.trans ?_)
  rw [← htail]
  exact hannounce

/-- The machine on a request. -/
theorem run_request (hw : Willing settings) (hidle : Idle parser) (r : Request)
    (hhead : r.head.length + 2 ≤ HTTP_MAX_HEADER_SIZE)
    (hsize : r.body.written.length < 2 ^ 32) (log : List Event) :
    ∃ q, Idle q ∧ SymbolMachine.run (step settings) ⟨parser, .fresh, log⟩ r.written =
      .ok ⟨q, .fresh, log ++ r.calls⟩ := by
  obtain ⟨p, hp, hrun⟩ := run_head hw hidle r hhead hsize log
  obtain ⟨q, hq, hbody⟩ := run_written hw hp hsize (log ++ [.notify .messageBegin] ++
    textLog .url r.target ++ linesLog r.headers ++ r.body.lineLog ++ r.body.firstCalls)
  have hcalls : log ++ r.calls = log ++ [.notify .messageBegin] ++ textLog .url r.target ++
      linesLog r.headers ++ r.body.lineLog ++ r.body.firstCalls ++ r.body.calls := by
    simp [Request.calls]
  rw [hcalls]
  exact ⟨q, hq, (SymbolMachine.run_append_of_ok hrun _).trans hbody⟩

/-- The machine on requests that follow one another. -/
theorem run_requests (hw : Willing settings) (hidle : Idle parser) (requests : List Request)
    (hhead : ∀ r ∈ requests, r.head.length + 2 ≤ HTTP_MAX_HEADER_SIZE)
    (hsize : ∀ r ∈ requests, r.body.written.length < 2 ^ 32) (log : List Event) :
    ∃ q, Idle q ∧ SymbolMachine.run (step settings) ⟨parser, .fresh, log⟩
        (requests.flatMap Request.written) =
      .ok ⟨q, .fresh, log ++ requests.flatMap Request.calls⟩ := by
  induction requests generalizing parser log with
  | nil =>
    refine ⟨parser, hidle, ?_⟩
    rw [List.flatMap_nil, List.flatMap_nil, List.append_nil]
    rfl
  | cons r requests ih =>
    rw [List.forall_mem_cons] at hhead hsize
    obtain ⟨q, hq, hfirst⟩ := run_request hw hidle r hhead.1 hsize.1 log
    obtain ⟨q', hq', hrest⟩ := ih hq hhead.2 hsize.2 (log ++ r.calls)
    refine ⟨q', hq', ?_⟩
    rw [List.flatMap_cons, List.flatMap_cons, ← List.append_assoc]
    exact (SymbolMachine.run_append_of_ok hfirst _).trans hrest

end HttpParserRequests
