import Grt.DigitReader
import Grt.HttpParserNames

/-! The lengths of bodies and of chunks. What the parser reads digit by digit into 64 bits is the
number that is written there. -/
namespace HttpParserLengths

open LittleEndian HttpParserState HttpParserSwitch HttpParserSound PieceStream
open HttpParserExecute hiding headerField headerValue bodyIdentity chunkData perform
open HttpParserMachine HttpParserMarks HttpParserInvariant HttpParserRuns HttpParserNames
open HttpParserMethods (perform_fail)

variable {settings : Settings} {c : Byte} {xs value : Str} {parser q : HttpParser}
  {progress : Progress} {log : List Event} {s s' : Stream} {h : HeaderState} {n v : ℕ} {b : Bool}

/-- Where the machine stands after a character of a value. -/
def valuePlace (h : HeaderState) : Progress := if h = .general then .skipping else .looping

theorem step_valueChar (parser : HttpParser) (hstate : parser.state = .headerValue)
    (hprogress : progress ≠ .returned) (hline : c ≠ CR ∧ c ≠ LF) (hchar : isHeaderChar c)
    (hn : parser.nread < HTTP_MAX_HEADER_SIZE)
    (hvalue : headerValueChar { parser with nread := parser.nread + 1 } parser.headerState c =
      .next q h) (log : List Event) : step settings ⟨parser, progress, log⟩ c =
      .ok ⟨{ q with headerState := h }, valuePlace parser.headerState,
        log ++ [.data .headerValue [c]]⟩ := by
  have hcount : parser.nread + 1 ≤ HTTP_MAX_HEADER_SIZE := hn
  have hstate' : ({ parser with nread := parser.nread + 1 } : HttpParser).state = .headerValue :=
    hstate
  refine (step_header c hprogress (by rw [hstate]; rfl)).trans ((if_neg hcount.not_gt).trans ?_)
  refine (react_headerValue hstate').trans ?_
  rw [headerValue, if_neg hline.1, if_neg hline.2, hchar, hvalue]
  simp only [Bool.not_true, Bool.and_false]
  rfl

theorem step_valueFail {e : HttpErrno} (parser : HttpParser)
    (hstate : parser.state = .headerValue) (hprogress : progress ≠ .returned)
    (hline : c ≠ CR ∧ c ≠ LF) (hn : parser.nread < HTTP_MAX_HEADER_SIZE)
    (hvalue : headerValueChar { parser with nread := parser.nread + 1 } parser.headerState c =
      .fail q e) (log : List Event) :
    step settings ⟨parser, progress, log⟩ c = .error .refused := by
  have hcount : parser.nread + 1 ≤ HTTP_MAX_HEADER_SIZE := hn
  have hstate' : ({ parser with nread := parser.nread + 1 } : HttpParser).state = .headerValue :=
    hstate
  refine (step_header c hprogress (by rw [hstate]; rfl)).trans ((if_neg hcount.not_gt).trans ?_)
  refine (react_headerValue hstate').trans ?_
  rw [headerValue, if_neg hline.1, if_neg hline.2, hvalue]
  split <;> rfl

/-- The decimal number in a value, whose blanks are skipped. -/
def lengthDigits (xs : Str) : List ℕ := (xs.filter isNum).map digit

theorem isNum_spec (hc : isNum c) :
    digit c < 10 ∧ c ≠ SP ∧ (c ≠ CR ∧ c ≠ LF) ∧ isHeaderChar c := by
  have hall : ∀ c : Byte, isNum c →
      digit c < 10 ∧ c ≠ SP ∧ (c ≠ CR ∧ c ≠ LF) ∧ isHeaderChar c := by decide +kernel
  exact hall c hc

theorem lengthDigits_lt (xs : Str) : ∀ d ∈ lengthDigits xs, d < 10 := by
  intro d hd
  obtain ⟨c, hc, rfl⟩ := List.mem_map.mp hd
  exact (isNum_spec (List.mem_filter.mp hc).2).1

def LENGTH_LIMIT : ℕ := (ULLONG_MAX - 10) / 10

theorem length_mod (hv : v ≤ LENGTH_LIMIT) (hd : n < 10) :
    (v * 10 + n) % 2 ^ 64 = v * 10 + n := by
  have hlimit : LENGTH_LIMIT = 1844674407370955160 := by decide
  exact Nat.mod_eq_of_lt (by omega)

theorem headerValueChar_length (parser : HttpParser) (hc : isNum c) :
    headerValueChar parser .contentLength c =
      if LENGTH_LIMIT < parser.contentLength then
        .fail { parser with headerState := .contentLength } .invalidContentLength
      else .next { parser with contentLength := parser.contentLength * 10 + digit c }
        .contentLength := by
  obtain ⟨hdigit, hsp, -, -⟩ := isNum_spec hc
  change (if c = SP then _ else _) = _
  rw [if_neg hsp, hc]
  change (if LENGTH_LIMIT < parser.contentLength then _ else _) = _
  split
  · rfl
  · rename_i hlimit
    rw [length_mod (Nat.le_of_not_lt hlimit) hdigit]

/-- The parser in the value of a content length. -/
def inLength (parser : HttpParser) (v count : ℕ) : HttpParser :=
  { parser with
    state := .headerValue, headerState := .contentLength, contentLength := v, nread := count }

theorem step_length (v count : ℕ) (hprogress : progress ≠ .returned) (hc : isNum c ∨ c = SP)
    (hn : count < HTTP_MAX_HEADER_SIZE) :
    step settings ⟨inLength parser v count, progress, log⟩ c =
      (DigitReader.read 10 LENGTH_LIMIT v (lengthDigits [c])).elim (.error .refused) fun n =>
        .ok ⟨inLength parser n (count + 1), .looping, log ++ [.data .headerValue [c]]⟩ := by
  rcases hc with hc | rfl
  · obtain ⟨-, -, hline, hchar⟩ := isNum_spec hc
    have hdigits : lengthDigits [c] = [digit c] := by
      rw [lengthDigits, List.filter_singleton, hc]
      rfl
    have hvalue := headerValueChar_length (inLength parser v (count + 1)) hc
    rw [hdigits, DigitReader.read]
    by_cases hlimit : LENGTH_LIMIT < v
    · rw [if_pos hlimit]
      exact step_valueFail (inLength parser v count) rfl hprogress hline hn
        (hvalue.trans (if_pos hlimit)) log
    · rw [if_neg hlimit]
      exact step_valueChar (inLength parser v count) rfl hprogress hline hchar hn
        (hvalue.trans (if_neg hlimit)) log
  · exact step_valueChar (c := SP) (inLength parser v count) rfl hprogress (by decide) (by decide)
      hn rfl log

/-- The characters of a length that follow its first digit. -/
theorem run_length (settings : Settings) (parser : HttpParser) (v count : ℕ)
    (hprogress : progress ≠ .returned) (hxs : ∀ c ∈ xs, isNum c ∨ c = SP)
    (hn : count + xs.length ≤ HTTP_MAX_HEADER_SIZE) (log : List Event) :
    SymbolMachine.run (step settings) ⟨inLength parser v count, progress, log⟩ xs =
      (DigitReader.read 10 LENGTH_LIMIT v (lengthDigits xs)).elim (.error .refused) fun n =>
        .ok ⟨inLength parser n (count + xs.length), if xs = [] then progress else .looping,
          log ++ xs.map fun c => .data .headerValue [c]⟩ := by
  induction xs generalizing v count progress log with
  | nil =>
    rw [List.map_nil, List.append_nil]
    rfl
  | cons c xs ih =>
    rw [List.forall_mem_cons] at hxs
    rw [List.length_cons] at hn
    have hsplit : lengthDigits (c :: xs) = lengthDigits [c] ++ lengthDigits xs := by
      rw [lengthDigits, lengthDigits, lengthDigits, ← List.map_append, ← List.filter_append]
      rfl
    rw [SymbolMachine.run_cons, step_length v count hprogress hxs.1 (by omega), hsplit,
      DigitReader.read_append]
    cases DigitReader.read 10 LENGTH_LIMIT v (lengthDigits [c]) with
    | none => rfl
    | some m =>
      refine (ih m (count + 1) looping_ne_returned hxs.2 (by omega) _).trans ?_
      rw [if_neg (List.cons_ne_nil c xs), ite_self, List.append_assoc, List.length_cons,
        Nat.add_assoc, Nat.add_comm 1]
      rfl

theorem digit_of_step {count : ℕ} (hline : c ≠ CR ∧ c ≠ LF)
    (hstep : step settings ⟨inLength parser v count, progress, log⟩ c = .ok s') :
    isNum c ∨ c = SP := by
  by_contra hc
  rw [not_or] at hc
  have hprogress : progress ≠ .returned := by
    rintro rfl
    cases hstep
  have hn : count < HTTP_MAX_HEADER_SIZE := by
    by_contra hn
    have hover : step settings ⟨inLength parser v count, progress, log⟩ c = .error .refused :=
      (step_header c hprogress rfl).trans (if_pos (Nat.lt_succ_of_le (Nat.le_of_not_lt hn)))
    cases hover.symm.trans hstep
  have hvalue : headerValueChar (inLength parser v (count + 1)) .contentLength c =
      .fail (inLength parser v (count + 1)) .invalidContentLength := by
    refine (if_neg hc.2).trans (if_pos ?_)
    rw [Bool.eq_false_iff.mpr hc.1]
    rfl
  have hfail : step settings ⟨inLength parser v count, progress, log⟩ c = .error .refused :=
    step_valueFail (inLength parser v count) rfl hprogress hline hn hvalue log
  cases hfail.symm.trans hstep

theorem digits_of_run {count : ℕ} (hline : ∀ c ∈ xs, c ≠ CR ∧ c ≠ LF)
    (hn : count + xs.length ≤ HTTP_MAX_HEADER_SIZE)
    (hrun : SymbolMachine.run (step settings) ⟨inLength parser v count, progress, log⟩ xs =
      .ok s') : ∀ c ∈ xs, isNum c ∨ c = SP := by
  induction xs generalizing v count progress log with
  | nil => exact List.forall_mem_nil _
  | cons c xs ih =>
    rw [List.forall_mem_cons] at hline ⊢
    rw [List.length_cons] at hn
    obtain ⟨t, ht, hrest⟩ := SymbolMachine.run_cons_ok.mp hrun
    have hc := digit_of_step hline.1 ht
    have hprogress : progress ≠ .returned := by
      rintro rfl
      cases ht
    rw [step_length v count hprogress hc (by omega)] at ht
    cases hread : DigitReader.read 10 LENGTH_LIMIT v (lengthDigits [c]) with
    | none =>
      rw [hread] at ht
      cases ht
    | some m =>
      rw [hread] at ht
      cases ht
      exact ⟨hc, ih hline.2 (by omega) hrest⟩

theorem step_blank (settings : Settings) (parser : HttpParser) (hc : c = SP ∨ c = HT)
    (hn : parser.nread < HTTP_MAX_HEADER_SIZE) (log : List Event) :
    step settings ⟨{ parser with state := .headerValueDiscardWs }, .fresh, log⟩ c =
      .ok ⟨{ parser with state := .headerValueDiscardWs, nread := parser.nread + 1 }, .fresh,
        log⟩ :=
  step_quiet parser .headerValueDiscardWs log rfl rfl hn (if_pos hc) rfl

theorem run_blanks (settings : Settings) (parser : HttpParser) (hxs : ∀ c ∈ xs, c = SP ∨ c = HT)
    (hn : parser.nread + xs.length ≤ HTTP_MAX_HEADER_SIZE) (log : List Event) :
    SymbolMachine.run (step settings)
        ⟨{ parser with state := .headerValueDiscardWs }, .fresh, log⟩ xs =
      .ok ⟨{ parser with state := .headerValueDiscardWs, nread := parser.nread + xs.length },
        .fresh, log⟩ := by
  induction xs generalizing parser with
  | nil => rfl
  | cons c xs ih =>
    rw [List.forall_mem_cons] at hxs
    rw [List.length_cons] at hn ⊢
    rw [SymbolMachine.run_cons, step_blank settings parser hxs.1 (by omega), SymbolMachine.ok_bind]
    refine (ih { parser with nread := parser.nread + 1 } hxs.2 ?_).trans ?_
    · change parser.nread + 1 + _ ≤ _
      omega
    · rw [Nat.add_assoc, Nat.add_comm 1]

/-- The step that begins a value. -/
theorem step_valueStart (settings : Settings) (parser : HttpParser)
    (hc : ¬ (c = SP ∨ c = HT) ∧ c ≠ CR ∧ c ≠ LF) (hn : parser.nread < HTTP_MAX_HEADER_SIZE)
    (log : List Event) :
    step settings ⟨{ parser with state := .headerValueDiscardWs }, .fresh, log⟩ c =
      perform c (headerValueStart { parser with
        state := .headerValueDiscardWs, nread := parser.nread + 1 } c) log := by
  refine (step_switch fresh_ne_returned rfl rfl hn c).trans ?_
  change perform c (headerValueDiscardWs { parser with
    state := .headerValueDiscardWs, nread := parser.nread + 1 } c) log = _
  rw [headerValueDiscardWs, if_neg hc.1, if_neg hc.2.1, if_neg hc.2.2]

theorem step_lengthStart (settings : Settings) (parser : HttpParser)
    (hc : ¬ (c = SP ∨ c = HT) ∧ c ≠ CR ∧ c ≠ LF) (hh : parser.headerState = .contentLength)
    (hn : parser.nread < HTTP_MAX_HEADER_SIZE) (log : List Event) :
    step settings ⟨{ parser with state := .headerValueDiscardWs }, .fresh, log⟩ c =
      if isNum c then .ok ⟨inLength { parser with index := 0 } (digit c) (parser.nread + 1),
        .fresh, log ++ textLog .headerValue [c]⟩
      else .error .refused := by
  rw [step_valueStart settings parser hc hn, headerValueStart]
  dsimp only
  rw [hh]
  dsimp only
  by_cases hnum : isNum c = true
  · rw [hnum]
    rw [if_pos rfl]
    exact congrArg (fun log => Except.ok (Stream.mk _ .fresh log)) (List.append_assoc log _ _)
  · rw [if_neg hnum, Bool.eq_false_iff.mpr hnum]
    rfl

theorem step_endValue (settings : Settings) (parser : HttpParser)
    (hstate : parser.state = .headerValue) (hprogress : progress ≠ .returned)
    (hn : parser.nread < HTTP_MAX_HEADER_SIZE) (log : List Event) :
    step settings ⟨parser, progress, log⟩ CR = .ok ⟨{ parser with
      state := .headerAlmostDone, nread := parser.nread + 1 }, .fresh, log⟩ := by
  have hcount : parser.nread + 1 ≤ HTTP_MAX_HEADER_SIZE := hn
  have hstate' : ({ parser with nread := parser.nread + 1 } : HttpParser).state = .headerValue :=
    hstate
  refine (step_header CR hprogress (by rw [hstate]; rfl)).trans ((if_neg hcount.not_gt).trans ?_)
  refine (react_headerValue hstate').trans ?_
  rw [headerValue, if_pos rfl]

theorem lengthDigits_cons (hc : isNum c) (xs : Str) :
    lengthDigits (c :: xs) = digit c :: lengthDigits xs := by
  rw [lengthDigits, List.filter_cons_of_pos hc]
  rfl

theorem read_lengthDigits (hc : isNum c) (xs : Str) (n : ℕ) :
    DigitReader.read 10 LENGTH_LIMIT (digit c) (lengthDigits xs) = some n ↔
      DigitReader.value 10 0 (lengthDigits (c :: xs)) = n ∧ n / 10 ≤ LENGTH_LIMIT := by
  have hfirst : digit c / 10 ≤ LENGTH_LIMIT := by
    rw [Nat.div_eq_of_lt (isNum_spec hc).1]
    exact Nat.zero_le _
  rw [DigitReader.read_eq (by decide) (lengthDigits_lt xs) hfirst, lengthDigits_cons hc,
    DigitReader.value_cons, Nat.zero_mul, Nat.zero_add]
  split
  · rename_i hlimit
    rw [Option.some_inj]
    exact ⟨fun h => ⟨h, h ▸ hlimit⟩, And.left⟩
  · rename_i hlimit
    refine ⟨fun h => (by cases h), ?_⟩
    rintro ⟨rfl, h⟩
    exact absurd h hlimit

/-- The value of a content length is accepted exactly if it is a decimal number, with blanks after
its first digit if at all, that is within the limit, and then it is this number. -/
theorem contentLength_iff (hfresh : s.progress = .fresh)
    (hstate : s.parser.state = .headerValueDiscardWs)
    (hheader : s.parser.headerState = .contentLength) {blanks : Str}
    (hblanks : ∀ c ∈ blanks, c = SP ∨ c = HT) (hc : ¬ (c = SP ∨ c = HT))
    (hline : ∀ d ∈ c :: xs, d ≠ CR ∧ d ≠ LF)
    (hn : s.parser.nread + (blanks ++ c :: xs).length < HTTP_MAX_HEADER_SIZE) (n : ℕ) :
    (∃ s', SymbolMachine.run (step settings) s (blanks ++ (c :: xs ++ [CR])) = .ok s' ∧
        s'.parser.contentLength = n) ↔
      isNum c ∧ (∀ d ∈ xs, isNum d ∨ d = SP) ∧
        DigitReader.value 10 0 (lengthDigits (c :: xs)) = n ∧ n / 10 ≤ LENGTH_LIMIT := by
  rw [List.length_append, List.length_cons] at hn
  rw [List.forall_mem_cons] at hline
  have heta : s = ⟨{ s.parser with state := .headerValueDiscardWs }, .fresh, s.log⟩ := by
    rw [← hstate, ← hfresh]
  have hrun := run_blanks settings s.parser hblanks (by omega) s.log
  rw [← heta] at hrun
  have hstart := step_lengthStart settings { s.parser with nread := s.parser.nread + blanks.length }
    ⟨hc, hline.1⟩ hheader (by change s.parser.nread + _ < _; omega) s.log
  rw [SymbolMachine.run_append, hrun, SymbolMachine.ok_bind, List.cons_append,
    SymbolMachine.run_cons, hstart]
  by_cases hnum : isNum c
  swap
  · rw [if_neg hnum]
    refine ⟨?_, fun h => absurd h.1 hnum⟩
    rintro ⟨s', h, -⟩
    cases h
  rw [if_pos hnum, SymbolMachine.ok_bind, ← read_lengthDigits hnum]
  have hcount : s.parser.nread + blanks.length + 1 + xs.length ≤ HTTP_MAX_HEADER_SIZE := by omega
  constructor
  · rintro ⟨s', hs', rfl⟩
    obtain ⟨t, ht, hend⟩ := SymbolMachine.run_append_ok.mp hs'
    obtain ⟨u, hu, hnil⟩ := SymbolMachine.run_cons_ok.mp hend
    cases hnil
    have hxs := digits_of_run hline.2 hcount ht
    rw [run_length settings _ _ _ fresh_ne_returned hxs hcount] at ht
    refine ⟨hnum, hxs, ?_⟩
    cases hread : DigitReader.read 10 LENGTH_LIMIT (digit c) (lengthDigits xs) with
    | none =>
      rw [hread] at ht
      cases ht
    | some m =>
      rw [hread] at ht
      cases ht
      rw [step_endValue settings _ rfl (by split <;> decide) (by change _ + _ < _; omega)] at hu
      cases hu
      rfl
  · rintro ⟨-, hxs, hread⟩
    have hlength := run_length settings
      { s.parser with nread := s.parser.nread + blanks.length, index := 0 } (digit c)
      (s.parser.nread + blanks.length + 1) fresh_ne_returned hxs hcount
      (s.log ++ textLog .headerValue [c])
    rw [hread] at hlength
    refine ⟨_, SymbolMachine.run_append_ok.mpr ⟨_, hlength, SymbolMachine.run_cons_ok.mpr ⟨_,
      step_endValue settings _ rfl ?_ ?_ _, rfl⟩⟩, rfl⟩
    · split <;> decide
    · change _ + _ < _
      omega

/-- The largest length that is accepted, after a blank. -/
theorem contentLength_iff_largest : ∃ s', SymbolMachine.run (step willing)
      ⟨{ httpParserInit .request with
        state := .headerValueDiscardWs, headerState := .contentLength }, .fresh, []⟩
      ([SP] ++ (char '1' :: chars ['8', '4', '4', '6', '7', '4', '4', '0', '7', '3', '7', '0', '9',
        '5', '5', '1', '6', '0', '9'] ++ [CR])) = .ok s' ∧
    s'.parser.contentLength = 18446744073709551609 :=
  (contentLength_iff rfl rfl rfl (by decide) (by decide) (by decide) (by decide) _).mpr
    ⟨by decide, by decide, by decide, by decide⟩

def SIZE_LIMIT : ℕ := (ULLONG_MAX - 16) / 16

/-- The parser in the size of a chunk. -/
def inSize (parser : HttpParser) (v count : ℕ) : HttpParser :=
  { parser with state := .chunkSize, contentLength := v, nread := count }

/-- The digits of a size. A byte above the table's entries counts as 0. -/
def sizeDigits (xs : Str) : List ℕ := xs.filterMap unhex

theorem sizeDigits_lt (xs : Str) : ∀ d ∈ sizeDigits xs, d < 16 := by
  intro d hd
  obtain ⟨c, -, hc⟩ := List.mem_filterMap.mp hd
  exact unhex_lt hc

theorem unhex_spec (hc : (unhex c).isSome) : c ≠ CR ∧ c ≠ char ';' ∧ c ≠ SP := by
  have hall : ∀ c : Byte, (unhex c).isSome → c ≠ CR ∧ c ≠ char ';' ∧ c ≠ SP := by decide +kernel
  exact hall c hc

theorem size_mod {d : ℕ} (hv : v ≤ SIZE_LIMIT) (hd : d < 16) :
    (v * 16 + d) % 2 ^ 64 = v * 16 + d := by
  have hlimit : SIZE_LIMIT = 1152921504606846974 := by decide
  exact Nat.mod_eq_of_lt (by omega)

theorem step_size (settings : Settings) (parser : HttpParser) (hchunked : parser.flags.chunked)
    (v count : ℕ) (hc : (unhex c).isSome) (hn : count < HTTP_MAX_HEADER_SIZE) (log : List Event) :
    step settings ⟨inSize parser v count, .fresh, log⟩ c =
      (DigitReader.read 16 SIZE_LIMIT v (sizeDigits [c])).elim (.error .refused) fun n =>
        .ok ⟨inSize parser n (count + 1), .fresh, log⟩ := by
  obtain ⟨d, hd⟩ := Option.isSome_iff_exists.mp hc
  have hdigits : sizeDigits [c] = [d] := by
    rw [sizeDigits, List.filterMap_cons_some hd]
    rfl
  have hswitch : chunkSize (inSize parser v (count + 1)) c =
      if SIZE_LIMIT < v then fail (inSize parser v (count + 1)) .invalidContentLength
      else .next (inSize parser (v * 16 + d) (count + 1)) := by
    rw [chunkSize, assert, if_pos (by exact hchunked), if_neg (unhex_spec hc).1, hd]
    change (if SIZE_LIMIT < v then _ else _) = _
    split
    · rfl
    · rename_i hlimit
      have hmod := size_mod (Nat.le_of_not_lt hlimit) (unhex_lt hd)
      rw [inSize]
      dsimp only
      rw [hmod]
      rfl
  refine (step_switch fresh_ne_returned rfl rfl hn c).trans ?_
  change perform c (chunkSize (inSize parser v (count + 1)) c) log = _
  rw [hswitch, hdigits, DigitReader.read]
  split
  · rw [perform_fail (by decide)]
    rfl
  · exact congrArg (fun log => Except.ok (Stream.mk _ .fresh log)) (List.append_nil log)

/-- The digits of a size that follow the first one. -/
theorem run_size (settings : Settings) (parser : HttpParser) (hchunked : parser.flags.chunked)
    (v count : ℕ) (hxs : ∀ c ∈ xs, (unhex c).isSome)
    (hn : count + xs.length ≤ HTTP_MAX_HEADER_SIZE) (log : List Event) :
    SymbolMachine.run (step settings) ⟨inSize parser v count, .fresh, log⟩ xs =
      (DigitReader.read 16 SIZE_LIMIT v (sizeDigits xs)).elim (.error .refused) fun n =>
        .ok ⟨inSize parser n (count + xs.length), .fresh, log⟩ := by
  induction xs generalizing v count with
  | nil => rfl
  | cons c xs ih =>
    rw [List.forall_mem_cons] at hxs
    rw [List.length_cons] at hn
    have hsplit : sizeDigits (c :: xs) = sizeDigits [c] ++ sizeDigits xs := by
      rw [sizeDigits, sizeDigits, sizeDigits, ← List.filterMap_append]
      rfl
    rw [SymbolMachine.run_cons, step_size settings parser hchunked v count hxs.1 (by omega), hsplit,
      DigitReader.read_append]
    cases DigitReader.read 16 SIZE_LIMIT v (sizeDigits [c]) with
    | none => rfl
    | some m =>
      refine (ih m (count + 1) hxs.2 (by omega)).trans ?_
      rw [List.length_cons, Nat.add_assoc, Nat.add_comm 1]
      rfl

theorem step_sizeStart (settings : Settings) (parser : HttpParser)
    (hchunked : parser.flags.chunked) (hn : parser.nread = 0) (c : Byte) (log : List Event) :
    step settings ⟨{ parser with state := .chunkSizeStart }, .fresh, log⟩ c =
      (unhex c).elim (.error .refused) fun v => .ok ⟨inSize parser v 1, .fresh, log⟩ := by
  have hroom : parser.nread < HTTP_MAX_HEADER_SIZE := by
    rw [hn]
    decide
  refine (step_switch fresh_ne_returned rfl rfl hroom c).trans ?_
  change perform c (chunkSizeStart { parser with
    state := .chunkSizeStart, nread := parser.nread + 1 } c) log = _
  rw [chunkSizeStart, assert, assert, if_pos (by rw [hn]), if_pos (by exact hchunked)]
  cases unhex c with
  | none =>
    dsimp only
    rw [perform_fail (by decide)]
    rfl
  | some v =>
    rw [hn]
    exact congrArg (fun log => Except.ok (Stream.mk _ .fresh log)) (List.append_nil log)

/-- What ends a size. -/
def isSizeEnd (c : Byte) : Prop := c = CR ∨ c = char ';' ∨ c = SP

instance (c : Byte) : Decidable (isSizeEnd c) := inferInstanceAs (Decidable (_ ∨ _))

theorem step_sizeEnd (settings : Settings) (parser : HttpParser) (hchunked : parser.flags.chunked)
    (v count : ℕ) (hc : isSizeEnd c) (hn : count < HTTP_MAX_HEADER_SIZE) (log : List Event) :
    step settings ⟨inSize parser v count, .fresh, log⟩ c = .ok ⟨{ inSize parser v count with
      state := if c = CR then .chunkSizeAlmostDone else .chunkParameters
      nread := count + 1 }, .fresh, log⟩ := by
  refine (step_switch fresh_ne_returned rfl rfl hn c).trans ?_
  change perform c (chunkSize (inSize parser v (count + 1)) c) log = _
  rw [chunkSize, assert, if_pos (by exact hchunked)]
  rcases hc with rfl | rfl | rfl
  all_goals exact congrArg (fun log => Except.ok (Stream.mk _ .fresh log)) (List.append_nil log)

theorem hex_of_step {count : ℕ} (hchunked : parser.flags.chunked) (hc : ¬ isSizeEnd c)
    (hstep : step settings ⟨inSize parser v count, .fresh, log⟩ c = .ok s') :
    (unhex c).isSome := by
  have hperform : perform c (chunkSize (inSize parser v (count + 1)) c) log = .ok s' :=
    step_switch_ok rfl rfl hstep
  rw [isSizeEnd, not_or, not_or] at hc
  cases hhex : unhex c with
  | some d => rfl
  | none =>
    rw [chunkSize, assert, if_pos (by exact hchunked), if_neg hc.1, hhex] at hperform
    dsimp only at hperform
    rw [if_neg (not_or.mpr hc.2), perform_fail (by decide)] at hperform
    cases hperform

theorem hex_of_run {count : ℕ} (hchunked : parser.flags.chunked) (hend : ∀ c ∈ xs, ¬ isSizeEnd c)
    (hn : count + xs.length ≤ HTTP_MAX_HEADER_SIZE)
    (hrun : SymbolMachine.run (step settings) ⟨inSize parser v count, .fresh, log⟩ xs = .ok s') :
    ∀ c ∈ xs, (unhex c).isSome := by
  induction xs generalizing v count with
  | nil => exact List.forall_mem_nil _
  | cons c xs ih =>
    rw [List.forall_mem_cons] at hend ⊢
    rw [List.length_cons] at hn
    obtain ⟨t, ht, hrest⟩ := SymbolMachine.run_cons_ok.mp hrun
    have hc := hex_of_step hchunked hend.1 ht
    rw [step_size settings parser hchunked v count hc (by omega)] at ht
    cases hread : DigitReader.read 16 SIZE_LIMIT v (sizeDigits [c]) with
    | none =>
      rw [hread] at ht
      cases ht
    | some m =>
      rw [hread] at ht
      cases ht
      exact ⟨hc, ih hend.2 (by omega) hrest⟩

theorem read_sizeDigits {d : ℕ} (hc : unhex c = some d) (xs : Str) (n : ℕ) :
    DigitReader.read 16 SIZE_LIMIT d (sizeDigits xs) = some n ↔
      DigitReader.value 16 0 (sizeDigits (c :: xs)) = n ∧ n / 16 ≤ SIZE_LIMIT := by
  have hfirst : d / 16 ≤ SIZE_LIMIT := by
    rw [Nat.div_eq_of_lt (unhex_lt hc)]
    exact Nat.zero_le _
  have hdigits : sizeDigits (c :: xs) = d :: sizeDigits xs := List.filterMap_cons_some hc
  rw [DigitReader.read_eq (by decide) (sizeDigits_lt xs) hfirst, hdigits,
    DigitReader.value_cons, Nat.zero_mul, Nat.zero_add]
  split
  · rename_i hlimit
    rw [Option.some_inj]
    exact ⟨fun h => ⟨h, h ▸ hlimit⟩, And.left⟩
  · rename_i hlimit
    refine ⟨fun h => (by cases h), ?_⟩
    rintro ⟨rfl, h⟩
    exact absurd h hlimit

/-- The size of a chunk is accepted exactly if it is a hexadecimal number within the limit, and
then it is this number. -/
theorem chunkSize_iff (hrunning : Running b s) (hfresh : s.progress = .fresh)
    (hstate : s.parser.state = .chunkSizeStart) (hxs : ∀ d ∈ xs, ¬ isSizeEnd d)
    (hc : isSizeEnd c) (hn : xs.length < HTTP_MAX_HEADER_SIZE) (n : ℕ) :
    (∃ s', SymbolMachine.run (step settings) s (xs ++ [c]) = .ok s' ∧
        s'.parser.contentLength = n) ↔
      xs ≠ [] ∧ (∀ d ∈ xs, (unhex d).isSome) ∧ DigitReader.value 16 0 (sizeDigits xs) = n ∧
        n / 16 ≤ SIZE_LIMIT := by
  have hnread := hrunning.sound.chunk hstate
  have hchunked : s.parser.flags.chunked := by
    have := hrunning.sound.state
    rwa [hstate] at this
  have heta : s = ⟨{ s.parser with state := .chunkSizeStart }, .fresh, s.log⟩ := by
    rw [← hstate, ← hfresh]
  have hstart (d : Byte) := step_sizeStart settings s.parser hchunked hnread d s.log
  rw [← heta] at hstart
  cases xs with
  | nil =>
    refine ⟨?_, fun h => absurd rfl h.1⟩
    rintro ⟨s', hs', -⟩
    obtain ⟨t, ht, -⟩ := SymbolMachine.run_cons_ok.mp hs'
    cases hhex : unhex c with
    | none =>
      rw [hstart, hhex] at ht
      cases ht
    | some d =>
      obtain ⟨hcr, hsemi, hsp⟩ := unhex_spec (hhex ▸ rfl : (unhex c).isSome)
      rcases hc with h | h | h
      · exact absurd h hcr
      · exact absurd h hsemi
      · exact absurd h hsp
  | cons e xs =>
    rw [List.forall_mem_cons] at hxs
    rw [List.length_cons] at hn
    rw [List.cons_append, SymbolMachine.run_cons, hstart, List.forall_mem_cons]
    cases hhex : unhex e with
    | none =>
      refine ⟨?_, fun h => absurd h.2.1.1 (by decide)⟩
      rintro ⟨s', hs', -⟩
      cases hs'
    | some d =>
      change (∃ s', SymbolMachine.run (step settings) ⟨inSize s.parser d 1, .fresh, s.log⟩
        (xs ++ [c]) = .ok s' ∧ _) ↔ _
      rw [← read_sizeDigits hhex]
      constructor
      · rintro ⟨s', hs', rfl⟩
        obtain ⟨t, ht, hend⟩ := SymbolMachine.run_append_ok.mp hs'
        obtain ⟨u, hu, hnil⟩ := SymbolMachine.run_cons_ok.mp hend
        cases hnil
        have hall := hex_of_run hchunked hxs.2 (by omega) ht
        rw [run_size settings s.parser hchunked d 1 hall (by omega)] at ht
        refine ⟨List.cons_ne_nil _ _, ⟨rfl, hall⟩, ?_⟩
        cases hread : DigitReader.read 16 SIZE_LIMIT d (sizeDigits xs) with
        | none =>
          rw [hread] at ht
          cases ht
        | some m =>
          rw [hread] at ht
          cases ht
          rw [step_sizeEnd settings s.parser hchunked m (1 + xs.length) hc (by omega)] at hu
          cases hu
          rfl
      · rintro ⟨-, ⟨-, hall⟩, hread⟩
        have hsize := run_size settings s.parser hchunked d 1 hall (by omega) s.log
        rw [hread] at hsize
        exact ⟨_, SymbolMachine.run_append_ok.mpr ⟨_, hsize, SymbolMachine.run_cons_ok.mpr ⟨_,
          step_sizeEnd settings s.parser hchunked n (1 + xs.length) hc (by omega) s.log, rfl⟩⟩, rfl⟩

/-- The digits of both cases, before an extension. -/
theorem chunkSize_iff_cases : ∃ s', SymbolMachine.run (step willing)
      (fresh { httpParserInit .request with
        state := .chunkSizeStart, flags := { noFlags with chunked := true } } [])
      (chars ['1', 'f', 'F'] ++ [char ';']) = .ok s' ∧ s'.parser.contentLength = 511 := by
  have hsound : Sound false 0 { httpParserInit .request with
      state := .chunkSizeStart, flags := { noFlags with chunked := true } } :=
    ⟨rfl, rfl, Nat.zero_le _, Nat.zero_le _, fun _ => rfl, rfl⟩
  exact (chunkSize_iff (.enter hsound (opened_none rfl)) rfl rfl (by decide) (.inr (.inl rfl))
    (by decide) _).mpr ⟨by decide, by decide, by decide, by decide⟩

end HttpParserLengths
