import Grt.HttpParserLengths

/-! Bodies. What is written as a body of a given length, or as chunks, is read back as such, and
the message ends there. -/
namespace HttpParserBodies

open LittleEndian HttpParserState HttpParserSwitch HttpParserSound PieceStream
open HttpParserExecute hiding headerField headerValue bodyIdentity chunkData perform
open HttpParserMachine HttpParserMarks HttpParserInvariant HttpParserRefinement HttpParserLengths
open HttpParserMethods (perform_call)

variable {settings : Settings} {c : Byte} {body : Str} {parser : HttpParser} {log : List Event}

/-- Callbacks that are all set and let the parser go on. -/
def Willing (settings : Settings) : Prop := ∀ n, settings.onNotify n = some 0

/-- A text that is handed over without a mark of its own. -/
def pieceLog (e : Element) (text : Str) : List Event := text.map fun c => .data e [c]

theorem pieceLog_append (e : Element) (text rest : Str) :
    pieceLog e (text ++ rest) = pieceLog e text ++ pieceLog e rest := List.map_append

theorem logged_newMessage (parser : HttpParser) (c : Byte) : logged (newMessage parser) c = [] := by
  rcases newMessage_cases parser with h | h | h <;> rw [h] <;> rfl

theorem perform_messageDone (hw : Willing settings) (parser : HttpParser)
    (hok : parser.httpErrno = .ok) (hupgrade : parser.upgrade = false) (c : Byte)
    (log : List Event) :
    perform c (messageDone settings parser) log =
      .ok ⟨{ parser with state := newMessage parser }, .fresh,
        log ++ [.notify .messageComplete]⟩ := by
  rw [messageDone]
  dsimp only
  rw [perform_call (by exact hok) (hw _), hupgrade]
  refine congrArg (fun log => Except.ok (Stream.mk _ .fresh log)) ?_
  exact (congrArg _ (logged_newMessage parser c)).trans (List.append_nil _)

/-- The last character ends the message. -/
theorem step_lastBody (hw : Willing settings) (parser : HttpParser) (hok : parser.httpErrno = .ok)
    (hupgrade : parser.upgrade = false) (hlast : parser.contentLength = 1) (c : Byte)
    (log : List Event) : step settings ⟨{ parser with state := .bodyIdentity }, .fresh, log⟩ c =
      .ok ⟨{ parser with state := newMessage { parser with contentLength := 0 }
                         contentLength := 0 }, .fresh,
        log ++ [.data .body [c]] ++ [.notify .messageComplete]⟩ := by
  have hassert : ¬ (parser.contentLength = 0 ∨ parser.contentLength = ULLONG_MAX) := by
    rw [hlast]
    decide
  refine (step_body c fresh_ne_returned rfl).trans ((react_bodyIdentity rfl).trans ?_)
  refine (if_neg hassert).trans ?_
  dsimp only
  rw [hlast]
  refine (if_pos rfl).trans ?_
  exact perform_messageDone hw { parser with state := .messageDone, contentLength := 0 } hok
    hupgrade c _

theorem run_body (hw : Willing settings) (parser : HttpParser) (hok : parser.httpErrno = .ok)
    (hupgrade : parser.upgrade = false) (hlength : parser.contentLength = body.length)
    (hne : body ≠ []) (hmax : body.length < ULLONG_MAX) (log : List Event) :
    SymbolMachine.run (step settings) ⟨{ parser with state := .bodyIdentity }, .fresh, log⟩ body =
      .ok ⟨{ parser with state := newMessage { parser with contentLength := 0 }
                         contentLength := 0 }, .fresh,
        log ++ pieceLog .body body ++ [.notify .messageComplete]⟩ := by
  obtain ⟨init, c, rfl⟩ := (List.eq_nil_or_concat body).resolve_left hne
  rw [List.concat_eq_append, List.length_append] at *
  have hone : parser.contentLength - init.length = 1 := by
    rw [hlength]
    exact Nat.add_sub_cancel_left ..
  have hcounting : Counting { parser with state := .bodyIdentity } := .inl rfl
  have hinit := run_counting settings hcounting init (by change _ < parser.contentLength; omega)
    (by change parser.contentLength < _; omega) log
  have hlast := step_lastBody hw { parser with
    contentLength := parser.contentLength - init.length } hok hupgrade hone c
    (log ++ pieceLog .body init)
  refine (SymbolMachine.run_append_of_ok hinit _).trans
    ((SymbolMachine.run_cons_of_ok hlast _).trans ?_)
  rw [pieceLog_append, ← List.append_assoc]
  rfl

def hexDigit (d : ℕ) : Byte := BitVec.ofNat 8 (if d < 10 then 48 + d else 87 + d)

/-- A size as it is written in front of a chunk. -/
def sizeText (n : ℕ) : Str := (DigitReader.digits 16 n).map hexDigit

def chunkText (data : Str) : Str := sizeText data.length ++ [CR, LF] ++ data ++ [CR, LF]

/-- Chunks and the empty one that ends them, without trailers. -/
def chunksText (chunks : List Str) : Str := chunks.flatMap chunkText ++ chunkText []

/-- The calls for a chunk. -/
def chunkLog (data : Str) : List Event :=
  [.notify .chunkHeader] ++ pieceLog .body data ++ [.notify .chunkComplete]

theorem unhex_hexDigit {d : ℕ} (hd : d < 16) : unhex (hexDigit d) = some d := by
  have hall : ∀ d < 16, unhex (hexDigit d) = some d := by decide
  exact hall d hd

theorem sizeDigits_sizeText (n : ℕ) : sizeDigits (sizeText n) = DigitReader.digits 16 n := by
  have hlt := DigitReader.digits_lt (by decide : 1 < 16) n
  rw [sizeDigits, sizeText]
  generalize DigitReader.digits 16 n = ds at hlt
  induction ds with
  | nil => rfl
  | cons d ds ih =>
    rw [List.forall_mem_cons] at hlt
    rw [List.map_cons, List.filterMap_cons_some (unhex_hexDigit hlt.1), ih hlt.2]

theorem hex_sizeText (n : ℕ) : ∀ c ∈ sizeText n, (unhex c).isSome := by
  intro c hc
  obtain ⟨d, hd, rfl⟩ := List.mem_map.mp hc
  rw [unhex_hexDigit (DigitReader.digits_lt (by decide) n d hd)]
  rfl

/-- The size of a chunk and the line end after it. -/
theorem run_chunkSize (settings : Settings) (parser : HttpParser) (hchunked : parser.flags.chunked)
    {n : ℕ} (hn : n / 16 ≤ SIZE_LIMIT) (hroom : (sizeText n).length < HTTP_MAX_HEADER_SIZE)
    (log : List Event) :
    SymbolMachine.run (step settings)
        ⟨{ parser with state := .chunkSizeStart, nread := 0 }, .fresh, log⟩ (sizeText n ++ [CR]) =
      .ok ⟨{ parser with
        state := .chunkSizeAlmostDone, contentLength := n
        nread := (sizeText n).length + 1 }, .fresh, log⟩ := by
  have hhex := hex_sizeText n
  have hvalue : DigitReader.value 16 0 (sizeDigits (sizeText n)) = n := by
    rw [sizeDigits_sizeText, DigitReader.value_digits]
  cases hsize : sizeText n with
  | nil => exact absurd (List.map_eq_nil_iff.mp hsize) (DigitReader.digits_ne_nil 16 n)
  | cons c xs =>
    rw [hsize, List.forall_mem_cons] at hhex
    rw [hsize] at hvalue hroom
    rw [List.length_cons] at hroom
    obtain ⟨d, hd⟩ := Option.isSome_iff_exists.mp hhex.1
    have hread := (read_sizeDigits hd xs n).mpr ⟨hvalue, hn⟩
    have hstart := step_sizeStart settings { parser with nread := 0 } hchunked rfl c log
    rw [hd] at hstart
    have hdigits := run_size settings { parser with nread := 0 } hchunked d 1 hhex.2
      (by omega) log
    rw [hread] at hdigits
    have hend := step_sizeEnd settings { parser with nread := 0 } hchunked n
      (1 + xs.length) (.inl rfl) (by omega) log
    refine SymbolMachine.run_cons_ok.mpr ⟨_, hstart, SymbolMachine.run_append_ok.mpr ⟨_, hdigits,
      SymbolMachine.run_cons_ok.mpr ⟨_, hend, ?_⟩⟩⟩
    rw [List.length_cons, Nat.add_comm 1]
    rfl

theorem step_chunkSizeAlmostDone (hw : Willing settings) (parser : HttpParser)
    (hok : parser.httpErrno = .ok) (hchunked : parser.flags.chunked)
    (hlength : parser.contentLength ≠ 0) (hn : parser.nread < HTTP_MAX_HEADER_SIZE)
    (log : List Event) :
    step settings ⟨{ parser with state := .chunkSizeAlmostDone }, .fresh, log⟩ LF =
      .ok ⟨{ parser with state := .chunkData, nread := 0 }, .fresh,
        log ++ [.notify .chunkHeader]⟩ := by
  refine (step_switch fresh_ne_returned rfl rfl hn LF).trans ?_
  change perform LF (chunkSizeAlmostDone settings { parser with
    state := .chunkSizeAlmostDone, nread := parser.nread + 1 } LF) log = _
  rw [chunkSizeAlmostDone, assert, if_pos (by exact hchunked), if_neg (by decide)]
  dsimp only
  rw [if_neg hlength, perform_call (by exact hok) (hw _)]
  exact congrArg (fun log => Except.ok (Stream.mk _ .fresh log)) (List.append_nil _)

/-- The size of a chunk and the line end after it. -/
theorem run_chunkLine (hw : Willing settings) (parser : HttpParser) (hok : parser.httpErrno = .ok)
    (hchunked : parser.flags.chunked) {n : ℕ} (hpos : n ≠ 0) (hmax : n / 16 ≤ SIZE_LIMIT)
    (hroom : (sizeText n).length + 1 < HTTP_MAX_HEADER_SIZE) (log : List Event) :
    SymbolMachine.run (step settings)
        ⟨{ parser with state := .chunkSizeStart, nread := 0 }, .fresh, log⟩
        (sizeText n ++ [CR, LF]) =
      .ok ⟨{ parser with state := .chunkData, nread := 0, contentLength := n }, .fresh,
        log ++ [.notify .chunkHeader]⟩ := by
  have hsize := run_chunkSize settings parser hchunked hmax (by omega) log
  have hline := step_chunkSizeAlmostDone hw { parser with
    contentLength := n, nread := (sizeText n).length + 1 } hok hchunked hpos hroom log
  have htext : sizeText n ++ [CR, LF] = (sizeText n ++ [CR]) ++ [LF] := by simp
  rw [htext]
  exact (SymbolMachine.run_append_of_ok hsize _).trans (SymbolMachine.run_cons_of_ok hline _)

/-- The last character of a chunk's data. -/
theorem step_lastChunkData (settings : Settings) (parser : HttpParser)
    (hchunked : parser.flags.chunked) (hlast : parser.contentLength = 1) (c : Byte)
    (log : List Event) : step settings ⟨{ parser with state := .chunkData }, .fresh, log⟩ c =
      .ok ⟨{ parser with state := .chunkDataAlmostDone, contentLength := 0 }, .fresh,
        log ++ [.data .body [c]]⟩ := by
  have hassert : ¬ (parser.flags.chunked = false ∨ parser.contentLength = 0 ∨
      parser.contentLength = ULLONG_MAX) := by
    rw [hchunked, hlast]
    decide
  refine (step_body c fresh_ne_returned rfl).trans ((react_chunkData rfl).trans ?_)
  refine (if_neg hassert).trans ?_
  dsimp only
  rw [hlast]
  rfl

theorem run_chunkData (settings : Settings) (parser : HttpParser) (hchunked : parser.flags.chunked)
    {data : Str} (hlength : parser.contentLength = data.length) (hne : data ≠ [])
    (hmax : data.length < ULLONG_MAX) (log : List Event) :
    SymbolMachine.run (step settings) ⟨{ parser with state := .chunkData }, .fresh, log⟩ data =
      .ok ⟨{ parser with state := .chunkDataAlmostDone, contentLength := 0 }, .fresh,
        log ++ pieceLog .body data⟩ := by
  obtain ⟨init, c, rfl⟩ := (List.eq_nil_or_concat data).resolve_left hne
  rw [List.concat_eq_append, List.length_append] at *
  have hone : parser.contentLength - init.length = 1 := by
    rw [hlength]
    exact Nat.add_sub_cancel_left ..
  have hcounting : Counting { parser with state := .chunkData } := .inr ⟨rfl, hchunked⟩
  have hinit := run_counting settings hcounting init (by change _ < parser.contentLength; omega)
    (by change parser.contentLength < _; omega) log
  have hlast := step_lastChunkData settings { parser with
    contentLength := parser.contentLength - init.length } hchunked hone c
    (log ++ pieceLog .body init)
  refine (SymbolMachine.run_append_of_ok hinit _).trans
    ((SymbolMachine.run_cons_of_ok hlast _).trans ?_)
  rw [pieceLog_append, ← List.append_assoc]
  rfl

/-- A character of a body in a state whose case looks at nothing else. -/
theorem step_switchBody {s : Stream} (hprogress : s.progress ≠ .returned)
    (hbody : parsingHeader s.parser.state = false) (hloop : isLoopState s.parser.state = false)
    (c : Byte) : step settings s c = perform c (switch settings s.parser c) s.log :=
  (step_body c hprogress hbody).trans (react_switch hloop _ c s.log)

theorem step_chunkDataAlmostDone (settings : Settings) (parser : HttpParser)
    (hchunked : parser.flags.chunked) (hlength : parser.contentLength = 0) (log : List Event) :
    step settings ⟨{ parser with state := .chunkDataAlmostDone }, .fresh, log⟩ CR =
      .ok ⟨{ parser with state := .chunkDataDone }, .fresh, log⟩ := by
  refine (step_switchBody fresh_ne_returned rfl rfl CR).trans ?_
  change perform CR (chunkDataAlmostDone { parser with state := .chunkDataAlmostDone } CR) log = _
  rw [chunkDataAlmostDone, assert, assert, if_pos (by exact hchunked), if_pos (by exact hlength),
    if_neg (by decide)]
  exact congrArg (fun log => Except.ok (Stream.mk _ .fresh log)) (List.append_nil log)

theorem step_chunkDataDone (hw : Willing settings) (parser : HttpParser)
    (hok : parser.httpErrno = .ok) (hchunked : parser.flags.chunked) (log : List Event) :
    step settings ⟨{ parser with state := .chunkDataDone }, .fresh, log⟩ LF =
      .ok ⟨{ parser with state := .chunkSizeStart, nread := 0 }, .fresh,
        log ++ [.notify .chunkComplete]⟩ := by
  refine (step_switchBody fresh_ne_returned rfl rfl LF).trans ?_
  change perform LF (chunkDataDone settings { parser with state := .chunkDataDone } LF) log = _
  rw [chunkDataDone, assert, if_pos (by exact hchunked), if_neg (by decide)]
  dsimp only
  rw [perform_call (by exact hok) (hw _)]
  exact congrArg (fun log => Except.ok (Stream.mk _ .fresh log)) (List.append_nil _)

/-- The line end after a chunk's data. -/
theorem run_chunkEnd (hw : Willing settings) (parser : HttpParser) (hok : parser.httpErrno = .ok)
    (hchunked : parser.flags.chunked) (hlength : parser.contentLength = 0) (log : List Event) :
    SymbolMachine.run (step settings)
        ⟨{ parser with state := .chunkDataAlmostDone }, .fresh, log⟩ [CR, LF] =
      .ok ⟨{ parser with state := .chunkSizeStart, nread := 0 }, .fresh,
        log ++ [.notify .chunkComplete]⟩ :=
  (SymbolMachine.run_cons_of_ok (step_chunkDataAlmostDone settings parser hchunked hlength log)
    _).trans (SymbolMachine.run_cons_of_ok (step_chunkDataDone hw parser hok hchunked log) _)

/-- A chunk is read back, and the parser waits for the size of the next one. -/
theorem run_chunk (hw : Willing settings) (parser : HttpParser) (hok : parser.httpErrno = .ok)
    (hchunked : parser.flags.chunked) {data : Str} (hne : data ≠ [])
    (hmax : data.length / 16 ≤ SIZE_LIMIT)
    (hroom : (sizeText data.length).length + 1 < HTTP_MAX_HEADER_SIZE) (log : List Event) :
    SymbolMachine.run (step settings)
        ⟨{ parser with state := .chunkSizeStart, nread := 0 }, .fresh, log⟩ (chunkText data) =
      .ok ⟨{ parser with state := .chunkSizeStart, nread := 0, contentLength := 0 }, .fresh,
        log ++ chunkLog data⟩ := by
  have hpos : data.length ≠ 0 := fun h => hne (List.length_eq_zero_iff.mp h)
  have hlimit : SIZE_LIMIT = 1152921504606846974 := by decide
  have hullong : ULLONG_MAX = 18446744073709551615 := by decide
  have hline := run_chunkLine hw parser hok hchunked hpos hmax hroom log
  have hdata := run_chunkData settings { parser with contentLength := data.length, nread := 0 }
    hchunked rfl hne (by omega) (log ++ [.notify .chunkHeader])
  have hend := run_chunkEnd hw { parser with contentLength := 0, nread := 0 } hok hchunked rfl
    (log ++ [.notify .chunkHeader] ++ pieceLog .body data)
  have hlog : log ++ chunkLog data = log ++ [.notify .chunkHeader] ++ pieceLog .body data ++
      [.notify .chunkComplete] := by
    simp [chunkLog]
  rw [chunkText, List.append_assoc (sizeText data.length ++ [CR, LF]), hlog]
  exact (SymbolMachine.run_append_of_ok hline _).trans
    ((SymbolMachine.run_append_of_ok hdata _).trans hend)

/-- The line end that is no header. -/
theorem step_endHeaders (settings : Settings) (parser : HttpParser)
    (hn : parser.nread < HTTP_MAX_HEADER_SIZE) (log : List Event) :
    step settings ⟨{ parser with state := .headerFieldStart }, .fresh, log⟩ CR =
      .ok ⟨{ parser with
        state := .headersAlmostDone, nread := parser.nread + 1 }, .fresh, log⟩ := by
  refine (step_switch fresh_ne_returned rfl rfl hn CR).trans ?_
  change perform CR (headerFieldStart settings { parser with
    state := .headerFieldStart, nread := parser.nread + 1 } CR) log = _
  rw [headerFieldStart, if_pos rfl]
  exact congrArg (fun log => Except.ok (Stream.mk _ .fresh log)) (List.append_nil log)

/-- The parser after the last chunk, whose trailers are empty. -/
def afterChunks (parser : HttpParser) : HttpParser :=
  let parser := { parser with flags.trailing := true, contentLength := 0, nread := 2 }
  { parser with state := newMessage parser }

theorem run_lastChunk (hw : Willing settings) (parser : HttpParser) (hok : parser.httpErrno = .ok)
    (hupgrade : parser.upgrade = false) (hchunked : parser.flags.chunked) (log : List Event) :
    SymbolMachine.run (step settings)
        ⟨{ parser with state := .chunkSizeStart, nread := 0 }, .fresh, log⟩ (chunkText []) =
      .ok ⟨afterChunks parser, .fresh, log ++ chunkLog [] ++ [.notify .messageComplete]⟩ := by
  have hsize := run_chunkSize settings parser hchunked (by decide : 0 / 16 ≤ SIZE_LIMIT) (by decide)
    log
  have hline : step settings ⟨{ parser with
        state := .chunkSizeAlmostDone, contentLength := 0, nread := 2 }, .fresh, log⟩ LF =
      .ok ⟨{ parser with
        state := .headerFieldStart, flags.trailing := true, contentLength := 0, nread := 0 },
          .fresh, log ++ [.notify .chunkHeader]⟩ := by
    have hn : 2 < HTTP_MAX_HEADER_SIZE := by decide
    refine (step_switch fresh_ne_returned rfl rfl hn LF).trans ?_
    change perform LF (chunkSizeAlmostDone settings { parser with
      state := .chunkSizeAlmostDone, contentLength := 0, nread := 3 } LF) log = _
    rw [chunkSizeAlmostDone, assert, if_pos (by exact hchunked), if_neg (by decide)]
    dsimp only
    rw [if_pos rfl, perform_call (by exact hok) (hw _)]
    exact congrArg (fun log => Except.ok (Stream.mk _ .fresh log)) (List.append_nil _)
  have hcr : step settings ⟨{ parser with
        state := .headerFieldStart, flags.trailing := true, contentLength := 0, nread := 0 },
          .fresh, log ++ [.notify .chunkHeader]⟩ CR =
      .ok ⟨{ parser with
        state := .headersAlmostDone, flags.trailing := true, contentLength := 0, nread := 1 },
          .fresh, log ++ [.notify .chunkHeader]⟩ :=
    step_endHeaders settings { parser with flags.trailing := true, contentLength := 0, nread := 0 }
      (by decide : 0 < HTTP_MAX_HEADER_SIZE) _
  have hlf : step settings ⟨{ parser with
        state := .headersAlmostDone, flags.trailing := true, contentLength := 0, nread := 1 },
          .fresh, log ++ [.notify .chunkHeader]⟩ LF =
      .ok ⟨afterChunks parser, .fresh, log ++ [.notify .chunkHeader] ++ [.notify .chunkComplete] ++
        [.notify .messageComplete]⟩ := by
    have hn : 1 < HTTP_MAX_HEADER_SIZE := by decide
    refine (step_switch fresh_ne_returned rfl rfl hn LF).trans ?_
    change perform LF (headersAlmostDone settings { parser with
      state := .headersAlmostDone, flags.trailing := true, contentLength := 0, nread := 2 } LF) _ =
        _
    rw [headersAlmostDone, if_neg (by decide), if_pos rfl]
    dsimp only
    rw [perform_call (by exact hok) (hw _)]
    exact perform_messageDone hw { parser with
      state := .messageDone, flags.trailing := true, contentLength := 0, nread := 2 } hok hupgrade
        LF _
  have hlog : log ++ chunkLog [] ++ [.notify .messageComplete] =
      log ++ [.notify .chunkHeader] ++ [.notify .chunkComplete] ++ [.notify .messageComplete] := by
    simp [chunkLog, pieceLog]
  have htext : chunkText [] = (sizeText 0 ++ [CR]) ++ [LF, CR, LF] := rfl
  rw [htext, hlog]
  exact SymbolMachine.run_append_ok.mpr ⟨_, hsize, SymbolMachine.run_cons_ok.mpr ⟨_, hline,
    SymbolMachine.run_cons_ok.mpr ⟨_, hcr, SymbolMachine.run_cons_ok.mpr ⟨_, hlf, rfl⟩⟩⟩⟩

/-- What is written in chunks is read back, chunk by chunk. -/
theorem run_chunks (hw : Willing settings) (parser : HttpParser) (hok : parser.httpErrno = .ok)
    (hupgrade : parser.upgrade = false) (hchunked : parser.flags.chunked) {chunks : List Str}
    (hchunks : ∀ data ∈ chunks, data ≠ [] ∧ data.length / 16 ≤ SIZE_LIMIT ∧
      (sizeText data.length).length + 1 < HTTP_MAX_HEADER_SIZE) (log : List Event) :
    SymbolMachine.run (step settings)
        ⟨{ parser with state := .chunkSizeStart, nread := 0 }, .fresh, log⟩ (chunksText chunks) =
      .ok ⟨afterChunks parser, .fresh,
        log ++ (chunks ++ [[]]).flatMap chunkLog ++ [.notify .messageComplete]⟩ := by
  rw [chunksText]
  induction chunks generalizing parser log with
  | nil =>
    rw [List.nil_append, List.flatMap_singleton]
    exact run_lastChunk hw parser hok hupgrade hchunked log
  | cons data chunks ih =>
    rw [List.forall_mem_cons] at hchunks
    obtain ⟨⟨hne, hmax, hroom⟩, hchunks⟩ := hchunks
    have hfirst := run_chunk hw parser hok hchunked hne hmax hroom log
    have hrest := ih { parser with contentLength := 0 } hok hupgrade hchunked hchunks
      (log ++ chunkLog data)
    rw [List.flatMap_cons, List.append_assoc (chunkText data), List.cons_append, List.flatMap_cons,
      ← List.append_assoc log]
    exact SymbolMachine.run_append_ok.mpr ⟨_, hfirst, hrest⟩

end HttpParserBodies
