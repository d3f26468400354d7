import Grt.HttpParserExecute
import Grt.SymbolMachine

/-! `http_parser` as a machine that reads one character at a time, without buffers, marks or
loops over several characters. Texts are logged character by character. -/
namespace HttpParserMachine

open LittleEndian HttpParserState HttpParserSwitch PieceStream
open HttpParserExecute (Event openElement)

/-- Where an execution stands between two characters: it enters the switch anew, is in the loop
over a header, skips the rest of a value, or has returned. -/
inductive Progress where
  | fresh | looping | skipping | returned
  deriving DecidableEq, Repr

theorem fresh_ne_returned : Progress.fresh ≠ .returned := by decide

theorem looping_ne_returned : Progress.looping ≠ .returned := by decide

/-- The places outside the loops over a header. -/
theorem not_inLoop {progress : Progress} (h : progress = .fresh ∨ progress = .returned) :
    ¬ (progress = .looping ∨ progress = .skipping) := by
  rcases h with rfl | rfl <;> decide

structure Stream where
  parser : HttpParser
  progress : Progress
  log : List Event
  deriving DecidableEq, Repr

inductive Refusal where
  | refused | aborted
  deriving DecidableEq, Repr

/-- A character of a text that is open in this state. -/
def logged (s : State) (ch : Byte) : List Event :=
  match openElement s with
  | some e => [.data e [ch]]
  | none => []

/-- The actions of a case. A text that is marked begins as an empty one. -/
def perform (ch : Byte) : Step → List Event → Except Refusal Stream
  | .next parser, log => .ok ⟨parser, .fresh, log ++ logged parser.state ch⟩
  | .exit parser _, log =>
    if parser.httpErrno = .ok then .ok ⟨parser, .returned, log⟩ else .error .refused
  | .abort, _ => .error .aborted
  | .mark e rest, log => perform ch rest (log ++ [.data e []])
  | .data _ _ _ rest, log => perform ch rest log
  | .call n rest, log => perform ch rest (log ++ [.notify n])

/-- One character more of the headers. -/
def countByte (parser : HttpParser) : Except Refusal HttpParser :=
  if HTTP_MAX_HEADER_SIZE < parser.nread + 1 then .error .refused
  else .ok { parser with nread := parser.nread + 1 }

def headerField (parser : HttpParser) (ch : Byte) (log : List Event) : Except Refusal Stream :=
  if token ch = 0 then
    if ch = char ':' then
      perform ch (endText parser .headerField .headerValueDiscardWs) log
    else .error .refused
  else match headerFieldChar parser ch with
    | .next parser => .ok ⟨parser, .looping, log ++ [.data .headerField [ch]]⟩
    | .abort => .error .aborted
    | _ => .error .refused

/-- What `h_general` skips is not looked at. -/
def headerValue (parser : HttpParser) (skipping : Bool) (ch : Byte) (log : List Event) :
    Except Refusal Stream :=
  if ch = CR then .ok ⟨{ parser with state := .headerAlmostDone }, .fresh, log⟩
  else if ch = LF then
    perform ch (headerAlmostDone { parser with state := .headerAlmostDone } ch) log
  else if !skipping && !parser.lenientHttpHeaders && !isHeaderChar ch then .error .refused
  else match headerValueChar parser parser.headerState ch with
    | .next next h => .ok ⟨{ next with headerState := h },
        if parser.headerState = .general then .skipping else .looping,
        log ++ [.data .headerValue [ch]]⟩
    | .fail _ _ => .error .refused
    | .abort => .error .aborted

def bodyIdentity (settings : Settings) (parser : HttpParser) (ch : Byte) (log : List Event) :
    Except Refusal Stream :=
  if parser.contentLength = 0 ∨ parser.contentLength = ULLONG_MAX then .error .aborted
  else
    let parser := { parser with contentLength := parser.contentLength - 1 }
    let log := log ++ [.data .body [ch]]
    if parser.contentLength = 0 then
      perform ch (messageDone settings { parser with state := .messageDone }) log
    else .ok ⟨parser, .fresh, log⟩

def chunkData (parser : HttpParser) (ch : Byte) (log : List Event) : Except Refusal Stream :=
  if parser.flags.chunked = false ∨ parser.contentLength = 0 ∨
      parser.contentLength = ULLONG_MAX then .error .aborted
  else
    let parser := { parser with contentLength := parser.contentLength - 1 }
    .ok ⟨if parser.contentLength = 0 then { parser with state := .chunkDataAlmostDone } else parser,
      .fresh, log ++ [.data .body [ch]]⟩

/-- The case of the parser's state, for a character that has been counted. -/
def react (settings : Settings) (parser : HttpParser) (skipping : Bool) (ch : Byte)
    (log : List Event) : Except Refusal Stream :=
  match parser.state with
  | .headerField => headerField parser ch log
  | .headerValue => headerValue parser skipping ch log
  | .bodyIdentity => bodyIdentity settings parser ch log
  | .bodyIdentityEof => .ok ⟨parser, .fresh, log ++ [.data .body [ch]]⟩
  | .chunkData => chunkData parser ch log
  | _ => perform ch (switch settings parser ch) log

section React

variable {settings : Settings} {parser : HttpParser} {skipping : Bool} {ch : Byte}
  {log : List Event}

theorem react_headerField (hs : parser.state = .headerField) :
    react settings parser skipping ch log = headerField parser ch log := by
  rw [react, hs]

theorem react_headerValue (hs : parser.state = .headerValue) :
    react settings parser skipping ch log = headerValue parser skipping ch log := by
  rw [react, hs]

theorem react_bodyIdentity (hs : parser.state = .bodyIdentity) :
    react settings parser skipping ch log = bodyIdentity settings parser ch log := by
  rw [react, hs]

theorem react_bodyIdentityEof (hs : parser.state = .bodyIdentityEof) :
    react settings parser skipping ch log =
      .ok ⟨parser, .fresh, log ++ [.data .body [ch]]⟩ := by
  rw [react, hs]

theorem react_chunkData (hs : parser.state = .chunkData) :
    react settings parser skipping ch log = chunkData parser ch log := by
  rw [react, hs]

end React

/-- A stream that has returned reads no more. -/
def step (settings : Settings) (s : Stream) (ch : Byte) : Except Refusal Stream :=
  if s.progress = .returned then .error .refused
  else do
    let parser ← if parsingHeader s.parser.state then countByte s.parser else .ok s.parser
    react settings parser (s.progress = .skipping) ch s.log

/-- The end of a buffer. A loop that it breaks off counts a character too many. -/
def endBuffer (s : Stream) : Except Refusal Stream :=
  match s.progress with
  | .looping | .skipping => do
    let parser ← countByte s.parser
    .ok ⟨parser, .fresh, s.log⟩
  | .fresh | .returned => .ok ⟨s.parser, .fresh, s.log⟩

/-- A parser between two executions. -/
def fresh (parser : HttpParser) (log : List Event) : Stream := ⟨parser, .fresh, log⟩

/-- What an execution on this buffer does. -/
def feed (settings : Settings) (data : Str) (s : Stream) : Except Refusal Stream := do
  let s ← SymbolMachine.run (step settings) s data
  endBuffer s

end HttpParserMachine
