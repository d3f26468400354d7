import Grt.HttpParserSwitch
import Grt.PieceStream
import Mathlib.Logic.Function.Basic

/-! `http_parser_execute` over a buffer: the marks are positions in it, four states loop over
several characters at once, and what is marked at the end of the buffer is handed over. -/
namespace HttpParserExecute

open LittleEndian HttpParserState HttpParserSwitch

/-- A call of a callback. -/
abbrev Event := PieceStream.Item Element Notify Byte

structure Result where
  parser : HttpParser
  events : List Event
  returned : ℕ
  deriving DecidableEq, Repr

/-- How an execution ends. -/
inductive Exit where
  | returned (result : Result)
  | aborted
  deriving DecidableEq, Repr

/-- The locals of an execution. `parser->state` and `p_state` are one field, as every way out
stores the local. -/
structure Loop where
  parser : HttpParser
  p : ℕ
  mark : Element → Option ℕ
  events : List Event

def Loop.exit (l : Loop) (parser : HttpParser) (consumed : ℕ) : Exit :=
  .returned ⟨parser, l.events, l.p + consumed⟩

/-- `SET_ERRNO(e); goto error` -/
def Loop.fail (l : Loop) (parser : HttpParser) (e : HttpErrno) : Exit :=
  l.exit { parser with httpErrno := e } 0

/-- `MARK(e)` -/
def Loop.setMark (l : Loop) (e : Element) : Loop :=
  if l.mark e = none then { l with mark := Function.update l.mark e (some l.p) } else l

/-- `p++` -/
def Loop.advance (l : Loop) : Loop := { l with p := l.p + 1 }

/-- `COUNT_HEADER_SIZE(v)` -/
def Loop.count (v : ℕ) (l : Loop) : Except Exit Loop :=
  let parser := { l.parser with nread := (l.parser.nread + v) % 2 ^ 32 }
  if HTTP_MAX_HEADER_SIZE < parser.nread then .error (l.fail parser .headerOverflow)
  else .ok { l with parser }

/-- The characters of `data` from `m` up to `n`. -/
def slice (data : Str) (m n : ℕ) : Str := (data.drop m).take (n - m)

variable (settings : Settings) (data : Str)

/-- `CALLBACK_DATA_(e, len, er)`: the text ends `extra` characters after `p`. -/
def callbackData (e : Element) (extra consumed : ℕ) (l : Loop) : Except Exit Loop :=
  if l.parser.httpErrno ≠ .ok then .error .aborted
  else match l.mark e with
  | none => .ok l
  | some m =>
    let closed := { l with mark := Function.update l.mark e none }
    match settings.onData e with
    | none => .ok closed
    | some code =>
      let called := { closed with
        events := l.events ++ [.data e (slice data m (l.p + extra))] }
      if code ≠ 0 then
        .error (called.exit { l.parser with httpErrno := .callbackData e } consumed)
      else .ok called

def perform : Step → Loop → Except Exit Loop
  | .next parser, l => .ok { l with parser }
  | .exit parser consumed, l => .error (l.exit parser consumed)
  | .abort, _ => .error .aborted
  | .mark e rest, l => perform rest (l.setMark e)
  | .data e parser consumed rest, l => do
    let l ← callbackData settings data e 0 consumed { l with parser }
    perform rest l
  | .call n rest, l => perform rest { l with events := l.events ++ [.notify n] }

/-- The loop over a header's name, which stops at what is not a token. -/
def headerFieldLoop : Str → Loop → Except Exit Loop
  | [], l => .ok l
  | ch :: rest, l =>
    if token ch = 0 then .ok l
    else do
      let l ← perform settings data (headerFieldChar l.parser ch) l
      headerFieldLoop rest l.advance

/-- What follows that loop, which began at `start`. -/
def afterHeaderField (start : ℕ) (l : Loop) : Except Exit Loop := do
  let l ← l.count (l.p - start)
  match data[l.p]? with
  | none => .ok { l with p := l.p - 1 }
  | some ch =>
    if ch = char ':' then
      perform settings data (endText l.parser .headerField .headerValueDiscardWs) l
    else .error (l.fail l.parser .invalidHeaderToken)

def headerField (l : Loop) : Except Exit Loop :=
  headerFieldLoop settings data (data.drop l.p) l >>= afterHeaderField settings data l.p

/-- Where the pointer of the case `h_general` goes: to the first line end within the largest
header, else to the end of the buffer. -/
def lineEnd (rest : Str) : ℕ :=
  let limit := min rest.length HTTP_MAX_HEADER_SIZE
  match (rest.take limit).idxOf? CR, (rest.take limit).idxOf? LF with
  | some cr, some lf => if lf ≤ cr then lf else cr
  | some cr, none => cr
  | none, some lf => lf
  | none, none => rest.length

/-- What follows the loop over a header's value that began at `start`. -/
def afterHeaderValue (start : ℕ) (h : HeaderState) (l : Loop) : Except Exit Loop := do
  let l ← { l with parser.headerState := h }.count (l.p - start)
  if l.p = data.length then .ok { l with p := l.p - 1 } else .ok l

/-- The loop over a header's value, with the characters that `h_general` still skips and the
local `h_state`. -/
def headerValueLoop (lenient : Bool) (start : ℕ) :
    Str → ℕ → HeaderState → Loop → Except Exit Loop
  | [], _, h, l => afterHeaderValue data start h l
  | _ :: rest, skip + 1, h, l => headerValueLoop lenient start rest skip h l.advance
  | ch :: rest, 0, h, l =>
    if ch = CR then do
      let l ← callbackData settings data .headerValue 0 1
        { l with parser.state := .headerAlmostDone, parser.headerState := h }
      afterHeaderValue data start h l
    else if ch = LF then do
      let l ← { l with parser.state := .headerAlmostDone }.count (l.p - start)
      let l ← callbackData settings data .headerValue 0 0 { l with parser.headerState := h }
      perform settings data (headerAlmostDone l.parser ch) l
    else if !lenient && !isHeaderChar ch then .error (l.fail l.parser .invalidHeaderToken)
    else if h = .general then
      headerValueLoop lenient start rest (lineEnd (ch :: rest) - 1) h l.advance
    else match headerValueChar l.parser h ch with
      | .next parser h => headerValueLoop lenient start rest 0 h { l with parser, p := l.p + 1 }
      | .fail parser e => .error (l.fail parser e)
      | .abort => .error .aborted

def headerValue (lenient : Bool) (l : Loop) : Except Exit Loop :=
  headerValueLoop settings data lenient l.p (data.drop l.p) 0 l.parser.headerState l

/-- The part of a body or of a chunk that lies in the buffer; `p` stays on its last character. -/
def takeBody (l : Loop) : Loop :=
  let toRead := min l.parser.contentLength (data.length - l.p)
  let l := l.setMark .body
  { l with parser.contentLength := l.parser.contentLength - toRead, p := l.p + toRead - 1 }

/-- A length that is 0 or unknown fails an assertion. -/
def bodyIdentity (l : Loop) : Except Exit Loop :=
  if l.parser.contentLength = 0 ∨ l.parser.contentLength = ULLONG_MAX then .error .aborted
  else
    let l := takeBody data l
    if l.parser.contentLength = 0 then do
      let l ← callbackData settings data .body 1 0 { l with parser.state := .messageDone }
      perform settings data (messageDone settings l.parser) l
    else .ok l

def bodyIdentityEof (l : Loop) : Except Exit Loop :=
  .ok { l.setMark .body with p := data.length - 1 }

def chunkData (l : Loop) : Except Exit Loop :=
  if l.parser.flags.chunked = false ∨ l.parser.contentLength = 0 ∨
      l.parser.contentLength = ULLONG_MAX then .error .aborted
  else
    let l := takeBody data l
    if l.parser.contentLength = 0 then .ok { l with parser.state := .chunkDataAlmostDone }
    else .ok l

/-- The switch, with the cases that loop over several characters. -/
def dispatch (lenient : Bool) (ch : Byte) (l : Loop) : Except Exit Loop :=
  match l.parser.state with
  | .headerField => headerField settings data l
  | .headerValue => headerValue settings data lenient l
  | .bodyIdentity => bodyIdentity settings data l
  | .bodyIdentityEof => bodyIdentityEof data l
  | .chunkData => chunkData data l
  | _ => perform settings data (switch settings l.parser ch) l

/-- The body of the loop over the buffer, at the character `ch`. -/
def body (lenient : Bool) (ch : Byte) (l : Loop) : Except Exit Loop := do
  let l ← if parsingHeader l.parser.state then l.count 1 else .ok l
  dispatch settings data lenient ch l

/-- As many rounds as are left; a round takes at least one character. -/
def loop (lenient : Bool) : ℕ → Loop → Except Exit Loop
  | 0, l => .ok l
  | n + 1, l =>
    match data[l.p]? with
    | none => .ok l
    | some ch => do
      let l ← body settings data lenient ch l
      loop lenient n l.advance

/-- The texts that go on in the next buffer. -/
def openElement : State → Option Element
  | .headerField => some .headerField
  | .headerValue => some .headerValue
  | .reqPath | .reqSchema | .reqSchemaSlash | .reqSchemaSlashSlash | .reqServerStart | .reqServer
  | .reqServerWithAt | .reqQueryStringStart | .reqQueryString | .reqFragmentStart
  | .reqFragment => some .url
  | .resStatus => some .status
  | _ => none

/-- The marks at the start of a buffer. -/
def startMarks (s : State) : Element → Option ℕ := fun e =>
  if openElement s = some e then some 0 else none

def elements : List Element := [.headerField, .headerValue, .url, .body, .status]

/-- The calls for what is still marked at the end, of which there is one at most. -/
def finish (l : Loop) : Except Exit Loop :=
  if 1 < (elements.filter fun e => (l.mark e).isSome).length then .error .aborted
  else elements.foldlM (fun l e => callbackData settings data e 0 0 l) l

/-- An empty buffer stands for the end of the stream. -/
def endOfStream (parser : HttpParser) : Step :=
  match parser.state with
  | .bodyIdentityEof => notify settings .messageComplete parser 0 (.exit parser 0)
  | .dead | .startReqOrRes | .startRes | .startReq => .exit parser 0
  | _ => .exit { parser with httpErrno := .invalidEofState } 1

def start (parser : HttpParser) : Loop := ⟨parser, 0, startMarks parser.state, []⟩

def executeLoop (parser : HttpParser) : Except Exit Loop :=
  if data.length = 0 then perform settings data (endOfStream settings parser) (start parser)
  else do
    let l ← loop settings data parser.lenientHttpHeaders data.length (start parser)
    finish settings data l

def httpParserExecute (parser : HttpParser) : Exit :=
  if parser.httpErrno ≠ .ok then .returned ⟨parser, [], 0⟩
  else match executeLoop settings data parser with
    | .error exit => exit
    | .ok l => .returned ⟨l.parser, l.events, data.length⟩

end HttpParserExecute
