import Grt.LittleEndian
import Mathlib.Data.List.Basic

/-! The `http_parser` record, its states, its character classes and its method table
(`src/http/http_parser.h` and the head of `http_parser.c`, with `HTTP_PARSER_STRICT` on). -/
namespace HttpParserState

open LittleEndian

abbrev Str := List Byte

def char (c : Char) : Byte := BitVec.ofNat 8 c.toNat

def chars (cs : List Char) : Str := cs.map char

def HT : Byte := 9
def LF : Byte := 10
def CR : Byte := 13
def SP : Byte := 32

/-- `LOWER` also moves what is not a letter. -/
def lower (c : Byte) : Byte := c ||| 0x20

def isAlpha (c : Byte) : Bool := char 'a' ≤ lower c && lower c ≤ char 'z'

def isNum (c : Byte) : Bool := char '0' ≤ c && c ≤ char '9'

def isAlphanum (c : Byte) : Bool := isAlpha c || isNum c

def isHex (c : Byte) : Bool := isNum c || (char 'a' ≤ lower c && lower c ≤ char 'f')

/-- `- _ . ! ~ * ' ( )` -/
def isMark (c : Byte) : Bool := [45, 95, 46, 33, 126, 42, 39, 40, 41].contains c

/-- The marks and `% ; : & = + $ ,`. -/
def isUserinfoChar (c : Byte) : Bool :=
  isAlphanum c || isMark c || [37, 59, 58, 38, 61, 43, 36, 44].contains c

/-- The table `tokens`: 0 for what is not a token, else the character in lower case. The other
tokens are ``! # $ % & ' * + - . ^ _ ` | ~``. -/
def token (c : Byte) : Byte :=
  if isAlpha c then lower c
  else if isNum c || [33, 35, 36, 37, 38, 39, 42, 43, 45, 46, 94, 95, 96, 124, 126].contains c
  then c
  else 0

/-- The bit map `normal_url_char`: what is printed, without the blank, `#` and `?`. -/
def isUrlChar (c : Byte) : Bool := 33 ≤ c && c ≤ 126 && c != 35 && c != 63

def isHeaderChar (c : Byte) : Bool := c = CR || c = LF || c = 9 || (31 < c && c != 127)

/-- `c - '0'` -/
def digit (c : Byte) : ℕ := c.toNat - 48

/-- The table `unhex`, -1 as `none`. Its upper half has no initialisers and is 0. -/
def unhex (c : Byte) : Option ℕ :=
  if isNum c then some (digit c)
  else if isHex c then some ((lower c).toNat - 87)
  else if 128 ≤ c then some 0
  else none

inductive HttpMethod where
  | DELETE | GET | HEAD | POST | PUT | CONNECT | OPTIONS | TRACE | COPY | LOCK | MKCOL | MOVE
  | PROPFIND | PROPPATCH | SEARCH | UNLOCK | BIND | REBIND | UNBIND | ACL | REPORT | MKACTIVITY
  | CHECKOUT | MERGE | MSEARCH | NOTIFY | SUBSCRIBE | UNSUBSCRIBE | PATCH | PURGE | MKCALENDAR
  | LINK | UNLINK
  deriving DecidableEq, Repr

/-- The table `method_strings`. -/
def methodString : HttpMethod → Str
  | .DELETE => chars ['D', 'E', 'L', 'E', 'T', 'E']
  | .GET => chars ['G', 'E', 'T']
  | .HEAD => chars ['H', 'E', 'A', 'D']
  | .POST => chars ['P', 'O', 'S', 'T']
  | .PUT => chars ['P', 'U', 'T']
  | .CONNECT => chars ['C', 'O', 'N', 'N', 'E', 'C', 'T']
  | .OPTIONS => chars ['O', 'P', 'T', 'I', 'O', 'N', 'S']
  | .TRACE => chars ['T', 'R', 'A', 'C', 'E']
  | .COPY => chars ['C', 'O', 'P', 'Y']
  | .LOCK => chars ['L', 'O', 'C', 'K']
  | .MKCOL => chars ['M', 'K', 'C', 'O', 'L']
  | .MOVE => chars ['M', 'O', 'V', 'E']
  | .PROPFIND => chars ['P', 'R', 'O', 'P', 'F', 'I', 'N', 'D']
  | .PROPPATCH => chars ['P', 'R', 'O', 'P', 'P', 'A', 'T', 'C', 'H']
  | .SEARCH => chars ['S', 'E', 'A', 'R', 'C', 'H']
  | .UNLOCK => chars ['U', 'N', 'L', 'O', 'C', 'K']
  | .BIND => chars ['B', 'I', 'N', 'D']
  | .REBIND => chars ['R', 'E', 'B', 'I', 'N', 'D']
  | .UNBIND => chars ['U', 'N', 'B', 'I', 'N', 'D']
  | .ACL => chars ['A', 'C', 'L']
  | .REPORT => chars ['R', 'E', 'P', 'O', 'R', 'T']
  | .MKACTIVITY => chars ['M', 'K', 'A', 'C', 'T', 'I', 'V', 'I', 'T', 'Y']
  | .CHECKOUT => chars ['C', 'H', 'E', 'C', 'K', 'O', 'U', 'T']
  | .MERGE => chars ['M', 'E', 'R', 'G', 'E']
  | .MSEARCH => chars ['M', '-', 'S', 'E', 'A', 'R', 'C', 'H']
  | .NOTIFY => chars ['N', 'O', 'T', 'I', 'F', 'Y']
  | .SUBSCRIBE => chars ['S', 'U', 'B', 'S', 'C', 'R', 'I', 'B', 'E']
  | .UNSUBSCRIBE => chars ['U', 'N', 'S', 'U', 'B', 'S', 'C', 'R', 'I', 'B', 'E']
  | .PATCH => chars ['P', 'A', 'T', 'C', 'H']
  | .PURGE => chars ['P', 'U', 'R', 'G', 'E']
  | .MKCALENDAR => chars ['M', 'K', 'C', 'A', 'L', 'E', 'N', 'D', 'A', 'R']
  | .LINK => chars ['L', 'I', 'N', 'K']
  | .UNLINK => chars ['U', 'N', 'L', 'I', 'N', 'K']

/-- `enum state`, without the prefix `s_`. -/
inductive State where
  | dead | startReqOrRes | resOrRespH | startRes | resH | resHT | resHTT | resHTTP
  | resFirstHttpMajor | resHttpMajor | resFirstHttpMinor | resHttpMinor | resFirstStatusCode
  | resStatusCode | resStatusStart | resStatus | resLineAlmostDone | startReq | reqMethod
  | reqSpacesBeforeUrl | reqSchema | reqSchemaSlash | reqSchemaSlashSlash | reqServerStart
  | reqServer | reqServerWithAt | reqPath | reqQueryStringStart | reqQueryString
  | reqFragmentStart | reqFragment | reqHttpStart | reqHttpH | reqHttpHT | reqHttpHTT
  | reqHttpHTTP | reqFirstHttpMajor | reqHttpMajor | reqFirstHttpMinor | reqHttpMinor
  | reqLineAlmostDone | headerFieldStart | headerField | headerValueDiscardWs
  | headerValueDiscardWsAlmostDone | headerValueDiscardLws | headerValueStart | headerValue
  | headerValueLws | headerAlmostDone | chunkSizeStart | chunkSize | chunkParameters
  | chunkSizeAlmostDone | headersAlmostDone | headersDone | chunkData | chunkDataAlmostDone
  | chunkDataDone | bodyIdentity | bodyIdentityEof | messageDone
  deriving DecidableEq, Repr

/-- `PARSING_HEADER`: the states up to `s_headers_done`. -/
def parsingHeader : State → Bool
  | .chunkData | .chunkDataAlmostDone | .chunkDataDone | .bodyIdentity | .bodyIdentityEof
  | .messageDone => false
  | _ => true

/-- `enum header_states`, without the prefix `h_`. -/
inductive HeaderState where
  | general | C | CO | CON | matchingConnection | matchingProxyConnection
  | matchingContentLength | matchingTransferEncoding | matchingUpgrade | connection
  | contentLength | transferEncoding | upgrade | matchingTransferEncodingChunked
  | matchingConnectionTokenStart | matchingConnectionKeepAlive | matchingConnectionClose
  | matchingConnectionUpgrade | matchingConnectionToken | transferEncodingChunked
  | connectionKeepAlive | connectionClose | connectionUpgrade
  deriving DecidableEq, Repr

inductive HttpParserType where
  | request | response | both
  deriving DecidableEq, Repr

/-- The callbacks that are given a piece of text. -/
inductive Element where
  | url | status | headerField | headerValue | body
  deriving DecidableEq, Repr

/-- The other callbacks. -/
inductive Notify where
  | messageBegin | headersComplete | messageComplete | chunkHeader | chunkComplete
  deriving DecidableEq, Repr

/-- `enum http_errno`, without the prefix `HPE_` and the members that nothing here sets. -/
inductive HttpErrno where
  | ok
  | callback (n : Notify)
  | callbackData (e : Element)
  | invalidEofState | headerOverflow | closedConnection | invalidVersion | invalidStatus
  | invalidMethod | invalidUrl | lfExpected | invalidHeaderToken | invalidContentLength
  | unexpectedContentLength | invalidChunkSize | invalidConstant | invalidInternalState
  | strict | paused
  deriving DecidableEq, Repr

structure Flags where
  chunked : Bool
  connectionKeepAlive : Bool
  connectionClose : Bool
  connectionUpgrade : Bool
  trailing : Bool
  upgrade : Bool
  skipbody : Bool
  contentlength : Bool
  deriving DecidableEq, Repr

def noFlags : Flags := ⟨false, false, false, false, false, false, false, false⟩

/-- `nread` has 32 bits, `contentLength` 64, the versions and the status 16, `index` 7. -/
structure HttpParser where
  type : HttpParserType
  flags : Flags
  state : State
  headerState : HeaderState
  index : ℕ
  lenientHttpHeaders : Bool
  nread : ℕ
  contentLength : ℕ
  httpMajor : ℕ
  httpMinor : ℕ
  statusCode : ℕ
  method : HttpMethod
  httpErrno : HttpErrno
  upgrade : Bool
  deriving DecidableEq, Repr

def ULLONG_MAX : ℕ := 2 ^ 64 - 1

def HTTP_MAX_HEADER_SIZE : ℕ := 80 * 1024

/-- A new record: all zero but for the type and the state. -/
def httpParserInit (t : HttpParserType) : HttpParser where
  type := t
  flags := noFlags
  state := match t with
    | .request => .startReq
    | .response => .startRes
    | .both => .startReqOrRes
  headerState := .general
  index := 0
  lenientHttpHeaders := false
  nread := 0
  contentLength := 0
  httpMajor := 0
  httpMinor := 0
  statusCode := 0
  method := .DELETE
  httpErrno := .ok
  upgrade := false

def httpMessageNeedsEof (parser : HttpParser) : Bool :=
  if parser.type = .request then false
  else if parser.statusCode / 100 = 1 || parser.statusCode = 204 || parser.statusCode = 304 ||
      parser.flags.skipbody then false
  else if parser.flags.chunked || parser.contentLength != ULLONG_MAX then false
  else true

def httpShouldKeepAlive (parser : HttpParser) : Bool :=
  if 0 < parser.httpMajor ∧ 0 < parser.httpMinor then
    !parser.flags.connectionClose && !httpMessageNeedsEof parser
  else parser.flags.connectionKeepAlive && !httpMessageNeedsEof parser

/-- The macro `start_state`. -/
def startState (parser : HttpParser) : State :=
  if parser.type = .request then .startReq else .startRes

/-- `NEW_MESSAGE()` -/
def newMessage (parser : HttpParser) : State :=
  if httpShouldKeepAlive parser then startState parser else .dead

/-- The state after the first character of an absolute or a relative URL. -/
def parseUrlChar (s : State) (ch : Byte) : State :=
  if ch = SP ∨ ch = CR ∨ ch = LF ∨ ch = HT ∨ ch = 12 then .dead
  else match s with
    | .reqSpacesBeforeUrl =>
      if ch = char '/' ∨ ch = char '*' then .reqPath
      else if isAlpha ch then .reqSchema
      else .dead
    | .reqSchema =>
      if isAlpha ch then .reqSchema
      else if ch = char ':' then .reqSchemaSlash
      else .dead
    | .reqSchemaSlash => if ch = char '/' then .reqSchemaSlashSlash else .dead
    | .reqSchemaSlashSlash => if ch = char '/' then .reqServerStart else .dead
    | .reqServerWithAt => if ch = char '@' then .dead else server ch
    | .reqServerStart | .reqServer => server ch
    | .reqPath =>
      if isUrlChar ch then .reqPath
      else if ch = char '?' then .reqQueryStringStart
      else if ch = char '#' then .reqFragmentStart
      else .dead
    | .reqQueryStringStart | .reqQueryString =>
      if isUrlChar ch ∨ ch = char '?' then .reqQueryString
      else if ch = char '#' then .reqFragmentStart
      else .dead
    | .reqFragmentStart =>
      if isUrlChar ch ∨ ch = char '?' then .reqFragment
      else if ch = char '#' then .reqFragmentStart
      else .dead
    | .reqFragment =>
      if isUrlChar ch ∨ ch = char '?' ∨ ch = char '#' then .reqFragment else .dead
    | _ => .dead
where
  /-- The cases that `s_req_server_with_at` falls through to. -/
  server (ch : Byte) : State :=
    if ch = char '/' then .reqPath
    else if ch = char '?' then .reqQueryStringStart
    else if ch = char '@' then .reqServerWithAt
    else if isUserinfoChar ch ∨ ch = char '[' ∨ ch = char ']' then .reqServer
    else .dead

end HttpParserState
