import Grt.HttpParserState

/-! The switch of `http_parser_execute`: what it does with one character, as the marks and calls
that it makes before it leaves. A `REEXECUTE()` is the case of the state just set. -/
namespace HttpParserSwitch

open LittleEndian HttpParserState

/-- What the callbacks answer, `none` for one that is not set. -/
structure Settings where
  onData : Element → Option ℤ
  onNotify : Notify → Option ℤ

/-- What a case does, in order. -/
inductive Step where
  /-- `break` -/
  | next (parser : HttpParser)
  /-- A return of `p - data`, or of one more. -/
  | exit (parser : HttpParser) (consumed : ℕ)
  /-- An assertion fails, or a read leaves its array. -/
  | abort
  /-- `MARK` -/
  | mark (e : Element) (rest : Step)
  /-- `CALLBACK_DATA_`, with what it returns after `p - data` if the callback fails. -/
  | data (e : Element) (parser : HttpParser) (consumed : ℕ) (rest : Step)
  /-- The call of a notification. -/
  | call (n : Notify) (rest : Step)

/-- `SET_ERRNO(e); goto error` -/
def fail (parser : HttpParser) (e : HttpErrno) : Step :=
  .exit { parser with httpErrno := e } 0

def assert (c : Prop) [Decidable c] (rest : Step) : Step := if c then rest else .abort

/-- `CALLBACK_NOTIFY_` -/
def notify (settings : Settings) (n : Notify) (parser : HttpParser) (consumed : ℕ)
    (rest : Step) : Step :=
  assert (parser.httpErrno = .ok) <|
    match settings.onNotify n with
    | none => rest
    | some 0 => .call n rest
    | some _ => .call n (.exit { parser with httpErrno := .callback n } consumed)

/-- A state that waits for one character. -/
def expect (parser : HttpParser) (ch want : Byte) (e : HttpErrno) (next : State) : Step :=
  if ch ≠ want then fail parser e else .next { parser with state := next }

/-- A first digit. -/
def firstDigit (parser : HttpParser) (ch : Byte) (e : HttpErrno)
    (put : HttpParser → ℕ → HttpParser) (next : State) : Step :=
  if !isNum ch then fail parser e else .next { put parser (digit ch) with state := next }

/-- A further digit of a number of 16 bits that may not pass 999. -/
def nextDigit (parser : HttpParser) (ch : Byte) (e : HttpErrno) (value : ℕ)
    (put : HttpParser → ℕ → HttpParser) : Step :=
  if !isNum ch then fail parser e
  else
    let value := (value * 10 + digit ch) % 2 ^ 16
    if 999 < value then fail (put parser value) e else .next (put parser value)

def putMajor (parser : HttpParser) (n : ℕ) : HttpParser := { parser with httpMajor := n }

def putMinor (parser : HttpParser) (n : ℕ) : HttpParser := { parser with httpMinor := n }

def putStatus (parser : HttpParser) (n : ℕ) : HttpParser := { parser with statusCode := n }

def resFirstHttpMajor (parser : HttpParser) (ch : Byte) : Step :=
  firstDigit parser ch .invalidVersion putMajor .resHttpMajor

def resHttpMajor (parser : HttpParser) (ch : Byte) : Step :=
  if ch = char '.' then .next { parser with state := .resFirstHttpMinor }
  else nextDigit parser ch .invalidVersion parser.httpMajor putMajor

def resFirstHttpMinor (parser : HttpParser) (ch : Byte) : Step :=
  firstDigit parser ch .invalidVersion putMinor .resHttpMinor

def resHttpMinor (parser : HttpParser) (ch : Byte) : Step :=
  if ch = SP then .next { parser with state := .resFirstStatusCode }
  else nextDigit parser ch .invalidVersion parser.httpMinor putMinor

def resFirstStatusCode (parser : HttpParser) (ch : Byte) : Step :=
  if ch = SP then .next parser
  else firstDigit parser ch .invalidStatus putStatus .resStatusCode

def resStatusCode (parser : HttpParser) (ch : Byte) : Step :=
  if ch = SP then .next { parser with state := .resStatusStart }
  else if ch = CR then .next { parser with state := .resLineAlmostDone }
  else if ch = LF then .next { parser with state := .headerFieldStart }
  else nextDigit parser ch .invalidStatus parser.statusCode putStatus

/-- The first digit of a request's major version is not 0. -/
def reqFirstHttpMajor (parser : HttpParser) (ch : Byte) : Step :=
  if ch = char '0' then fail parser .invalidVersion
  else firstDigit parser ch .invalidVersion putMajor .reqHttpMajor

def reqHttpMajor (parser : HttpParser) (ch : Byte) : Step :=
  if ch = char '.' then .next { parser with state := .reqFirstHttpMinor }
  else nextDigit parser ch .invalidVersion parser.httpMajor putMajor

def reqFirstHttpMinor (parser : HttpParser) (ch : Byte) : Step :=
  firstDigit parser ch .invalidVersion putMinor .reqHttpMinor

def reqHttpMinor (parser : HttpParser) (ch : Byte) : Step :=
  if ch = CR then .next { parser with state := .reqLineAlmostDone }
  else if ch = LF then .next { parser with state := .headerFieldStart }
  else nextDigit parser ch .invalidVersion parser.httpMinor putMinor

def dead (parser : HttpParser) (ch : Byte) : Step :=
  if ch = CR ∨ ch = LF then .next parser else fail parser .closedConnection

/-- The first letter of a method, and the first method that begins with it. -/
def firstMethod (ch : Byte) : Option HttpMethod :=
  ([(char 'A', .ACL), (char 'B', .BIND), (char 'C', .CONNECT), (char 'D', .DELETE),
    (char 'G', .GET), (char 'H', .HEAD), (char 'L', .LOCK), (char 'M', .MKCOL),
    (char 'N', .NOTIFY), (char 'O', .OPTIONS), (char 'P', .POST), (char 'R', .REPORT),
    (char 'S', .SUBSCRIBE), (char 'T', .TRACE), (char 'U', .UNLOCK)] :
      List (Byte × HttpMethod)).lookup ch

def startReq (settings : Settings) (parser : HttpParser) (ch : Byte) : Step :=
  if ch = CR ∨ ch = LF then .next parser
  else
    let parser := { parser with flags := noFlags, contentLength := ULLONG_MAX }
    if !isAlpha ch then fail parser .invalidMethod
    else
      let parser := { parser with method := .DELETE, index := 1 }
      match firstMethod ch with
      | none => fail parser .invalidMethod
      | some m =>
        let parser := { parser with method := m, state := .reqMethod }
        notify settings .messageBegin parser 1 (.next parser)

def startReqOrRes (settings : Settings) (parser : HttpParser) (ch : Byte) : Step :=
  if ch = CR ∨ ch = LF then .next parser
  else
    let parser := { parser with flags := noFlags, contentLength := ULLONG_MAX }
    if ch = char 'H' then
      let parser := { parser with state := .resOrRespH }
      notify settings .messageBegin parser 1 (.next parser)
    else startReq settings { parser with type := .request, state := .startReq } ch

def resOrRespH (parser : HttpParser) (ch : Byte) : Step :=
  if ch = char 'T' then .next { parser with type := .response, state := .resHT }
  else if ch ≠ char 'E' then fail parser .invalidConstant
  else .next { parser with type := .request, method := .HEAD, index := 2, state := .reqMethod }

def startRes (settings : Settings) (parser : HttpParser) (ch : Byte) : Step :=
  let parser := { parser with flags := noFlags, contentLength := ULLONG_MAX }
  if ch = char 'H' then
    let parser := { parser with state := .resH }
    notify settings .messageBegin parser 1 (.next parser)
  else if ch = CR ∨ ch = LF then notify settings .messageBegin parser 1 (.next parser)
  else fail parser .invalidConstant

def resStatusStart (parser : HttpParser) (ch : Byte) : Step :=
  if ch = CR then .next { parser with state := .resLineAlmostDone }
  else if ch = LF then .next { parser with state := .headerFieldStart }
  else .mark .status (.next { parser with state := .resStatus, index := 0 })

/-- The end of a text, whose callback is given what lies before the current character. -/
def endText (parser : HttpParser) (e : Element) (next : State) : Step :=
  let parser := { parser with state := next }
  .data e parser 1 (.next parser)

def resStatus (parser : HttpParser) (ch : Byte) : Step :=
  if ch = CR then endText parser .status .resLineAlmostDone
  else if ch = LF then endText parser .status .headerFieldStart
  else .next parser

/-- `++parser->index` -/
def nextIndex (parser : HttpParser) : HttpParser :=
  { parser with index := (parser.index + 1) % 128 }

/-- Where the name of a method turns into that of another one. -/
def methodBranches : List ((HttpMethod × ℕ × Byte) × HttpMethod) :=
  [((.POST, 1, char 'U'), .PUT), ((.POST, 1, char 'A'), .PATCH),
    ((.CONNECT, 1, char 'H'), .CHECKOUT), ((.CONNECT, 2, char 'P'), .COPY),
    ((.MKCOL, 1, char 'O'), .MOVE), ((.MKCOL, 1, char 'E'), .MERGE),
    ((.MKCOL, 2, char 'A'), .MKACTIVITY), ((.MKCOL, 3, char 'A'), .MKCALENDAR),
    ((.SUBSCRIBE, 1, char 'E'), .SEARCH), ((.REPORT, 2, char 'B'), .REBIND),
    ((.POST, 1, char 'R'), .PROPFIND), ((.PROPFIND, 4, char 'P'), .PROPPATCH),
    ((.PUT, 2, char 'R'), .PURGE), ((.LOCK, 1, char 'I'), .LINK),
    ((.UNLOCK, 2, char 'S'), .UNSUBSCRIBE), ((.UNLOCK, 2, char 'B'), .UNBIND),
    ((.UNLOCK, 3, char 'I'), .UNLINK)]

def reqMethod (parser : HttpParser) (ch : Byte) : Step :=
  if ch = 0 then fail parser .invalidMethod
  else match (methodString parser.method ++ [0])[parser.index]? with
    | none => .abort
    | some m =>
      if ch = SP ∧ m = 0 then .next (nextIndex { parser with state := .reqSpacesBeforeUrl })
      else if ch = m then .next (nextIndex parser)
      else if isAlpha ch then
        match methodBranches.lookup (parser.method, parser.index, ch) with
        | none => fail parser .invalidMethod
        | some method => .next (nextIndex { parser with method })
      else if ch = char '-' ∧ parser.index = 1 ∧ parser.method = .MKCOL then
        .next (nextIndex { parser with method := .MSEARCH })
      else fail parser .invalidMethod

def urlChar (parser : HttpParser) (ch : Byte) : Step :=
  let parser := { parser with state := parseUrlChar parser.state ch }
  if parser.state = .dead then fail parser .invalidUrl else .next parser

def reqSpacesBeforeUrl (parser : HttpParser) (ch : Byte) : Step :=
  if ch = SP then .next parser
  else .mark .url <|
    if parser.method = .CONNECT then urlChar { parser with state := .reqServerStart } ch
    else urlChar parser ch

/-- The states of a URL in which it cannot end. -/
def reqSchema (parser : HttpParser) (ch : Byte) : Step :=
  if ch = SP ∨ ch = CR ∨ ch = LF then fail parser .invalidUrl else urlChar parser ch

/-- The states of a URL in which it can end. -/
def reqUrl (parser : HttpParser) (ch : Byte) : Step :=
  if ch = SP then endText parser .url .reqHttpStart
  else if ch = CR then
    endText { parser with httpMajor := 0, httpMinor := 9 } .url .reqLineAlmostDone
  else if ch = LF then
    endText { parser with httpMajor := 0, httpMinor := 9 } .url .headerFieldStart
  else urlChar parser ch

def reqHttpStart (parser : HttpParser) (ch : Byte) : Step :=
  if ch = char 'H' then .next { parser with state := .reqHttpH }
  else if ch = SP then .next parser
  else fail parser .invalidConstant

def messageDone (settings : Settings) (parser : HttpParser) : Step :=
  let parser := { parser with state := newMessage parser }
  notify settings .messageComplete parser 1
    (if parser.upgrade then .exit parser 1 else .next parser)

/-- A message that ends with its headers. -/
def endMessage (settings : Settings) (parser : HttpParser) : Step :=
  let parser := { parser with state := newMessage parser }
  notify settings .messageComplete parser 1 (.next parser)

def hasBody (parser : HttpParser) : Bool :=
  parser.flags.chunked || (0 < parser.contentLength && parser.contentLength != ULLONG_MAX)

def headersDone (settings : Settings) (parser : HttpParser) (ch : Byte) : Step :=
  if ch ≠ LF then fail parser .strict
  else
    let parser := { parser with nread := 0 }
    if parser.upgrade ∧
        (parser.method = .CONNECT ∨ parser.flags.skipbody ∨ !hasBody parser) then
      let parser := { parser with state := newMessage parser }
      notify settings .messageComplete parser 1 (.exit parser 1)
    else if parser.flags.skipbody then endMessage settings parser
    else if parser.flags.chunked then .next { parser with state := .chunkSizeStart }
    else if parser.contentLength = 0 then endMessage settings parser
    else if parser.contentLength ≠ ULLONG_MAX then .next { parser with state := .bodyIdentity }
    else if !httpMessageNeedsEof parser then endMessage settings parser
    else .next { parser with state := .bodyIdentityEof }

def headersAlmostDone (settings : Settings) (parser : HttpParser) (ch : Byte) : Step :=
  if ch ≠ LF then fail parser .strict
  else if parser.flags.trailing then
    let parser := { parser with state := .messageDone }
    notify settings .chunkComplete parser 0 (messageDone settings parser)
  else if parser.flags.chunked ∧ parser.flags.contentlength then
    fail parser .unexpectedContentLength
  else
    let parser := { parser with state := .headersDone, upgrade :=
      (parser.flags.upgrade && parser.flags.connectionUpgrade) || parser.method = .CONNECT }
    match settings.onNotify .headersComplete with
    | none => headersDone settings parser ch
    | some 0 => .call .headersComplete (headersDone settings parser ch)
    | some 1 => .call .headersComplete
        (headersDone settings { parser with flags.skipbody := true } ch)
    | some 2 => .call .headersComplete
        (headersDone settings { parser with flags.skipbody := true, upgrade := true } ch)
    | some _ => .call .headersComplete (fail parser (.callback .headersComplete))

def headerFieldStart (settings : Settings) (parser : HttpParser) (ch : Byte) : Step :=
  if ch = CR then .next { parser with state := .headersAlmostDone }
  else if ch = LF then headersAlmostDone settings { parser with state := .headersAlmostDone } ch
  else if token ch = 0 then fail parser .invalidHeaderToken
  else
    let h : HeaderState :=
      if token ch = char 'c' then .C
      else if token ch = char 'p' then .matchingProxyConnection
      else if token ch = char 't' then .matchingTransferEncoding
      else if token ch = char 'u' then .matchingUpgrade
      else .general
    .mark .headerField (.next { parser with index := 0, state := .headerField, headerState := h })

def PROXY_CONNECTION : Str :=
  chars ['p', 'r', 'o', 'x', 'y', '-', 'c', 'o', 'n', 'n', 'e', 'c', 't', 'i', 'o', 'n']
def CONNECTION : Str := chars ['c', 'o', 'n', 'n', 'e', 'c', 't', 'i', 'o', 'n']
def CONTENT_LENGTH : Str :=
  chars ['c', 'o', 'n', 't', 'e', 'n', 't', '-', 'l', 'e', 'n', 'g', 't', 'h']
def TRANSFER_ENCODING : Str :=
  chars ['t', 'r', 'a', 'n', 's', 'f', 'e', 'r', '-', 'e', 'n', 'c', 'o', 'd', 'i', 'n', 'g']
def UPGRADE : Str := chars ['u', 'p', 'g', 'r', 'a', 'd', 'e']
def CHUNKED : Str := chars ['c', 'h', 'u', 'n', 'k', 'e', 'd']
def KEEP_ALIVE : Str := chars ['k', 'e', 'e', 'p', '-', 'a', 'l', 'i', 'v', 'e']
def CLOSE : Str := chars ['c', 'l', 'o', 's', 'e']

/-- One character more of a name, at an index that has just been counted up. -/
def matchName (name : Str) (index : ℕ) (c : Byte) (miss here hit : HeaderState) : HeaderState :=
  if name.length < index ∨ (name ++ [0])[index]? ≠ some c then miss
  else if index = name.length - 1 then hit
  else here

/-- The body of the loop over a header's name. -/
def headerFieldChar (parser : HttpParser) (ch : Byte) : Step :=
  let c := token ch
  let counted := nextIndex parser
  let matching (name : Str) (hit : HeaderState) : Step :=
    .next { counted with
      headerState := matchName name counted.index c .general parser.headerState hit }
  match parser.headerState with
  | .general => .next parser
  | .C => .next { counted with headerState := if c = char 'o' then .CO else .general }
  | .CO => .next { counted with headerState := if c = char 'n' then .CON else .general }
  | .CON => .next { counted with
      headerState := if c = char 'n' then .matchingConnection
        else if c = char 't' then .matchingContentLength
        else .general }
  | .matchingConnection => matching CONNECTION .connection
  | .matchingProxyConnection => matching PROXY_CONNECTION .connection
  | .matchingContentLength =>
    let h := matchName CONTENT_LENGTH counted.index c .general parser.headerState .contentLength
    if h = .contentLength then
      if parser.flags.contentlength then fail counted .unexpectedContentLength
      else .next { counted with headerState := h, flags.contentlength := true }
    else .next { counted with headerState := h }
  | .matchingTransferEncoding => matching TRANSFER_ENCODING .transferEncoding
  | .matchingUpgrade => matching UPGRADE .upgrade
  | .connection | .contentLength | .transferEncoding | .upgrade =>
    .next { parser with headerState := if ch ≠ SP then .general else parser.headerState }
  | _ => .abort

def headerValueStart (parser : HttpParser) (ch : Byte) : Step :=
  let parser := { parser with state := .headerValue, index := 0 }
  let c := lower ch
  .mark .headerValue <|
    match parser.headerState with
    | .upgrade => .next { parser with flags.upgrade := true, headerState := .general }
    | .transferEncoding => .next { parser with
        headerState := if c = char 'c' then .matchingTransferEncodingChunked else .general }
    | .contentLength =>
      if !isNum ch then fail parser .invalidContentLength
      else .next { parser with contentLength := digit ch }
    | .connection => .next { parser with
        headerState := if c = char 'k' then .matchingConnectionKeepAlive
          else if c = char 'c' then .matchingConnectionClose
          else if c = char 'u' then .matchingConnectionUpgrade
          else .matchingConnectionToken }
    | .matchingConnectionTokenStart => .next parser
    | _ => .next { parser with headerState := .general }

def headerValueDiscardWs (parser : HttpParser) (ch : Byte) : Step :=
  if ch = SP ∨ ch = HT then .next parser
  else if ch = CR then .next { parser with state := .headerValueDiscardWsAlmostDone }
  else if ch = LF then .next { parser with state := .headerValueDiscardLws }
  else headerValueStart parser ch

/-- How the loop over a header's value goes on: with the parser and the local `h_state`. -/
inductive Value where
  | next (parser : HttpParser) (h : HeaderState)
  | fail (parser : HttpParser) (e : HttpErrno)
  | abort

/-- The switch in that loop. -/
def headerValueChar (parser : HttpParser) (h : HeaderState) (ch : Byte) : Value :=
  let c := lower ch
  let counted := nextIndex parser
  match h with
  | .general => .next parser .general
  | .connection | .transferEncoding => .abort
  | .contentLength =>
    if ch = SP then .next parser h
    else if !isNum ch then .fail { parser with headerState := h } .invalidContentLength
    else
      let t := (parser.contentLength * 10 + digit ch) % 2 ^ 64
      if (ULLONG_MAX - 10) / 10 < parser.contentLength then
        .fail { parser with headerState := h } .invalidContentLength
      else .next { parser with contentLength := t } h
  | .matchingTransferEncodingChunked =>
    .next counted (matchName CHUNKED counted.index c .general h .transferEncodingChunked)
  | .matchingConnectionTokenStart =>
    .next parser (if c = char 'k' then .matchingConnectionKeepAlive
      else if c = char 'c' then .matchingConnectionClose
      else if c = char 'u' then .matchingConnectionUpgrade
      else if token c ≠ 0 then .matchingConnectionToken
      else if c = SP ∨ c = HT then h
      else .general)
  | .matchingConnectionKeepAlive =>
    .next counted
      (matchName KEEP_ALIVE counted.index c .matchingConnectionToken h .connectionKeepAlive)
  | .matchingConnectionClose =>
    .next counted (matchName CLOSE counted.index c .matchingConnectionToken h .connectionClose)
  | .matchingConnectionUpgrade =>
    .next counted (matchName UPGRADE counted.index c .matchingConnectionToken h .connectionUpgrade)
  | .matchingConnectionToken =>
    if ch = char ',' then .next { parser with index := 0 } .matchingConnectionTokenStart
    else .next parser h
  | .transferEncodingChunked => .next parser (if ch ≠ SP then .general else h)
  | .connectionKeepAlive | .connectionClose | .connectionUpgrade =>
    if ch = char ',' then
      .next { parser with index := 0, flags := endOfHeader parser.flags h }
        .matchingConnectionTokenStart
    else .next parser (if ch ≠ SP then .matchingConnectionToken else h)
  | _ => .next { parser with state := .headerValue } .general
where
  /-- The flag of a token of `Connection`, or of `Transfer-Encoding: chunked`. -/
  endOfHeader (flags : Flags) : HeaderState → Flags
    | .connectionKeepAlive => { flags with connectionKeepAlive := true }
    | .connectionClose => { flags with connectionClose := true }
    | .transferEncodingChunked => { flags with chunked := true }
    | .connectionUpgrade => { flags with connectionUpgrade := true }
    | _ => flags

def headerAlmostDone (parser : HttpParser) (ch : Byte) : Step :=
  expect parser ch LF .lfExpected .headerValueLws

/-- The flags at the end of a header. -/
def finishHeader (parser : HttpParser) : HttpParser :=
  { parser with flags := headerValueChar.endOfHeader parser.flags parser.headerState }

def headerValueLws (settings : Settings) (parser : HttpParser) (ch : Byte) : Step :=
  if ch = SP ∨ ch = HT then headerValueStart { parser with state := .headerValueStart } ch
  else headerFieldStart settings { finishHeader parser with state := .headerFieldStart } ch

def headerValueDiscardLws (settings : Settings) (parser : HttpParser) (ch : Byte) : Step :=
  if ch = SP ∨ ch = HT then .next { parser with state := .headerValueDiscardWs }
  else
    let parser := { finishHeader parser with state := .headerFieldStart }
    .mark .headerValue (.data .headerValue parser 0 (headerFieldStart settings parser ch))

def chunkSizeStart (parser : HttpParser) (ch : Byte) : Step :=
  assert (parser.nread = 1) <| assert parser.flags.chunked <|
    match unhex ch with
    | none => fail parser .invalidChunkSize
    | some v => .next { parser with contentLength := v, state := .chunkSize }

def chunkSize (parser : HttpParser) (ch : Byte) : Step :=
  assert parser.flags.chunked <|
    if ch = CR then .next { parser with state := .chunkSizeAlmostDone }
    else match unhex ch with
      | none =>
        if ch = char ';' ∨ ch = SP then .next { parser with state := .chunkParameters }
        else fail parser .invalidChunkSize
      | some v =>
        let t := (parser.contentLength * 16 + v) % 2 ^ 64
        if (ULLONG_MAX - 16) / 16 < parser.contentLength then fail parser .invalidContentLength
        else .next { parser with contentLength := t }

def chunkParameters (parser : HttpParser) (ch : Byte) : Step :=
  assert parser.flags.chunked <|
    if ch = CR then .next { parser with state := .chunkSizeAlmostDone } else .next parser

def chunkSizeAlmostDone (settings : Settings) (parser : HttpParser) (ch : Byte) : Step :=
  assert parser.flags.chunked <|
    if ch ≠ LF then fail parser .strict
    else
      let parser := { parser with nread := 0 }
      let parser :=
        if parser.contentLength = 0 then
          { parser with flags.trailing := true, state := .headerFieldStart }
        else { parser with state := .chunkData }
      notify settings .chunkHeader parser 1 (.next parser)

def chunkDataAlmostDone (parser : HttpParser) (ch : Byte) : Step :=
  assert parser.flags.chunked <| assert (parser.contentLength = 0) <|
    if ch ≠ CR then fail parser .strict else endText parser .body .chunkDataDone

def chunkDataDone (settings : Settings) (parser : HttpParser) (ch : Byte) : Step :=
  assert parser.flags.chunked <|
    if ch ≠ LF then fail parser .strict
    else
      let parser := { parser with nread := 0, state := .chunkSizeStart }
      notify settings .chunkComplete parser 1 (.next parser)

/-- The cases that look at the current character only. The states that the caller loops over
do not come here, and end as the code's `default`. -/
def switch (settings : Settings) (parser : HttpParser) (ch : Byte) : Step :=
  match parser.state with
  | .dead => dead parser ch
  | .startReqOrRes => startReqOrRes settings parser ch
  | .resOrRespH => resOrRespH parser ch
  | .startRes => startRes settings parser ch
  | .resH => expect parser ch (char 'T') .strict .resHT
  | .resHT => expect parser ch (char 'T') .strict .resHTT
  | .resHTT => expect parser ch (char 'P') .strict .resHTTP
  | .resHTTP => expect parser ch (char '/') .strict .resFirstHttpMajor
  | .resFirstHttpMajor => resFirstHttpMajor parser ch
  | .resHttpMajor => resHttpMajor parser ch
  | .resFirstHttpMinor => resFirstHttpMinor parser ch
  | .resHttpMinor => resHttpMinor parser ch
  | .resFirstStatusCode => resFirstStatusCode parser ch
  | .resStatusCode => resStatusCode parser ch
  | .resStatusStart => resStatusStart parser ch
  | .resStatus => resStatus parser ch
  | .resLineAlmostDone => expect parser ch LF .strict .headerFieldStart
  | .startReq => startReq settings parser ch
  | .reqMethod => reqMethod parser ch
  | .reqSpacesBeforeUrl => reqSpacesBeforeUrl parser ch
  | .reqSchema | .reqSchemaSlash | .reqSchemaSlashSlash | .reqServerStart => reqSchema parser ch
  | .reqServer | .reqServerWithAt | .reqPath | .reqQueryStringStart | .reqQueryString
  | .reqFragmentStart | .reqFragment => reqUrl parser ch
  | .reqHttpStart => reqHttpStart parser ch
  | .reqHttpH => expect parser ch (char 'T') .strict .reqHttpHT
  | .reqHttpHT => expect parser ch (char 'T') .strict .reqHttpHTT
  | .reqHttpHTT => expect parser ch (char 'P') .strict .reqHttpHTTP
  | .reqHttpHTTP => expect parser ch (char '/') .strict .reqFirstHttpMajor
  | .reqFirstHttpMajor => reqFirstHttpMajor parser ch
  | .reqHttpMajor => reqHttpMajor parser ch
  | .reqFirstHttpMinor => reqFirstHttpMinor parser ch
  | .reqHttpMinor => reqHttpMinor parser ch
  | .reqLineAlmostDone => expect parser ch LF .lfExpected .headerFieldStart
  | .headerFieldStart => headerFieldStart settings parser ch
  | .headerValueDiscardWs => headerValueDiscardWs parser ch
  | .headerValueStart => headerValueStart parser ch
  | .headerAlmostDone => headerAlmostDone parser ch
  | .headerValueLws => headerValueLws settings parser ch
  | .headerValueDiscardWsAlmostDone => expect parser ch LF .strict .headerValueDiscardLws
  | .headerValueDiscardLws => headerValueDiscardLws settings parser ch
  | .headersAlmostDone => headersAlmostDone settings parser ch
  | .headersDone => headersDone settings parser ch
  | .messageDone => messageDone settings parser
  | .chunkSizeStart => chunkSizeStart parser ch
  | .chunkSize => chunkSize parser ch
  | .chunkParameters => chunkParameters parser ch
  | .chunkSizeAlmostDone => chunkSizeAlmostDone settings parser ch
  | .chunkDataAlmostDone => chunkDataAlmostDone parser ch
  | .chunkDataDone => chunkDataDone settings parser ch
  | .headerField | .headerValue | .bodyIdentity | .bodyIdentityEof | .chunkData => .abort

end HttpParserSwitch
