import Grt.HttpParserBodies

/-! Request targets. The states that the parser goes through in a URL accept a path, or a schema
and a server with what follows it, and after `CONNECT` a server alone. -/
namespace HttpParserTargets

open LittleEndian HttpParserState HttpParserSwitch HttpParserSound PieceStream
open HttpParserExecute hiding headerField headerValue bodyIdentity chunkData perform
open HttpParserMachine HttpParserMarks HttpParserInvariant HttpParserRuns HttpParserNames
  HttpParserBodies
open HttpParserMethods (perform_fail)

variable {settings : Settings} {c : Byte} {url text : Str} {parser : HttpParser}
  {log : List Event} {s s' : Stream} {st : State}

/-- A character that is printed and not blank. -/
def isVisible (c : Byte) : Bool := 33 ≤ c && c ≤ 126

def isServerChar (c : Byte) : Bool :=
  isUserinfoChar c || c = char '[' || c = char ']' || c = char '@'

/-- A server, in which no two `@` meet, and what follows it from a `/` or `?` on. -/
def Server : Str → Prop
  | [] => True
  | c :: rest =>
    if c = char '/' ∨ c = char '?' then ∀ d ∈ rest, isVisible d
    else isServerChar c ∧ (c = char '@' → rest.head? ≠ some (char '@')) ∧ Server rest

def decideServer : (text : Str) → Decidable (Server text)
  | [] => isTrue trivial
  | c :: rest =>
    have := decideServer rest
    inferInstanceAs (Decidable (if c = char '/' ∨ c = char '?' then ∀ d ∈ rest, isVisible d
      else isServerChar c ∧ (c = char '@' → rest.head? ≠ some (char '@')) ∧ Server rest))

instance : DecidablePred Server := decideServer

def Path (text : Str) : Prop :=
  ∃ c rest, text = c :: rest ∧ (c = char '/' ∨ c = char '*') ∧ ∀ d ∈ rest, isVisible d

def Absolute (text : Str) : Prop :=
  ∃ schema server, text = schema ++ chars [':', '/', '/'] ++ server ∧ schema ≠ [] ∧
    (∀ c ∈ schema, isAlpha c) ∧ server ≠ [] ∧ Server server

def Target (m : HttpMethod) (text : Str) : Prop :=
  if m = .CONNECT then text ≠ [] ∧ Server text else Path text ∨ Absolute text

/-- The states in which a URL may end. -/
def isUrlEnd : State → Bool
  | .reqServer | .reqServerWithAt | .reqPath | .reqQueryStringStart | .reqQueryString
  | .reqFragmentStart | .reqFragment => true
  | _ => false

/-- The states from a path on. -/
def isPathState : State → Bool
  | .reqPath | .reqQueryStringStart | .reqQueryString | .reqFragmentStart | .reqFragment => true
  | _ => false

def urlState (st : State) (text : Str) : State := text.foldl parseUrlChar st

@[simp] theorem urlState_nil (st : State) : urlState st [] = st := rfl

@[simp] theorem urlState_cons (st : State) (c : Byte) (text : Str) :
    urlState st (c :: text) = urlState (parseUrlChar st c) text := rfl

theorem urlState_dead (text : Str) : urlState .dead text = .dead := by
  induction text with
  | nil => rfl
  | cons c text ih =>
    have hdead : parseUrlChar .dead c = .dead := by
      unfold parseUrlChar
      split <;> rfl
    rw [urlState_cons, hdead, ih]

theorem parseUrlChar_path (h : isPathState st) (c : Byte) :
    if isVisible c then isPathState (parseUrlChar st c) else parseUrlChar st c = .dead := by
  have hall : ∀ st ∈ [State.reqPath, .reqQueryStringStart, .reqQueryString, .reqFragmentStart,
      .reqFragment], ∀ c : Byte,
      if isVisible c then isPathState (parseUrlChar st c) else parseUrlChar st c = .dead := by
    decide +kernel
  refine hall st ?_ c
  cases st <;> first | decide | cases h

theorem accepts_path (h : isPathState st) (text : Str) :
    isUrlEnd (urlState st text) ↔ ∀ c ∈ text, isVisible c := by
  induction text generalizing st with
  | nil =>
    refine ⟨fun _ => List.forall_mem_nil _, fun _ => ?_⟩
    cases st <;> first | rfl | cases h
  | cons c text ih =>
    have hstep := parseUrlChar_path h c
    rw [urlState_cons, List.forall_mem_cons]
    by_cases hc : isVisible c
    · rw [if_pos hc] at hstep
      rw [ih hstep]
      exact ⟨fun h => ⟨hc, h⟩, And.right⟩
    · rw [if_neg hc] at hstep
      rw [hstep, urlState_dead]
      exact ⟨fun h => (by cases h), fun h => absurd h.1 hc⟩

/-- A character of a server, in the state after an `@` and in the others. -/
theorem parseUrlChar_server (st : State)
    (h : st = .reqServerStart ∨ st = .reqServer ∨ st = .reqServerWithAt) (c : Byte) :
    if c = char '/' ∨ c = char '?' then isPathState (parseUrlChar st c)
    else if isServerChar c ∧ (st = .reqServerWithAt → c ≠ char '@') then
      parseUrlChar st c = if c = char '@' then .reqServerWithAt else .reqServer
    else parseUrlChar st c = .dead := by
  have hall : ∀ st ∈ [State.reqServerStart, .reqServer, .reqServerWithAt], ∀ c : Byte,
      if c = char '/' ∨ c = char '?' then isPathState (parseUrlChar st c)
      else if isServerChar c ∧ (st = .reqServerWithAt → c ≠ char '@') then
        parseUrlChar st c = if c = char '@' then .reqServerWithAt else .reqServer
      else parseUrlChar st c = .dead := by decide +kernel
  exact hall st (by simpa using h) c

theorem accepts_server (st : State)
    (h : st = .reqServerStart ∨ st = .reqServer ∨ st = .reqServerWithAt) (text : Str) :
    isUrlEnd (urlState st text) ↔ (st = .reqServerStart → text ≠ []) ∧
      (st = .reqServerWithAt → text.head? ≠ some (char '@')) ∧ Server text := by
  induction text generalizing st with
  | nil => rcases h with rfl | rfl | rfl <;> decide
  | cons c text ih =>
    have hstep := parseUrlChar_server st h c
    rw [urlState_cons, Server]
    have hsome : c = char '@' ↔ (c :: text).head? = some (char '@') := Option.some_inj.symm
    by_cases hrest : c = char '/' ∨ c = char '?'
    · rw [if_pos hrest] at hstep ⊢
      rw [accepts_path hstep]
      refine ⟨fun hvisible => ⟨fun _ => List.cons_ne_nil _ _, ?_, hvisible⟩, fun h => h.2.2⟩
      rintro - hat
      rw [hsome.mpr hat] at hrest
      exact absurd hrest (by decide)
    rw [if_neg hrest] at hstep ⊢
    by_cases hserver : isServerChar c ∧ (st = .reqServerWithAt → c ≠ char '@')
    · rw [if_pos hserver] at hstep
      rw [hstep, ih _ (by split <;> simp)]
      constructor
      · rintro ⟨-, hat, htext⟩
        refine ⟨fun _ => List.cons_ne_nil _ _, fun h => fun h' => hserver.2 h (hsome.mpr h'),
          hserver.1, fun hc => ?_, htext⟩
        exact hat (if_pos hc)
      · rintro ⟨-, -, -, hat, htext⟩
        refine ⟨fun h => ?_, fun h => ?_, htext⟩
        · split at h <;> cases h
        · split at h
          · rename_i hc
            exact hat hc
          · cases h
    · rw [if_neg hserver] at hstep
      rw [hstep, urlState_dead]
      refine ⟨fun h => (by cases h), ?_⟩
      rintro ⟨-, hat, hchar, -, -⟩
      exact absurd ⟨hchar, fun h hc => hat h (hsome.mp hc)⟩ hserver

theorem parseUrlChar_schema (c : Byte) : parseUrlChar .reqSchema c =
    if isAlpha c then .reqSchema else if c = char ':' then .reqSchemaSlash else .dead := by
  have hall : ∀ c : Byte, parseUrlChar .reqSchema c =
      if isAlpha c then .reqSchema else if c = char ':' then .reqSchemaSlash else .dead := by
    decide +kernel
  exact hall c

theorem parseUrlChar_slash (c : Byte) :
    parseUrlChar .reqSchemaSlash c = if c = char '/' then .reqSchemaSlashSlash else .dead := by
  have hall : ∀ c : Byte, parseUrlChar .reqSchemaSlash c =
      if c = char '/' then .reqSchemaSlashSlash else .dead := by decide +kernel
  exact hall c

theorem parseUrlChar_slashSlash (c : Byte) :
    parseUrlChar .reqSchemaSlashSlash c = if c = char '/' then .reqServerStart else .dead := by
  have hall : ∀ c : Byte, parseUrlChar .reqSchemaSlashSlash c =
      if c = char '/' then .reqServerStart else .dead := by decide +kernel
  exact hall c

theorem accepts_slash (text : Str) : isUrlEnd (urlState .reqSchemaSlash text) ↔
    ∃ server, text = char '/' :: char '/' :: server ∧ server ≠ [] ∧ Server server := by
  cases text with
  | nil =>
    refine ⟨fun h => (by cases h), ?_⟩
    rintro ⟨server, h, -⟩
    cases h
  | cons c text =>
    rw [urlState_cons, parseUrlChar_slash]
    by_cases hc : c = char '/'
    swap
    · rw [if_neg hc, urlState_dead]
      refine ⟨fun h => (by cases h), ?_⟩
      rintro ⟨server, h, -⟩
      cases h
      exact absurd rfl hc
    subst hc
    rw [if_pos rfl]
    cases text with
    | nil =>
      refine ⟨fun h => (by cases h), ?_⟩
      rintro ⟨server, h, -⟩
      cases h
    | cons d text =>
      rw [urlState_cons, parseUrlChar_slashSlash]
      by_cases hd : d = char '/'
      swap
      · rw [if_neg hd, urlState_dead]
        refine ⟨fun h => (by cases h), ?_⟩
        rintro ⟨server, h, -⟩
        cases h
        exact absurd rfl hd
      subst hd
      rw [if_pos rfl, accepts_server _ (.inl rfl)]
      constructor
      · rintro ⟨hne, -, hserver⟩
        exact ⟨text, rfl, hne rfl, hserver⟩
      · rintro ⟨server, h, hne, hserver⟩
        cases h
        exact ⟨fun _ => hne, fun h => (by cases h), hserver⟩

theorem accepts_schema (text : Str) : isUrlEnd (urlState .reqSchema text) ↔
    ∃ schema server, text = schema ++ chars [':', '/', '/'] ++ server ∧
      (∀ c ∈ schema, isAlpha c) ∧ server ≠ [] ∧ Server server := by
  induction text with
  | nil =>
    refine ⟨fun h => (by cases h), ?_⟩
    rintro ⟨schema, server, h, -⟩
    exact absurd h.symm (by simp [chars])
  | cons c text ih =>
    rw [urlState_cons, parseUrlChar_schema]
    by_cases halpha : isAlpha c
    · rw [if_pos halpha, ih]
      constructor
      · rintro ⟨schema, server, rfl, hschema, hserver⟩
        exact ⟨c :: schema, server, rfl, List.forall_mem_cons.mpr ⟨halpha, hschema⟩, hserver⟩
      · rintro ⟨schema, server, h, hschema, hserver⟩
        cases schema with
        | nil =>
          cases h
          exact absurd halpha (by decide)
        | cons d schema =>
          cases h
          exact ⟨schema, server, rfl, (List.forall_mem_cons.mp hschema).2, hserver⟩
    rw [if_neg halpha]
    have hcolon {schema server : Str} (h : c :: text = schema ++ chars [':', '/', '/'] ++ server)
        (hschema : ∀ c ∈ schema, isAlpha c) :
        c = char ':' ∧ text = char '/' :: char '/' :: server := by
      cases schema with
      | nil =>
        cases h
        exact ⟨rfl, rfl⟩
      | cons d schema =>
        cases h
        exact absurd (hschema c (List.mem_cons_self ..)) halpha
    by_cases hc : c = char ':'
    · subst hc
      rw [if_pos rfl, accepts_slash]
      constructor
      · rintro ⟨server, rfl, hserver⟩
        exact ⟨[], server, rfl, List.forall_mem_nil _, hserver⟩
      · rintro ⟨schema, server, h, hschema, hserver⟩
        exact ⟨server, (hcolon h hschema).2, hserver⟩
    · rw [if_neg hc, urlState_dead]
      refine ⟨fun h => (by cases h), ?_⟩
      rintro ⟨schema, server, h, hschema, -⟩
      exact absurd (hcolon h hschema).1 hc

/-- The state in which the first character of a target is read. -/
def targetState (m : HttpMethod) : State :=
  if m = .CONNECT then .reqServerStart else .reqSpacesBeforeUrl

theorem parseUrlChar_first (c : Byte) : parseUrlChar .reqSpacesBeforeUrl c =
    if c = char '/' ∨ c = char '*' then .reqPath
    else if isAlpha c then .reqSchema else .dead := by
  have hall : ∀ c : Byte, parseUrlChar .reqSpacesBeforeUrl c =
      if c = char '/' ∨ c = char '*' then .reqPath
      else if isAlpha c then .reqSchema else .dead := by decide +kernel
  exact hall c

/-- The states accept the targets. -/
theorem accepts_target (m : HttpMethod) (text : Str) :
    isUrlEnd (urlState (targetState m) text) ↔ Target m text := by
  unfold targetState Target
  split
  · rw [accepts_server _ (.inl rfl)]
    exact ⟨fun h => ⟨h.1 rfl, h.2.2⟩, fun h => ⟨fun _ => h.1, fun h => (by cases h), h.2⟩⟩
  cases text with
  | nil =>
    refine ⟨fun h => (by cases h), ?_⟩
    rintro (⟨c, rest, h, -⟩ | ⟨schema, server, h, -⟩)
    · cases h
    · exact absurd h.symm (by simp [chars])
  | cons c text =>
    rw [urlState_cons, parseUrlChar_first]
    have hpath : Path (c :: text) ↔ (c = char '/' ∨ c = char '*') ∧ ∀ d ∈ text, isVisible d := by
      constructor
      · rintro ⟨d, rest, h, hpath⟩
        cases h
        exact hpath
      · exact fun h => ⟨c, text, rfl, h⟩
    have habsolute : Absolute (c :: text) ↔ isAlpha c ∧ isUrlEnd (urlState .reqSchema text) := by
      rw [accepts_schema]
      constructor
      · rintro ⟨schema, server, h, hne, hschema, hserver⟩
        cases schema with
        | nil => exact absurd rfl hne
        | cons d schema =>
          cases h
          rw [List.forall_mem_cons] at hschema
          exact ⟨hschema.1, schema, server, rfl, hschema.2, hserver⟩
      · rintro ⟨halpha, schema, server, rfl, hschema, hserver⟩
        exact ⟨c :: schema, server, rfl, List.cons_ne_nil _ _,
          List.forall_mem_cons.mpr ⟨halpha, hschema⟩, hserver⟩
    rw [hpath, habsolute]
    by_cases hfirst : c = char '/' ∨ c = char '*'
    · have halpha : ¬ isAlpha c := by
        rcases hfirst with rfl | rfl <;> decide
      rw [if_pos hfirst, accepts_path rfl]
      exact ⟨fun h => .inl ⟨hfirst, h⟩, fun h => h.elim And.right fun h => absurd h.1 halpha⟩
    rw [if_neg hfirst]
    by_cases halpha : isAlpha c
    · rw [if_pos halpha]
      exact ⟨fun h => .inr ⟨halpha, h⟩, fun h => h.elim (fun h => absurd h.1 hfirst) And.right⟩
    · rw [if_neg halpha, urlState_dead]
      exact ⟨fun h => (by cases h),
        fun h => h.elim (fun h => absurd h.1 hfirst) fun h => absurd h.1 halpha⟩

/-- What ends a target. -/
def isTargetEnd (c : Byte) : Prop := c = SP ∨ c = CR ∨ c = LF

instance (c : Byte) : Decidable (isTargetEnd c) := inferInstanceAs (Decidable (_ ∨ _))

theorem parseUrlChar_open (hst : openElement st = some .url ∨ st = .reqSpacesBeforeUrl)
    (c : Byte) : parseUrlChar st c = .dead ∨ openElement (parseUrlChar st c) = some .url := by
  have hall : ∀ st ∈ [State.reqSpacesBeforeUrl, .reqPath, .reqSchema, .reqSchemaSlash,
      .reqSchemaSlashSlash, .reqServerStart, .reqServer, .reqServerWithAt, .reqQueryStringStart,
      .reqQueryString, .reqFragmentStart, .reqFragment], ∀ c : Byte,
      parseUrlChar st c = .dead ∨ openElement (parseUrlChar st c) = some .url := by
    decide +kernel
  refine hall st ?_ c
  rcases hst with hst | rfl
  · cases st <;> first | decide | cases hst
  · decide

theorem open_ne_dead (hst : openElement st = some .url) : st ≠ .dead := by
  rintro rfl
  cases hst

theorem perform_urlChar (hst : openElement parser.state = some .url ∨
      parser.state = .reqSpacesBeforeUrl) (c : Byte) (log : List Event) :
    perform c (urlChar parser c) log =
      if parseUrlChar parser.state c = .dead then .error .refused
      else .ok ⟨{ parser with state := parseUrlChar parser.state c }, .fresh,
        log ++ [.data .url [c]]⟩ := by
  rw [urlChar]
  dsimp only
  rcases parseUrlChar_open hst c with hdead | hopen
  · rw [if_pos hdead, if_pos hdead, perform_fail (by decide)]
  · rw [if_neg (open_ne_dead hopen), if_neg (open_ne_dead hopen), perform, logged, hopen]

theorem switch_url (hst : openElement parser.state = some .url) (hc : ¬ isTargetEnd c) :
    switch settings parser c = urlChar parser c := by
  rw [isTargetEnd, not_or, not_or] at hc
  rw [switch]
  cases hs : parser.state
  case reqSchema | reqSchemaSlash | reqSchemaSlashSlash | reqServerStart =>
    dsimp only
    rw [reqSchema, if_neg (by rw [not_or, not_or]; exact hc)]
  case reqServer | reqServerWithAt | reqPath | reqQueryStringStart | reqQueryString
      | reqFragmentStart | reqFragment =>
    dsimp only
    rw [reqUrl, if_neg hc.1, if_neg hc.2.1, if_neg hc.2.2]
  all_goals
    rw [hs] at hst
    cases hst

theorem switch_targetEnd (hst : openElement parser.state = some .url) :
    switch settings parser SP = if isUrlEnd parser.state then endText parser .url .reqHttpStart
      else fail parser .invalidUrl := by
  rw [switch]
  cases hs : parser.state
  case reqSchema | reqSchemaSlash | reqSchemaSlashSlash | reqServerStart =>
    exact if_pos (.inl rfl)
  case reqServer | reqServerWithAt | reqPath | reqQueryStringStart | reqQueryString
      | reqFragmentStart | reqFragment => exact if_pos rfl
  all_goals
    rw [hs] at hst
    cases hst

theorem parsingHeader_open (hst : openElement st = some .url) :
    parsingHeader st ∧ isLoopState st = false := by
  cases st <;> first | exact ⟨rfl, rfl⟩ | cases hst

theorem step_url (settings : Settings) (parser : HttpParser)
    (hst : openElement parser.state = some .url) (hc : ¬ isTargetEnd c)
    (hn : parser.nread < HTTP_MAX_HEADER_SIZE) (log : List Event) :
    step settings ⟨parser, .fresh, log⟩ c =
      if parseUrlChar parser.state c = .dead then .error .refused
      else .ok ⟨{ parser with
        state := parseUrlChar parser.state c, nread := parser.nread + 1 }, .fresh,
          log ++ [.data .url [c]]⟩ := by
  obtain ⟨hheader, hloop⟩ := parsingHeader_open hst
  refine (step_switch fresh_ne_returned hheader hloop hn c).trans ?_
  have hst' : openElement ({ parser with nread := parser.nread + 1 } : HttpParser).state =
    some .url := hst
  rw [switch_url hst' hc]
  exact perform_urlChar (.inl hst') c log

theorem run_url (settings : Settings) (parser : HttpParser)
    (hst : openElement parser.state = some .url) (htext : ∀ c ∈ text, ¬ isTargetEnd c)
    (hn : parser.nread + text.length ≤ HTTP_MAX_HEADER_SIZE) (log : List Event) :
    SymbolMachine.run (step settings) ⟨parser, .fresh, log⟩ text =
      if urlState parser.state text = .dead then .error .refused
      else .ok ⟨{ parser with
        state := urlState parser.state text, nread := parser.nread + text.length }, .fresh,
          log ++ pieceLog .url text⟩ := by
  induction text generalizing parser log with
  | nil =>
    rw [urlState_nil, if_neg (open_ne_dead hst)]
    exact congrArg (fun log => Except.ok (Stream.mk _ .fresh log)) (List.append_nil log).symm
  | cons c text ih =>
    rw [List.forall_mem_cons] at htext
    rw [List.length_cons] at hn
    rw [SymbolMachine.run_cons, step_url settings parser hst htext.1 (by omega), urlState_cons]
    rcases parseUrlChar_open (.inl hst) c with hdead | hopen
    · rw [if_pos hdead, hdead, urlState_dead, if_pos rfl]
      rfl
    · rw [if_neg (open_ne_dead hopen), SymbolMachine.ok_bind]
      refine (ih { parser with
        state := parseUrlChar parser.state c, nread := parser.nread + 1 } hopen htext.2
          (by change parser.nread + 1 + _ ≤ _; omega) _).trans ?_
      rw [List.length_cons, Nat.add_assoc, Nat.add_comm 1, List.append_assoc]
      rfl

theorem urlState_open (hst : openElement st = some .url) (text : Str) :
    urlState st text = .dead ∨ openElement (urlState st text) = some .url := by
  induction text generalizing st with
  | nil => exact .inr hst
  | cons c text ih =>
    rw [urlState_cons]
    rcases parseUrlChar_open (.inl hst) c with hdead | hopen
    · rw [hdead]
      exact .inl (urlState_dead text)
    · exact ih hopen

theorem step_targetStart (settings : Settings) (parser : HttpParser) (hc : c ≠ SP)
    (hn : parser.nread < HTTP_MAX_HEADER_SIZE) (log : List Event) :
    step settings ⟨{ parser with state := .reqSpacesBeforeUrl }, .fresh, log⟩ c =
      if parseUrlChar (targetState parser.method) c = .dead then .error .refused
      else .ok ⟨{ parser with
        state := parseUrlChar (targetState parser.method) c, nread := parser.nread + 1 }, .fresh,
          log ++ textLog .url [c]⟩ := by
  refine (step_switch fresh_ne_returned rfl rfl hn c).trans ?_
  change perform c (reqSpacesBeforeUrl { parser with
    state := .reqSpacesBeforeUrl, nread := parser.nread + 1 } c) log = _
  rw [reqSpacesBeforeUrl, if_neg hc, perform, targetState]
  split
  · refine (perform_urlChar (.inl rfl) c _).trans ?_
    rw [List.append_assoc]
    rfl
  · refine (perform_urlChar (.inr rfl) c _).trans ?_
    rw [List.append_assoc]
    rfl

/-- The blank after a target. -/
theorem step_targetEnd (settings : Settings) (parser : HttpParser)
    (hst : openElement parser.state = some .url) (hn : parser.nread < HTTP_MAX_HEADER_SIZE)
    (log : List Event) : step settings ⟨parser, .fresh, log⟩ SP =
      if isUrlEnd parser.state then
        .ok ⟨{ parser with state := .reqHttpStart, nread := parser.nread + 1 }, .fresh, log⟩
      else .error .refused := by
  obtain ⟨hheader, hloop⟩ := parsingHeader_open hst
  refine (step_switch fresh_ne_returned hheader hloop hn SP).trans ?_
  have hst' : openElement ({ parser with nread := parser.nread + 1 } : HttpParser).state =
    some .url := hst
  rw [switch_targetEnd hst']
  split
  · exact congrArg (fun log => Except.ok (Stream.mk _ .fresh log)) (List.append_nil log)
  · rw [perform_fail (by decide)]

theorem run_target (settings : Settings) (parser : HttpParser) (hne : url ≠ [])
    (hurl : ∀ c ∈ url, ¬ isTargetEnd c)
    (hn : parser.nread + url.length < HTTP_MAX_HEADER_SIZE) (log : List Event) :
    SymbolMachine.run (step settings) ⟨{ parser with state := .reqSpacesBeforeUrl }, .fresh, log⟩
        (url ++ [SP]) =
      if isUrlEnd (urlState (targetState parser.method) url) then .ok ⟨{ parser with
        state := .reqHttpStart, nread := parser.nread + (url.length + 1) }, .fresh,
          log ++ textLog .url url⟩
      else .error .refused := by
  cases url with
  | nil => exact absurd rfl hne
  | cons c url =>
    rw [List.forall_mem_cons] at hurl
    rw [List.length_cons] at hn ⊢
    have hfirst : openElement (targetState parser.method) = some .url ∨
        targetState parser.method = .reqSpacesBeforeUrl := by
      unfold targetState
      split
      · exact .inl rfl
      · exact .inr rfl
    have hopen := parseUrlChar_open hfirst c
    rw [List.cons_append, SymbolMachine.run_cons, urlState_cons,
      step_targetStart settings parser (fun h => hurl.1 (.inl h)) (by omega)]
    rcases hopen with hdead | hopen
    · rw [if_pos hdead, hdead, urlState_dead]
      rfl
    have hrun := run_url settings { parser with
      state := parseUrlChar (targetState parser.method) c, nread := parser.nread + 1 } hopen hurl.2
        (by change parser.nread + 1 + _ ≤ _; omega) (log ++ textLog .url [c])
    rw [if_neg (open_ne_dead hopen), SymbolMachine.ok_bind, SymbolMachine.run_append, hrun]
    dsimp only
    rcases urlState_open hopen url with hdead | hopen'
    · rw [if_pos hdead, hdead]
      rfl
    rw [if_neg (open_ne_dead hopen'), SymbolMachine.ok_bind, SymbolMachine.run_cons]
    have hend := step_targetEnd settings { parser with
      state := urlState (parseUrlChar (targetState parser.method) c) url
      nread := parser.nread + 1 + url.length } hopen' (by change parser.nread + 1 + _ < _; omega)
        (log ++ textLog .url [c] ++ pieceLog .url url)
    rw [hend]
    have hlog : log ++ textLog .url [c] ++ pieceLog .url url = log ++ textLog .url (c :: url) := by
      rw [List.append_assoc]
      rfl
    dsimp only
    split
    · rw [hlog, Nat.add_assoc parser.nread, Nat.add_comm 1]
      rfl
    · rfl

/-- Between a method and a version, what is read up to the first blank is accepted exactly if it
is a target. -/
theorem target_iff (hfresh : s.progress = .fresh) (hstate : s.parser.state = .reqSpacesBeforeUrl)
    (hne : url ≠ []) (hurl : ∀ c ∈ url, ¬ isTargetEnd c)
    (hn : s.parser.nread + url.length < HTTP_MAX_HEADER_SIZE) :
    (∃ s', SymbolMachine.run (step settings) s (url ++ [SP]) = .ok s' ∧
        s'.log = s.log ++ textLog .url url) ↔ Target s.parser.method url := by
  have heta : s = ⟨{ s.parser with state := .reqSpacesBeforeUrl }, .fresh, s.log⟩ := by
    rw [← hstate, ← hfresh]
  have hrun := run_target settings s.parser hne hurl hn s.log
  rw [← heta] at hrun
  rw [hrun, ← accepts_target]
  split
  · rename_i h
    exact ⟨fun _ => h, fun _ => ⟨_, rfl, rfl⟩⟩
  · rename_i h
    refine ⟨?_, fun h' => absurd h' h⟩
    rintro ⟨s', h', -⟩
    cases h'

/-- A schema, a server with an `@`, a query and a fragment. -/
theorem target_iff_absolute : ∃ s', SymbolMachine.run (step willing)
      ⟨{ httpParserInit .request with state := .reqSpacesBeforeUrl, method := .GET }, .fresh, []⟩
      (chars ['h', 't', 't', 'p', ':', '/', '/', 'a', '@', 'b', '?', 'c', '#', 'd'] ++ [SP]) =
        .ok s' ∧
    s'.log = [] ++
      textLog .url (chars ['h', 't', 't', 'p', ':', '/', '/', 'a', '@', 'b', '?', 'c', '#', 'd']) :=
  (target_iff rfl rfl (by decide) (by decide) (by decide)).mpr <| .inr
    ⟨chars ['h', 't', 't', 'p'], chars ['a', '@', 'b', '?', 'c', '#', 'd'], rfl, by decide,
      by decide, by decide, by decide⟩

end HttpParserTargets
