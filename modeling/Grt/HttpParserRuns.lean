import Grt.HttpParserRefinement

/-! Executions on one buffer after the other, from `http_parser_init` on, agree with the machine
that reads one character at a time. -/
namespace HttpParserRuns

open LittleEndian HttpParserState HttpParserSwitch HttpParserSound PieceStream
open HttpParserExecute hiding headerField headerValue bodyIdentity chunkData perform
open HttpParserMachine hiding headerField headerValue bodyIdentity chunkData perform
open HttpParserMarks HttpParserInvariant HttpParserRefinement

/-- An execution that takes its whole buffer without an error, with the calls made so far. -/
def execute (settings : Settings) (s : HttpParser × List Event) (data : Str) :
    Except Exit (HttpParser × List Event) :=
  match httpParserExecute settings data s.1 with
  | .aborted => .error .aborted
  | .returned r =>
    if Consumes data r then .ok (r.parser, s.2 ++ r.events) else .error (.returned r)

def executeAll (settings : Settings) : HttpParser × List Event → List Str →
    Except Exit (HttpParser × List Event) :=
  SymbolMachine.run (execute settings)

/-- What the machine does with a buffer, of which an empty one is the end of the stream. -/
def read (settings : Settings) (s : Stream) (data : Str) : Except Refusal Stream :=
  if data = [] then
    HttpParserMachine.perform 0 (endOfStream settings s.parser) s.log >>= endBuffer
  else feed settings data s

def readAll (settings : Settings) : Stream → List Str → Except Refusal Stream :=
  SymbolMachine.run (read settings)

variable {settings : Settings} {data : Str} {log events : List Event} {parser : HttpParser}
  {b : Bool} {s : Stream}

/-- The machine accepts with this parser and these calls but for the cuts, or both refuse. -/
def AgreesOn (b : Bool) (x : Except Exit (HttpParser × List Event)) :
    Except Refusal Stream → Prop
  | .ok s => ∃ events, x = .ok (s.parser, events) ∧ Same events s.log ∧ s.progress = .fresh ∧
      Running b s
  | .error e => e = .refused ∧ ∃ r, x = .error (.returned r)

/-- Calls, and then a return. -/
def calls (notes : List Notify) (parser : HttpParser) (consumed : ℕ) : Step :=
  notes.foldr .call (.exit parser consumed)

theorem perform_calls (notes : List Notify) (consumed : ℕ) (l : Loop) :
    HttpParserExecute.perform settings data (calls notes parser consumed) l =
      .error (.returned ⟨parser, l.events ++ notes.map .notify, l.p + consumed⟩) := by
  induction notes generalizing l with
  | nil =>
    rw [List.map_nil, List.append_nil]
    rfl
  | cons n notes ih =>
    have hrest := ih { l with events := l.events ++ [.notify n] }
    rw [List.append_assoc] at hrest
    exact hrest

theorem read_calls (notes : List Notify) (consumed : ℕ) (log : List Event) :
    HttpParserMachine.perform 0 (calls notes parser consumed) log =
      if parser.httpErrno = .ok then .ok ⟨parser, .returned, log ++ notes.map .notify⟩
      else .error .refused := by
  induction notes generalizing log with
  | nil =>
    rw [List.map_nil, List.append_nil]
    rfl
  | cons n notes ih =>
    have hrest := ih (log ++ [.notify n])
    rw [List.append_assoc] at hrest
    exact hrest

theorem callback_ne (n : Notify) : HttpErrno.callback n ≠ .ok := by cases n <;> decide

theorem invalidEofState_ne : HttpErrno.invalidEofState ≠ .ok := by decide

/-- Where the stream may end, nothing is left open. -/
theorem endOfStream_cases (settings : Settings) (hok : parser.httpErrno = .ok) :
    (∃ notes, endOfStream settings parser = calls notes parser 0 ∧
        openElement parser.state = none) ∨
      ∃ notes q consumed, endOfStream settings parser = calls notes q consumed ∧
        q.httpErrno ≠ .ok := by
  unfold endOfStream
  cases hs : parser.state
  case bodyIdentityEof =>
    dsimp only
    rw [notify, assert, if_pos hok]
    split
    · exact .inl ⟨[], rfl, rfl⟩
    · exact .inl ⟨[.messageComplete], rfl, rfl⟩
    · exact .inr ⟨[.messageComplete], _, 0, rfl, callback_ne .messageComplete⟩
  case dead | startReqOrRes | startRes | startReq => exact .inl ⟨[], rfl, rfl⟩
  all_goals exact .inr ⟨[], _, 1, rfl, invalidEofState_ne⟩

theorem execute_returned {r : Result} (hr : httpParserExecute settings data parser = .returned r) :
    execute settings (parser, events) data =
      if Consumes data r then .ok (r.parser, events ++ r.events) else .error (.returned r) := by
  rw [execute, hr]

theorem endOfStream_agrees (hb : Running b (fresh parser log)) (hsame : Same events log) :
    AgreesOn b (execute settings (parser, events) []) (read settings (fresh parser log) []) := by
  have hok : parser.httpErrno = .ok := hb.sound.ok
  have hread : read settings (fresh parser log) [] =
      (HttpParserMachine.perform 0 (endOfStream settings parser) log >>= endBuffer) := rfl
  have hexecute {exit : Exit} (h : HttpParserExecute.perform settings []
      (endOfStream settings parser) (start parser) = .error exit) :
      httpParserExecute settings [] parser = exit := by
    have hloop : executeLoop settings [] parser = .error exit := h
    rw [httpParserExecute, if_neg (not_not.mpr hok), hloop]
  rcases endOfStream_cases settings hok with
    ⟨notes, heq, hopen⟩ | ⟨notes, q, consumed, heq, hbad⟩
  · rw [execute_returned (hexecute (heq ▸ perform_calls notes 0 _)), hread, heq, read_calls,
      if_pos hok]
    refine ⟨events ++ notes.map .notify, if_pos ⟨rfl, hok⟩, hsame.append (.refl _), rfl, ?_⟩
    exact .enter hb.sound (opened_none hopen)
  · rw [execute_returned (hexecute (heq ▸ perform_calls notes consumed _)), hread, heq,
      read_calls, if_neg hbad]
    exact ⟨rfl, _, if_neg fun h => hbad h.2⟩

/-- The buffers that the parser's counters can tell the length of. -/
def Fitting (data : Str) : Prop := data.length + HTTP_MAX_HEADER_SIZE < 2 ^ 32

instance (data : Str) : Decidable (Fitting data) := inferInstanceAs (Decidable (_ < _))

theorem execute_agrees (hs : DataOk settings) (hdata : Fitting data)
    (hb : Running b (fresh parser log)) (hsame : Same events log) :
    AgreesOn b (execute settings (parser, events) data)
      (read settings (fresh parser log) data) := by
  by_cases hnil : data = []
  · subst hnil
    exact endOfStream_agrees hb hsame
  have hsound : Sound b 0 parser := hb.sound
  have hopened : Opened parser.state log := hb.opened
  obtain ⟨r, hr, hmatch⟩ := httpParserExecute_feed hs hnil hdata hsound hopened
  have hruns : Runs b (feed settings data (fresh parser log)) := hb.feed data
  rw [execute_returned hr, read, if_neg hnil]
  cases hfeed : feed settings data (fresh parser log) with
  | ok s =>
    rw [hfeed] at hmatch hruns
    obtain ⟨hconsumes, hfresh, hevents, -⟩ := hmatch
    refine ⟨events ++ r.events, ?_, (hsame.append (.refl r.events)).trans hevents, ?_, hruns⟩
    · rw [if_pos hconsumes, hfresh]
      rfl
    · rw [hfresh]
      rfl
  | error e =>
    rw [hfeed] at hmatch hruns
    exact ⟨hruns, r, if_neg hmatch⟩

theorem executeAll_agrees (hs : DataOk settings) {buffers : List Str}
    (hbuffers : ∀ data ∈ buffers, Fitting data) (hb : Running b (fresh parser log))
    (hsame : Same events log) :
    AgreesOn b (executeAll settings (parser, events) buffers)
      (readAll settings (fresh parser log) buffers) := by
  induction buffers generalizing parser events log with
  | nil => exact ⟨events, rfl, hsame, rfl, hb⟩
  | cons data rest ih =>
    rw [List.forall_mem_cons] at hbuffers
    have hfirst := execute_agrees hs hbuffers.1 hb hsame
    rw [executeAll, readAll, SymbolMachine.run_cons, SymbolMachine.run_cons]
    cases hread : read settings (fresh parser log) data with
    | ok s =>
      rw [hread] at hfirst
      obtain ⟨events', hexecute, hsame', hfresh, hb'⟩ := hfirst
      have heta : s = fresh s.parser s.log := by rw [fresh, ← hfresh]
      rw [hexecute]
      rw [heta] at hb' ⊢
      exact ih hbuffers.2 hb' hsame'
    | error e =>
      rw [hread] at hfirst
      obtain ⟨he, r, hexecute⟩ := hfirst
      rw [hexecute]
      exact ⟨he, r, rfl⟩

theorem running_httpParserInit (t : HttpParserType) :
    Running false (fresh (httpParserInit t) []) :=
  .enter (sound_httpParserInit t) (opened_none (by cases t <;> rfl))

/-- What the machine does from `http_parser_init` on, the executions do. -/
theorem executeAll_of_readAll (hs : DataOk settings) (t : HttpParserType) {buffers : List Str}
    (hbuffers : ∀ data ∈ buffers, Fitting data)
    (h : readAll settings (fresh (httpParserInit t) []) buffers = .ok s) :
    ∃ events, executeAll settings (httpParserInit t, []) buffers = .ok (s.parser, events) ∧
      Same events s.log ∧ s.progress = .fresh ∧ Running false s := by
  have hagrees := executeAll_agrees hs hbuffers (running_httpParserInit t) (.refl [])
  rw [h] at hagrees
  exact hagrees

theorem readAll_of_executeAll (hs : DataOk settings) (t : HttpParserType) {buffers : List Str}
    (hbuffers : ∀ data ∈ buffers, Fitting data)
    (h : executeAll settings (httpParserInit t, []) buffers = .ok (parser, events)) :
    ∃ s, readAll settings (fresh (httpParserInit t) []) buffers = .ok s ∧ s.parser = parser ∧
      Same events s.log ∧ Running false s := by
  have hagrees := executeAll_agrees hs hbuffers (running_httpParserInit t) (.refl [])
  rw [h] at hagrees
  cases hread : readAll settings (fresh (httpParserInit t) []) buffers with
  | ok s =>
    rw [hread] at hagrees
    obtain ⟨events', heq, hsame, -, hrunning⟩ := hagrees
    cases heq
    exact ⟨s, rfl, rfl, hsame, hrunning⟩
  | error e =>
    rw [hread] at hagrees
    exact nomatch hagrees.2.choose_spec

/-- Executions of a new parser, one buffer after the other, never fail an assertion. They take all
the buffers exactly if the machine accepts all characters, and then leave the machine's parser and
have made the calls in its log, but for the places where texts are cut. -/
theorem executeAll_machine (hs : DataOk settings) (t : HttpParserType) (buffers : List Str)
    (hbuffers : ∀ data ∈ buffers, Fitting data) :
    match readAll settings (fresh (httpParserInit t) []) buffers with
    | .ok s => ∃ events,
        executeAll settings (httpParserInit t, []) buffers = .ok (s.parser, events) ∧
          Same events s.log
    | .error _ => ∃ r,
        executeAll settings (httpParserInit t, []) buffers = .error (.returned r) := by
  have hagrees := executeAll_agrees hs hbuffers (running_httpParserInit t) (.refl [])
  cases hread : readAll settings (fresh (httpParserInit t) []) buffers with
  | ok s =>
    rw [hread] at hagrees
    obtain ⟨events, hexecute, hsame, -⟩ := hagrees
    exact ⟨events, hexecute, hsame⟩
  | error e =>
    rw [hread] at hagrees
    exact hagrees.2

/-- Callbacks that are all there and succeed. -/
def willing : Settings := ⟨fun _ => some 0, fun _ => some 0⟩

theorem willing_ok : DataOk willing := fun _ => rfl

/-- A request that is cut in its URL and before its last line. -/
theorem executeAll_machine_cut : ∃ q events, executeAll willing (httpParserInit .request, [])
      [chars ['G', 'E', 'T', ' ', '/', 'a'], chars ['b', ' ', 'H', 'T', 'T', 'P', '/', '1', '.', '1'],
        [LF, LF]] = .ok (q, events) ∧
    Same events [.notify .messageBegin, .data .url (chars ['/', 'a', 'b']),
      .notify .headersComplete, .notify .messageComplete] := by
  obtain ⟨events, h, hsame⟩ := executeAll_machine willing_ok .request
    [chars ['G', 'E', 'T', ' ', '/', 'a'], chars ['b', ' ', 'H', 'T', 'T', 'P', '/', '1', '.', '1'],
        [LF, LF]] (by decide)
  exact ⟨_, events, h, hsame.trans (by decide)⟩

end HttpParserRuns
