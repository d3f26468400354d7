import Grt.HttpParserFragments
import Grt.HttpParserRequests

/-! Requests that are written one after the other and cut into buffers anywhere: the executions
take all of the buffers and hand over each request as it was written. -/
namespace HttpParserCuts

open LittleEndian HttpParserState HttpParserSwitch HttpParserSound PieceStream
open HttpParserExecute hiding headerField headerValue bodyIdentity chunkData perform
open HttpParserMachine HttpParserMarks HttpParserHeaderLoops HttpParserInvariant
open HttpParserRefinement HttpParserRuns HttpParserFragments
open HttpParserNames HttpParserLengths HttpParserBodies HttpParserTargets HttpParserRequests

variable {settings : Settings} {parser : HttpParser} {c : Byte} {data xs ys : Str}
  {s s' t t' : Stream} {b : Bool} {log : List Event}

theorem map_ok {f : Stream → Stream} {x : Except Refusal Stream} (h : x.map f = .ok s) :
    ∃ t, x = .ok t ∧ s = f t := by
  cases x with
  | error e => cases h
  | ok t =>
    cases h
    exact ⟨t, rfl, rfl⟩

/-- No case counts a character that was not counted before it. -/
theorem nread_react (parser : HttpParser) {skipping : Bool}
    (hchunk : parser.state = .chunkSizeStart → parser.nread = 1)
    (h : react settings parser skipping c log = .ok s) : s.parser.nread ≤ parser.nread := by
  have hlag : lag parser.nread parser = parser := by
    rw [lag, Nat.min_self]
  have hsame : react settings (lag parser.nread parser) skipping c log =
      (react settings parser skipping c log).map (Stream.lag parser.nread) :=
    lag_react rfl (fun hs => ⟨hchunk hs, (hchunk hs).ge⟩) log
  rw [hlag, h] at hsame
  obtain ⟨t, ht, hst⟩ := map_ok hsame.symm
  cases ht
  rw [hst]
  exact Nat.min_le_left ..

/-- Only the characters of headers are counted. -/
theorem nread_step (hs : Running b s) (h : step settings s c = .ok s') :
    s'.parser.nread ≤ s.parser.nread + if parsingHeader s.parser.state then 1 else 0 := by
  have hreturned : s.progress ≠ .returned := by
    intro hreturned
    rw [step, if_pos hreturned] at h
    cases h
  cases hheader : parsingHeader s.parser.state with
  | true =>
    rw [step_header c hreturned hheader] at h
    split at h
    · cases h
    · exact nread_react { s.parser with nread := s.parser.nread + 1 }
        (fun hchunk => congrArg (· + 1) (hs.sound.chunk hchunk)) h
  | false =>
    rw [step_body c hreturned hheader] at h
    refine nread_react s.parser ?_ h
    intro hchunk
    rw [hchunk] at hheader
    cases hheader

theorem perform_place {step : Step} (h : perform c step log = .ok s) :
    s.progress = .fresh ∨ s.progress = .returned := by
  induction step generalizing log with
  | next parser =>
    cases h
    exact .inl rfl
  | exit parser consumed =>
    rw [perform] at h
    split at h
    · cases h
      exact .inr rfl
    · cases h
  | abort => cases h
  | mark e rest ih => exact ih h
  | data e parser consumed rest ih => exact ih h
  | call n rest ih => exact ih h

/-- A body is not read in the loops over a header. -/
theorem react_place {skipping : Bool} (hbody : parsingHeader parser.state = false)
    (h : react settings parser skipping c log = .ok s) :
    s.progress = .fresh ∨ s.progress = .returned := by
  by_cases hloop : isLoopState parser.state = false
  · rw [react_switch hloop] at h
    exact perform_place h
  cases hs : parser.state
  case bodyIdentity =>
    rw [react_bodyIdentity hs, HttpParserMachine.bodyIdentity] at h
    split at h
    · cases h
    · dsimp only at h
      split at h
      · exact perform_place h
      · cases h
        exact .inl rfl
  case bodyIdentityEof =>
    rw [react_bodyIdentityEof hs] at h
    cases h
    exact .inl rfl
  case chunkData =>
    rw [react_chunkData hs, HttpParserMachine.chunkData] at h
    split at h
    · cases h
    · cases h
      exact .inl rfl
  case headerField | headerValue =>
    rw [hs] at hbody
    cases hbody
  all_goals
    rw [hs] at hloop
    exact absurd rfl hloop

/-- The run `t` has been cut more often than `s`, but not twice after one character. -/
structure Ahead (t s : Stream) : Prop where
  behind : Behind t s
  nread : t.parser.nread ≤ 2 * s.parser.nread + 1
  inLoop : t.progress = .looping ∨ t.progress = .skipping →
    t.parser.nread ≤ 2 * s.parser.nread

theorem ahead_self (h : s.progress = .fresh) : Ahead s s where
  behind := behind_self s
  nread := by omega
  inLoop hloop := absurd hloop (not_inLoop (.inl h))

theorem Ahead.step (h : Ahead t s) (ht : Running b t)
    (hstep : HttpParserMachine.step settings s c = .ok s')
    (hroom : 2 * s.parser.nread + 2 ≤ HTTP_MAX_HEADER_SIZE)
    (hchar : s.parser.state = .headerValue → isHeaderChar c) :
    ∃ t', HttpParserMachine.step settings t c = .ok t' ∧ Ahead t' s' ∧
      t'.progress = s'.progress := by
  obtain ⟨n, hparser⟩ := h.behind.parser
  have hstate : s.parser.state = t.parser.state := by rw [hparser]; rfl
  have hreturned : s.progress ≠ .returned := by
    intro hreturned
    rw [HttpParserMachine.step, if_pos hreturned] at hstep
    cases hstep
  have hreturned' : t.progress ≠ .returned := by
    rcases h.behind.progress with heq | ⟨hfresh, -⟩
    · exact heq ▸ hreturned
    · rw [hfresh]
      decide
  have hnread : s.parser.nread = min n t.parser.nread := by rw [hparser]; rfl
  have hahead := h.nread
  have hskip : refuses t.parser (s.progress = .skipping) c =
      refuses t.parser (t.progress = .skipping) c ∨ t.parser.state ≠ .headerValue := by
    by_cases hvalue : t.parser.state = .headerValue
    · left
      rw [refuses, refuses, hchar (hstate.trans hvalue)]
      simp
    · exact .inr hvalue
  -- The two runs do the same with a parser whose counter differs.
  have hsame (m : ℕ) (p : HttpParser) (hp : p.state = t.parser.state)
      (hlenient : p.lenientHttpHeaders = t.parser.lenientHttpHeaders)
      (hchunk : p.state = .chunkSizeStart → p.nread = 1 ∧ 1 ≤ m) :
      react settings (lag m p) (s.progress = .skipping) c t.log =
        (react settings p (t.progress = .skipping) c t.log).map (Stream.lag m) := by
    rcases hskip with hskip | hvalue
    · refine lag_react ?_ hchunk t.log
      unfold refuses at hskip ⊢
      rw [hlenient]
      exact hskip
    · have hvalue' : p.state ≠ .headerValue := fun h => hvalue (hp.symm.trans h)
      rw [react_skipping hvalue' (t.progress = .skipping) (s.progress = .skipping)]
      exact lag_react rfl hchunk t.log
  cases hheader : parsingHeader s.parser.state with
  | true =>
    have hover : ¬ HTTP_MAX_HEADER_SIZE < s.parser.nread + 1 := by omega
    have hover' : ¬ HTTP_MAX_HEADER_SIZE < t.parser.nread + 1 := by omega
    rw [step_header c hreturned hheader, if_neg hover, h.behind.log, hparser] at hstep
    have hcount : ({ lag n t.parser with nread := (lag n t.parser).nread + 1 } : HttpParser) =
        lag (n + 1) { t.parser with nread := t.parser.nread + 1 } := by
      change ({ t.parser with nread := min n t.parser.nread + 1 } : HttpParser) =
        { t.parser with nread := min (n + 1) (t.parser.nread + 1) }
      rw [Nat.succ_min_succ]
    rw [hcount, hsame (n + 1) { t.parser with nread := t.parser.nread + 1 } rfl rfl
      (fun hchunk => ⟨congrArg (· + 1) (ht.sound.chunk hchunk), Nat.le_add_left ..⟩)] at hstep
    obtain ⟨t', ht', rfl⟩ := map_ok hstep
    have hmore := nread_react { t.parser with nread := t.parser.nread + 1 }
      (fun hchunk => congrArg (· + 1) (ht.sound.chunk hchunk)) ht'
    change t'.parser.nread ≤ t.parser.nread + 1 at hmore
    have hbound : t'.parser.nread ≤ 2 * min (n + 1) t'.parser.nread := by omega
    refine ⟨t', ?_, ⟨behind_lag _ _, hbound.trans (Nat.le_succ _), fun _ => hbound⟩, rfl⟩
    rw [step_header c hreturned' (hstate ▸ hheader), if_neg hover', ht']
  | false =>
    have hbody : parsingHeader t.parser.state = false := hstate ▸ hheader
    have hno (hchunk : t.parser.state = .chunkSizeStart) : False := by
      rw [hchunk] at hbody
      cases hbody
    rw [step_body c hreturned hheader, h.behind.log, hparser,
      hsame n t.parser rfl rfl fun hchunk => (hno hchunk).elim] at hstep
    obtain ⟨t', ht', rfl⟩ := map_ok hstep
    have hmore := nread_react t.parser (fun hchunk => (hno hchunk).elim) ht'
    have hbound : t'.parser.nread ≤ 2 * min n t'.parser.nread + 1 := by omega
    refine ⟨t', ?_, ⟨behind_lag _ _, hbound, fun hloop =>
      absurd hloop (not_inLoop (react_place hbody ht'))⟩, rfl⟩
    rw [step_body c hreturned' hbody, ht']

/-- In every place of a run there is room for as many header bytes again, and a value has no
character that is only accepted because it is skipped. -/
def Roomy (settings : Settings) (s : Stream) (data : Str) : Prop :=
  ∀ xs ys t, data = xs ++ ys → SymbolMachine.run (HttpParserMachine.step settings) s xs = .ok t →
    2 * t.parser.nread + 2 ≤ HTTP_MAX_HEADER_SIZE ∧
      (t.parser.state = .headerValue → ∀ c, ys.head? = some c → isHeaderChar c)

theorem Roomy.start (h : Roomy settings s data) :
    2 * s.parser.nread + 2 ≤ HTTP_MAX_HEADER_SIZE :=
  (h [] data s rfl rfl).1

theorem Roomy.after (h : Roomy settings s (xs ++ ys))
    (hrun : SymbolMachine.run (HttpParserMachine.step settings) s xs = .ok t) :
    Roomy settings t ys := by
  intro vs ws u hsplit hu
  refine h (xs ++ vs) ws u (by rw [hsplit, List.append_assoc]) ?_
  exact SymbolMachine.run_append_ok.mpr ⟨t, hrun, hu⟩

theorem Ahead.run (h : Ahead t s) (ht : Running b t) (hroom : Roomy settings s (xs ++ ys))
    (hne : xs ≠ []) (hrun : SymbolMachine.run (HttpParserMachine.step settings) s xs = .ok s') :
    ∃ t', SymbolMachine.run (HttpParserMachine.step settings) t xs = .ok t' ∧ Ahead t' s' ∧
      t'.progress = s'.progress := by
  induction xs generalizing s t with
  | nil => exact absurd rfl hne
  | cons c xs ih =>
    obtain ⟨u, hu, hrun⟩ := SymbolMachine.run_cons_ok.mp hrun
    have hchar := (hroom [] (c :: xs ++ ys) s rfl rfl).2
    obtain ⟨v, hv, hahead, hprogress⟩ :=
      h.step ht hu hroom.start fun hs => hchar hs c rfl
    have hrunning : Runs b (HttpParserMachine.step settings t c) := ht.step c
    rw [hv] at hrunning
    cases xs with
    | nil =>
      cases hrun
      exact ⟨v, SymbolMachine.run_cons_ok.mpr ⟨v, hv, rfl⟩, hahead, hprogress⟩
    | cons d xs =>
      have hfirst : Roomy settings s ([c] ++ (d :: xs ++ ys)) := hroom
      have hrest := hfirst.after (SymbolMachine.run_cons_ok.mpr ⟨u, hu, rfl⟩)
      obtain ⟨w, hw, hlast⟩ := ih hahead hrunning hrest (List.cons_ne_nil d xs) hrun
      exact ⟨w, SymbolMachine.run_cons_ok.mpr ⟨v, hv, hw⟩, hlast⟩

/-- The end of a buffer puts a run further ahead. -/
theorem Ahead.cut (h : Ahead t s) (hprogress : t.progress = s.progress)
    (hreturned : s.progress ≠ .returned)
    (hroom : 2 * s.parser.nread + 2 ≤ HTTP_MAX_HEADER_SIZE) :
    ∃ t', endBuffer t = .ok t' ∧ Ahead t' s := by
  obtain ⟨n, hparser⟩ := h.behind.parser
  have hs : s = Stream.lag n t := by
    rw [Stream.lag, ← hparser, ← h.behind.log, hprogress]
  have hend : ∃ t', endBuffer t = .ok t' ∧ t'.progress = .fresh ∧
      t'.parser.nread ≤ 2 * s.parser.nread + 1 := by
    by_cases hloop : t.progress = .looping ∨ t.progress = .skipping
    · have hahead := h.inLoop hloop
      have hover : ¬ HTTP_MAX_HEADER_SIZE < t.parser.nread + 1 := by omega
      refine ⟨⟨{ t.parser with nread := t.parser.nread + 1 }, .fresh, t.log⟩, ?_, rfl,
        Nat.succ_le_succ hahead⟩
      rw [endBuffer_counts hloop, countByte, if_neg hover]
      rfl
    · refine ⟨⟨t.parser, .fresh, t.log⟩, ?_, rfl, h.nread⟩
      rw [endBuffer]
      cases hp : t.progress with
      | looping => exact absurd (.inl hp) hloop
      | skipping => exact absurd (.inr hp) hloop
      | fresh => rfl
      | returned => rfl
  obtain ⟨t', ht', hfresh, hmore⟩ := hend
  refine ⟨t', ht', ?_, hmore, fun hloop => absurd hloop (not_inLoop (.inl hfresh))⟩
  rw [hs]
  exact behind_endBuffer n (hprogress ▸ hreturned) ht'

/-- What is accepted in one piece is accepted however it is cut, if there is room for the cuts. -/
theorem Ahead.readAll {pieces : List Str} (h : Ahead t s) (ht : Running b t)
    (hdata : ∀ data ∈ pieces, data ≠ []) (hroom : Roomy settings s pieces.flatten)
    (hrun : SymbolMachine.run (HttpParserMachine.step settings) s pieces.flatten = .ok s')
    (hreturned : s'.progress ≠ .returned) :
    ∃ t', HttpParserRuns.readAll settings t pieces = .ok t' ∧ Ahead t' s' := by
  induction pieces generalizing s t with
  | nil =>
    cases hrun
    exact ⟨t, rfl, h⟩
  | cons data rest ih =>
    rw [List.forall_mem_cons] at hdata
    rw [List.flatten_cons] at hroom hrun
    obtain ⟨u, hu, hrest⟩ := SymbolMachine.run_append_ok.mp hrun
    obtain ⟨v, hv, hahead, hprogress⟩ := h.run ht hroom hdata.1 hu
    have hroom' := hroom.after hu
    have hu' : u.progress ≠ .returned := by
      intro hreturned'
      cases hflat : rest.flatten with
      | nil =>
        rw [hflat] at hrest
        cases hrest
        exact hreturned hreturned'
      | cons c tail =>
        rw [hflat] at hrest
        obtain ⟨w, hw, -⟩ := SymbolMachine.run_cons_ok.mp hrest
        rw [HttpParserMachine.step, if_pos hreturned'] at hw
        cases hw
    obtain ⟨w, hw, hcut⟩ := hahead.cut hprogress hu' hroom'.start
    have hfeed : HttpParserMachine.feed settings data t = .ok w :=
      SymbolMachine.bind_eq_ok.mpr ⟨v, hv, hw⟩
    have hrunning : Runs b (HttpParserMachine.feed settings data t) := ht.feed data
    rw [hfeed] at hrunning
    obtain ⟨t', ht', hlast⟩ := ih hcut hrunning hdata.2 hroom' hrest
    exact ⟨t', SymbolMachine.run_cons_ok.mpr ⟨w, (if_neg hdata.1).trans hfeed, ht'⟩, hlast⟩

theorem Roomy.append (h : Roomy settings s xs)
    (hrun : SymbolMachine.run (HttpParserMachine.step settings) s xs = .ok t)
    (h' : Roomy settings t ys) : Roomy settings s (xs ++ ys) := by
  intro vs ws u hsplit hu
  rcases List.append_eq_append_iff.mp hsplit with ⟨mid, rfl, rfl⟩ | ⟨mid, rfl, rfl⟩
  · obtain ⟨v, hv, hu⟩ := SymbolMachine.run_append_ok.mp hu
    rw [hrun] at hv
    cases hv
    exact h' mid ws u rfl hu
  · cases mid with
    | nil =>
      rw [List.append_nil] at hrun
      rw [hrun] at hu
      cases hu
      exact h' [] ys _ rfl rfl
    | cons c mid => exact h vs (c :: mid) u rfl hu

theorem nread_run (hs : Running b s)
    (hrun : SymbolMachine.run (step settings) s xs = .ok t) :
    t.parser.nread ≤ s.parser.nread + xs.length := by
  induction xs generalizing s with
  | nil =>
    cases hrun
    exact le_rfl
  | cons c xs ih =>
    obtain ⟨u, hu, hrun⟩ := SymbolMachine.run_cons_ok.mp hrun
    have hrunning : Runs b (step settings s c) := hs.step c
    rw [hu] at hrunning
    have hfirst := nread_step hs hu
    have hrest := ih hrunning hrun
    rw [List.length_cons]
    split at hfirst <;> omega

/-- A text that is printed, but for the ends of lines. -/
def HeaderChars (text : Str) : Prop := ∀ c ∈ text, isHeaderChar c

instance (text : Str) : Decidable (HeaderChars text) :=
  inferInstanceAs (Decidable (∀ c ∈ text, isHeaderChar c))

theorem HeaderChars.append (h : HeaderChars xs) (h' : HeaderChars ys) : HeaderChars (xs ++ ys) :=
  List.forall_mem_append.mpr ⟨h, h'⟩

theorem roomy_of_length (hs : Running b s) (hdata : HeaderChars data)
    (hroom : 2 * (s.parser.nread + data.length) + 2 ≤ HTTP_MAX_HEADER_SIZE) :
    Roomy settings s data := by
  rintro xs ys t rfl hrun
  have hcount := nread_run hs hrun
  rw [List.length_append] at hroom
  refine ⟨by omega, fun _ c hc => hdata c ?_⟩
  exact List.mem_append_right _ (List.mem_of_mem_head? hc)

/-- A body is not counted. -/
theorem roomy_counting (settings : Settings) (hcounting : Counting parser)
    (hs : Running b ⟨parser, .fresh, log⟩) (hlength : parser.contentLength = data.length)
    (hmax : data.length < ULLONG_MAX)
    (hroom : 2 * parser.nread + 2 ≤ HTTP_MAX_HEADER_SIZE) :
    Roomy settings ⟨parser, .fresh, log⟩ data := by
  have hshort (xs : Str) (hxs : xs.length < data.length) :=
    run_counting settings hcounting xs (by omega) (by omega) log
  have hbody := hcounting.body
  rintro xs ys t rfl hrun
  by_cases hys : ys = []
  · subst hys
    refine ⟨?_, fun _ c hc => (by cases hc)⟩
    rcases List.eq_nil_or_concat xs with rfl | ⟨init, c, rfl⟩
    · cases hrun
      exact hroom
    · rw [List.concat_eq_append] at hrun hshort
      obtain ⟨u, hu, hrun⟩ := SymbolMachine.run_append_ok.mp hrun
      obtain ⟨v, hv, hrun⟩ := SymbolMachine.run_cons_ok.mp hrun
      cases hrun
      have hrunning : Runs b (SymbolMachine.run (step settings) _ init) := hs.run init
      rw [hu] at hrunning
      have hmid := hshort init (by simp)
      rw [hu] at hmid
      cases hmid
      have hlast := nread_step hrunning hv
      have hbody' : ¬ parsingHeader parser.state := by rw [hbody]; decide
      rw [if_neg (by exact hbody')] at hlast
      exact (Nat.add_le_add_right (Nat.mul_le_mul_left 2 hlast) 2).trans hroom
  · have hpos := List.length_pos_iff.mpr hys
    have hmid := hshort xs (by rw [List.length_append]; omega)
    rw [hrun] at hmid
    cases hmid
    refine ⟨hroom, fun hvalue => ?_⟩
    have hvalue' : parser.state = .headerValue := hvalue
    rw [hvalue'] at hbody
    cases hbody

theorem header_of_token (hc : token c ≠ 0) : isHeaderChar c := by
  have hall : ∀ c : Byte, token c ≠ 0 → isHeaderChar c := by decide +kernel
  exact hall c hc

theorem header_of_url (hc : isVisible c ∨ isServerChar c ∨ isAlpha c) : isHeaderChar c := by
  have hall : ∀ c : Byte, isVisible c ∨ isServerChar c ∨ isAlpha c → isHeaderChar c := by
    decide +kernel
  exact hall c hc

theorem headerChars_server (h : Server data) : HeaderChars data := by
  induction data with
  | nil => exact List.forall_mem_nil _
  | cons c rest ih =>
    rw [Server] at h
    refine List.forall_mem_cons.mpr ?_
    split at h
    · rename_i hc
      refine ⟨?_, fun d hd => header_of_url (.inl (h d hd))⟩
      rcases hc with rfl | rfl <;> decide
    · exact ⟨header_of_url (.inr (.inl h.1)), ih h.2.2⟩

theorem headerChars_target {m : HttpMethod} (h : Target m data) : HeaderChars data := by
  rw [Target] at h
  split at h
  · exact headerChars_server h.2
  · rcases h with ⟨c, rest, rfl, hc, hrest⟩ | ⟨schema, server, rfl, -, hschema, -, hserver⟩
    · refine List.forall_mem_cons.mpr ⟨?_, fun d hd => header_of_url (.inl (hrest d hd))⟩
      rcases hc with rfl | rfl <;> decide
    · have hfirst : HeaderChars schema := fun c hc => header_of_url (.inr (.inr (hschema c hc)))
      exact (hfirst.append (by decide)).append (headerChars_server hserver)

theorem headerChars_method (m : HttpMethod) : HeaderChars (methodString m) := by
  cases m <;> decide

theorem headerChars_sizeText (n : ℕ) : HeaderChars (sizeText n) := by
  have hall : ∀ d < 16, isHeaderChar (hexDigit d) := by decide
  intro c hc
  obtain ⟨d, hd, rfl⟩ := List.mem_map.mp hc
  exact hall d (DigitReader.digits_lt (by decide) n d hd)

theorem headerChars_lengthText (n : ℕ) : HeaderChars (lengthText n) := by
  have hall : ∀ d < 10, isHeaderChar (decDigit d) := by decide
  intro c hc
  obtain ⟨d, hd, rfl⟩ := List.mem_map.mp hc
  exact hall d (DigitReader.digits_lt (by decide) n d hd)

theorem headerChars_line {name value : Str} (hname : HeaderChars name)
    (hvalue : HeaderChars value) : HeaderChars (headerLine name value) :=
  ((hname.append (by decide)).append hvalue).append (by decide)

theorem headerChars_head (r : Request) : HeaderChars r.head := by
  have hline : HeaderChars r.line :=
    (((headerChars_method r.method).append (by decide)).append
      ((headerChars_target r.target_ok).append (by decide))).append (by decide)
  have hheaders : HeaderChars (linesText r.headers) := by
    intro c hc
    obtain ⟨h, -, hc⟩ := List.mem_flatMap.mp hc
    exact headerChars_line (fun c hc => header_of_token (h.name_token c hc))
      (fun c hc => (h.chars c hc).1) c hc
  have hbody : HeaderChars r.body.line := by
    cases r.body with
    | none => exact List.forall_mem_nil _
    | length data => exact headerChars_line (by decide) (headerChars_lengthText _)
    | chunks pieces hne => exact headerChars_line (by decide) (by decide)
  exact ((hline.append hheaders).append hbody).append (by decide)

theorem running_run (hs : Running b s) (hrun : SymbolMachine.run (step settings) s xs = .ok t) :
    Running b t := by
  have hrunning : Runs b (SymbolMachine.run (step settings) s xs) := hs.run xs
  rwa [hrun] at hrunning

/-- A chunk is read where there is room for the line of its size. -/
theorem roomy_chunk (hw : Willing settings) (hok : parser.httpErrno = .ok)
    (hchunked : parser.flags.chunked) (hne : data ≠ []) (hsize : data.length < 2 ^ 32)
    (hs : Running b ⟨{ parser with state := .chunkSizeStart, nread := 0 }, .fresh, log⟩) :
    Roomy settings ⟨{ parser with state := .chunkSizeStart, nread := 0 }, .fresh, log⟩
      (chunkText data) := by
  have hpos : data.length ≠ 0 := fun h => hne (List.length_eq_zero_iff.mp h)
  have hlimit : SIZE_LIMIT = 1152921504606846974 := by decide
  have hullong : ULLONG_MAX = 18446744073709551615 := by decide
  have hmax : HTTP_MAX_HEADER_SIZE = 81920 := rfl
  have hdigits := length_sizeText hsize
  have hline := run_chunkLine hw parser hok hchunked hpos (by omega) (by omega) log
  have hs' := running_run hs hline
  have hdata := run_chunkData settings { parser with contentLength := data.length, nread := 0 }
    hchunked rfl hne (by omega) (log ++ [.notify .chunkHeader])
  have hs'' := running_run hs' hdata
  have hfirst : Roomy settings ⟨{ parser with state := .chunkSizeStart, nread := 0 }, .fresh, log⟩
      (sizeText data.length ++ [CR, LF]) := by
    refine roomy_of_length hs ((headerChars_sizeText _).append (by decide)) ?_
    rw [List.length_append]
    change 2 * (0 + (_ + 2)) + 2 ≤ _
    omega
  have hcounting : Counting { parser with
    state := .chunkData, nread := 0, contentLength := data.length } := .inr ⟨rfl, hchunked⟩
  have hmid : Roomy settings _ data := roomy_counting settings hcounting hs' rfl (by omega)
    (by decide : 2 * 0 + 2 ≤ HTTP_MAX_HEADER_SIZE)
  have hlast : Roomy settings _ [CR, LF] :=
    roomy_of_length hs'' (by decide) (by decide : 2 * (0 + 2) + 2 ≤ HTTP_MAX_HEADER_SIZE)
  exact (hfirst.append hline hmid).append (SymbolMachine.run_append_ok.mpr ⟨_, hline, hdata⟩) hlast

theorem roomy_chunks (hw : Willing settings) (parser : HttpParser)
    (hok : parser.httpErrno = .ok) (hchunked : parser.flags.chunked) {chunks : List Str}
    (hchunks : ∀ data ∈ chunks, data ≠ [] ∧ data.length < 2 ^ 32)
    (hs : Running b ⟨{ parser with state := .chunkSizeStart, nread := 0 }, .fresh, log⟩) :
    Roomy settings ⟨{ parser with state := .chunkSizeStart, nread := 0 }, .fresh, log⟩
      (chunksText chunks) := by
  rw [chunksText]
  induction chunks generalizing parser log with
  | nil =>
    exact roomy_of_length hs (by decide)
      (by decide : 2 * (0 + (chunkText []).length) + 2 ≤ HTTP_MAX_HEADER_SIZE)
  | cons data chunks ih =>
    rw [List.forall_mem_cons] at hchunks
    obtain ⟨⟨hne, hsize⟩, hchunks⟩ := hchunks
    have hlimit : SIZE_LIMIT = 1152921504606846974 := by decide
    have hmax : HTTP_MAX_HEADER_SIZE = 81920 := rfl
    have hdigits := length_sizeText hsize
    have hfirst := run_chunk hw parser hok hchunked hne (by omega) (by omega) log
    rw [List.flatMap_cons, List.append_assoc]
    refine (roomy_chunk hw hok hchunked hne hsize hs).append hfirst ?_
    exact ih { parser with contentLength := 0 } hok hchunked hchunks (running_run hs hfirst)

theorem roomy_idle (hidle : Idle parser) (hs : Running b ⟨parser, .fresh, log⟩) :
    Roomy settings ⟨parser, .fresh, log⟩ [] := by
  have hnread := hidle.nread
  have hmax : HTTP_MAX_HEADER_SIZE = 81920 := rfl
  refine roomy_of_length hs (List.forall_mem_nil _) ?_
  change 2 * (parser.nread + 0) + 2 ≤ _
  omega

theorem roomy_written (hw : Willing settings) {body : Body} (hp : Awaits parser body)
    (hsize : body.written.length < 2 ^ 32) (hs : Running b ⟨parser, .fresh, log⟩) :
    Roomy settings ⟨parser, .fresh, log⟩ body.written := by
  have hullong : ULLONG_MAX = 18446744073709551615 := by decide
  have hmax : HTTP_MAX_HEADER_SIZE = 81920 := rfl
  cases body with
  | none => exact roomy_idle hp hs
  | length data =>
    rw [Body.written] at hsize ⊢
    rw [Awaits] at hp
    split at hp
    · rename_i hnil
      subst hnil
      exact roomy_idle hp hs
    · have hnread := hp.1.nread
      exact roomy_counting settings (.inl hp.1.state) hs hp.2 (by omega) (by omega)
  | chunks pieces hne =>
    rw [Body.written] at hsize ⊢
    obtain ⟨hp, hchunked⟩ := hp
    have heta : parser = { parser with state := .chunkSizeStart, nread := 0 } := by
      rw [← hp.state, ← hp.nread]
    rw [heta] at hs ⊢
    exact roomy_chunks hw parser hp.ok hchunked
      (fun data hdata => ⟨hne data hdata, (length_le_chunksText hdata).trans_lt hsize⟩) hs

theorem roomy_requests (hw : Willing settings) (hidle : Idle parser)
    (hs : Running b ⟨parser, .fresh, log⟩) (requests : List Request)
    (hhead : ∀ r ∈ requests, 2 * (r.head.length + 3) ≤ HTTP_MAX_HEADER_SIZE)
    (hsize : ∀ r ∈ requests, r.body.written.length < 2 ^ 32) :
    Roomy settings ⟨parser, .fresh, log⟩ (requests.flatMap Request.written) := by
  induction requests generalizing parser log with
  | nil => exact roomy_idle hidle hs
  | cons r requests ih =>
    rw [List.forall_mem_cons] at hhead hsize
    have hnread := hidle.nread
    have hfits : r.head.length + 2 ≤ HTTP_MAX_HEADER_SIZE := by omega
    obtain ⟨p, hp, hrunHead⟩ := run_head hw hidle r hfits hsize.1 log
    have hs' := running_run hs hrunHead
    obtain ⟨q, hq, hrunBody⟩ := run_written hw hp hsize.1 (log ++ [.notify .messageBegin] ++
      textLog .url r.target ++ linesLog r.headers ++ r.body.lineLog ++ r.body.firstCalls)
    have hroomHead : Roomy settings ⟨parser, .fresh, log⟩ r.head :=
      roomy_of_length hs (headerChars_head r) (by change 2 * (parser.nread + _) + 2 ≤ _; omega)
    have hrun := SymbolMachine.run_append_ok.mpr ⟨_, hrunHead, hrunBody⟩
    rw [List.flatMap_cons]
    refine (hroomHead.append hrunHead (roomy_written hw hp hsize.1 hs')).append hrun ?_
    exact ih hq (running_run hs hrun) hhead.2 hsize.2

def headerEvents (name value : Str) : List Event :=
  [.data .headerField name, .data .headerValue value]

def bodyEvents (data : Str) : List Event := if data = [] then [] else [.data .body data]

def chunkEvents (data : Str) : List Event :=
  [.notify .chunkHeader] ++ bodyEvents data ++ [.notify .chunkComplete]

def bodyLineEvents : Body → List Event
  | .none => []
  | .length data => headerEvents lengthName (lengthText data.length)
  | .chunks _ _ => headerEvents encodingName chunkedText

def bodyPartEvents : Body → List Event
  | .none => []
  | .length data => bodyEvents data
  | .chunks pieces _ => (pieces ++ [[]]).flatMap chunkEvents

/-- A request as its receiver wants to see it, each text in one piece. -/
def requestEvents (r : Request) : List Event :=
  [.notify .messageBegin] ++ [.data .url r.target] ++
    (r.headers.flatMap fun h => headerEvents h.name h.value) ++ bodyLineEvents r.body ++
    [.notify .headersComplete] ++ bodyPartEvents r.body ++ [.notify .messageComplete]

theorem same_text (e : Element) (text : Str) : Same (textLog e text) [.data e text] := by
  by_cases h : text = []
  · subst h
    exact .refl _
  · have hempty : Same [(.data e ([] ++ text) : Event)] _ := same_cut
    have hpieces : Same [(.data e text : Event)] (text.map fun c => .data e [c]) :=
      same_singletons h
    exact (hempty.trans (Same.append (.refl [.data e []]) hpieces)).symm

theorem same_header (name value : Str) :
    Same (headerLog name value) (headerEvents name value) :=
  (same_text .headerField name).append (same_text .headerValue value)

theorem same_body (data : Str) : Same (pieceLog .body data) (bodyEvents data) := by
  rw [bodyEvents]
  split
  · rename_i hnil
    subst hnil
    exact .refl _
  · rename_i hne
    exact (same_singletons hne).symm

theorem same_chunk (data : Str) : Same (chunkLog data) (chunkEvents data) := by
  rw [chunkLog, chunkEvents]
  exact ((Same.refl [.notify .chunkHeader]).append (same_body data)).append (.refl _)

theorem same_bodyLine (body : Body) : Same body.lineLog (bodyLineEvents body) := by
  cases body with
  | none => exact .refl _
  | length data => exact same_header _ _
  | chunks pieces hne => exact same_header _ _

/-- The headers are complete before the body, and the message after it. -/
theorem same_bodyPart (body : Body) : Same (body.firstCalls ++ body.calls)
    ([.notify .headersComplete] ++ bodyPartEvents body ++ [.notify .messageComplete]) := by
  cases body with
  | none => exact .refl _
  | length data =>
    by_cases hnil : data = []
    · subst hnil
      exact .refl _
    · have hcalls : (Body.length data).firstCalls ++ (Body.length data).calls =
          [.notify .headersComplete] ++ pieceLog .body data ++ [.notify .messageComplete] := by
        simp [Body.firstCalls, Body.goesOn, Body.calls, hnil]
      rw [hcalls]
      exact ((Same.refl [.notify .headersComplete]).append (same_body data)).append (.refl _)
  | chunks pieces hne =>
    have hcalls : (Body.chunks pieces hne).firstCalls ++ (Body.chunks pieces hne).calls =
        [.notify .headersComplete] ++ (pieces ++ [[]]).flatMap chunkLog ++
          [.notify .messageComplete] := by
      simp [Body.firstCalls, Body.goesOn, Body.calls]
    rw [hcalls]
    have hchunks : Same ((pieces ++ [[]]).flatMap chunkLog)
        ((pieces ++ [[]]).flatMap chunkEvents) := Same.flatMap fun data _ => same_chunk data
    exact ((Same.refl [.notify .headersComplete]).append hchunks).append (.refl _)

theorem same_request (r : Request) : Same r.calls (requestEvents r) := by
  have hheaders : Same (linesLog r.headers)
      (r.headers.flatMap fun h => headerEvents h.name h.value) :=
    Same.flatMap fun h _ => same_header h.name h.value
  have hurl := (Same.refl [.notify .messageBegin]).append (same_text .url r.target)
  have hall := ((hurl.append hheaders).append (same_bodyLine r.body)).append (same_bodyPart r.body)
  have hcalls : r.calls = [.notify .messageBegin] ++ textLog .url r.target ++ linesLog r.headers ++
      r.body.lineLog ++ (r.body.firstCalls ++ r.body.calls) := by
    rw [Request.calls]
    simp only [List.append_assoc]
  have hevents : requestEvents r = [.notify .messageBegin] ++ [.data .url r.target] ++
      (r.headers.flatMap fun h => headerEvents h.name h.value) ++ bodyLineEvents r.body ++
      ([.notify .headersComplete] ++ bodyPartEvents r.body ++ [.notify .messageComplete]) := by
    rw [requestEvents]
    simp only [List.append_assoc]
  rw [hcalls, hevents]
  exact hall

theorem idle_httpParserInit : Idle (httpParserInit .request) := ⟨rfl, rfl, rfl, by decide⟩

/-- Requests that are written one after the other and cut anywhere: executions on the pieces take
all of them, hand over what was written, request by request, and leave a parser that waits for the
next request. -/
theorem executeAll_requests (hsettings : DataOk settings) (hw : Willing settings)
    (requests : List Request)
    (hhead : ∀ r ∈ requests, 2 * (r.head.length + 3) ≤ HTTP_MAX_HEADER_SIZE)
    (hsize : ∀ r ∈ requests, r.body.written.length < 2 ^ 32) {pieces : List Str}
    (hpieces : ∀ data ∈ pieces, data ≠ [] ∧ Fitting data)
    (hcut : pieces.flatten = requests.flatMap Request.written) :
    ∃ q events, executeAll settings (httpParserInit .request, []) pieces = .ok (q, events) ∧
      Same events (requests.flatMap requestEvents) ∧ q.state = .startReq ∧ q.httpErrno = .ok := by
  have hs := running_httpParserInit .request
  have hfits : ∀ r ∈ requests, r.head.length + 2 ≤ HTTP_MAX_HEADER_SIZE := fun r hr => by
    have htwice := hhead r hr
    omega
  obtain ⟨q, hq, hrun⟩ := run_requests hw idle_httpParserInit requests hfits hsize []
  have hroom := roomy_requests hw idle_httpParserInit hs requests hhead hsize
  rw [← hcut] at hrun hroom
  obtain ⟨t, ht, hahead⟩ := (ahead_self rfl).readAll hs (fun data hdata => (hpieces data hdata).1)
    hroom hrun fresh_ne_returned
  obtain ⟨events, hevents, hsame, -⟩ :=
    executeAll_of_readAll hsettings .request (fun data hdata => (hpieces data hdata).2) ht
  obtain ⟨n, hparser⟩ := hahead.behind.parser
  have hlog : t.log = requests.flatMap Request.calls := hahead.behind.log.symm
  have hparser' : q = lag n t.parser := hparser
  refine ⟨t.parser, events, hevents, ?_, ?_, ?_⟩
  · rw [hlog] at hsame
    exact hsame.trans (Same.flatMap fun r _ => same_request r)
  · exact (congrArg HttpParser.state hparser').symm.trans hq.state
  · exact (congrArg HttpParser.httpErrno hparser').symm.trans hq.ok

/-- A request with a header and a body in chunks. -/
def putRequest : Request where
  method := .PUT
  target := chars ['/', 'a']
  headers := [{
    name := chars ['A', 'g', 'e']
    value := chars ['1']
    name_ne := by decide
    name_token := by decide
    unknown := by decide
    no_length := by decide
    chars := by decide
    first := by decide }]
  body := .chunks [chars ['b', 'c']] (by decide)
  method_ne := by decide
  target_ok := .inl ⟨char '/', chars ['a'], rfl, .inl rfl, by decide⟩

def getRequest : Request where
  method := .GET
  target := chars ['*']
  headers := []
  body := .none
  method_ne := by decide
  target_ok := .inl ⟨char '*', [], rfl, .inr rfl, by decide⟩

/-- The two requests, cut in the middle of a header, of a chunk and of the line between them. -/
def requestPieces : List Str := [
  chars ['P', 'U', 'T', ' ', '/', 'a', ' ', 'H', 'T', 'T', 'P', '/', '1', '.', '1'] ++ [CR, LF] ++
    chars ['A', 'g'],
  chars ['e', ':', ' ', '1'] ++ [CR, LF] ++ headerLine encodingName chunkedText ++ [CR, LF] ++
    chars ['2'] ++ [CR, LF] ++ chars ['b'],
  chars ['c'] ++ [CR, LF] ++ chars ['0'] ++ [CR, LF, CR],
  [LF] ++ chars ['G', 'E', 'T', ' ', '*', ' ', 'H', 'T', 'T', 'P', '/', '1', '.', '1'] ++
    [CR, LF, CR, LF]]

theorem executeAll_requests_cut : ∃ q events,
    executeAll willing (httpParserInit .request, []) requestPieces = .ok (q, events) ∧
    Same events [.notify .messageBegin, .data .url (chars ['/', 'a']),
      .data .headerField (chars ['A', 'g', 'e']), .data .headerValue (chars ['1']),
      .data .headerField encodingName, .data .headerValue chunkedText, .notify .headersComplete,
      .notify .chunkHeader, .data .body (chars ['b', 'c']), .notify .chunkComplete,
      .notify .chunkHeader, .notify .chunkComplete, .notify .messageComplete,
      .notify .messageBegin, .data .url (chars ['*']), .notify .headersComplete,
      .notify .messageComplete] := by
  have hpieces : ∀ data ∈ requestPieces, data ≠ [] ∧ Fitting data := by decide
  obtain ⟨q, events, hexecute, hsame, -⟩ := executeAll_requests willing_ok (fun _ => rfl)
    [putRequest, getRequest] (by decide) (by decide) hpieces (by decide)
  exact ⟨q, events, hexecute, hsame⟩

end HttpParserCuts
