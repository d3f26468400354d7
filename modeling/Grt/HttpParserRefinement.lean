import Grt.HttpParserInvariant

/-! `http_parser_execute` agrees with the machine that reads one character at a time: buffers,
loops over several characters and marks make no difference. -/
namespace HttpParserRefinement

open LittleEndian HttpParserState HttpParserSwitch HttpParserSound PieceStream
open HttpParserExecute hiding headerField headerValue bodyIdentity chunkData perform
open HttpParserMachine hiding headerField headerValue bodyIdentity chunkData perform
open HttpParserMarks HttpParserHeaderLoops HttpParserInvariant

variable {settings : Settings} {data : Str} {pre log : List Event} {o : Option (Element × ℕ)}
  {l : Loop} {s : Stream} {ch : Byte} {b : Bool} {e : Element} {m p consumed : ℕ}
  {k : Loop → Except Exit Loop} {lenient : Bool}

/-- The states in which a counted number of characters is taken. -/
def Counting (parser : HttpParser) : Prop :=
  parser.state = .bodyIdentity ∨ parser.state = .chunkData ∧ parser.flags.chunked

theorem Counting.body {parser : HttpParser} (hc : Counting parser) :
    parsingHeader parser.state = false := by
  rcases hc with hs | ⟨hs, -⟩ <;> rw [hs] <;> rfl

theorem step_counting {parser : HttpParser} (hc : Counting parser) (hlen : 1 < parser.contentLength)
    (hmax : parser.contentLength < ULLONG_MAX) (ch : Byte) (log : List Event) :
    step settings ⟨parser, .fresh, log⟩ ch =
      .ok ⟨{ parser with contentLength := parser.contentLength - 1 }, .fresh,
        log ++ [.data .body [ch]]⟩ := by
  have hrest : parser.contentLength - 1 ≠ 0 := by omega
  rw [step_body ch fresh_ne_returned hc.body]
  rcases hc with hs | ⟨hs, hchunked⟩
  · have hassert : ¬ (parser.contentLength = 0 ∨ parser.contentLength = ULLONG_MAX) := by omega
    rw [react_bodyIdentity hs, HttpParserMachine.bodyIdentity, if_neg hassert]
    exact if_neg hrest
  · have hassert : ¬ (parser.flags.chunked = false ∨ parser.contentLength = 0 ∨
        parser.contentLength = ULLONG_MAX) := by
      rw [hchunked]
      rintro (h | h | h)
      · cases h
      · omega
      · omega
    rw [react_chunkData hs, HttpParserMachine.chunkData, if_neg hassert]
    exact congrArg (fun parser => Except.ok (Stream.mk parser .fresh (log ++ [.data .body [ch]])))
      (if_neg hrest)

/-- The machine on fewer characters than are missing. -/
theorem run_counting (settings : Settings) {parser : HttpParser} (hc : Counting parser)
    (xs : Str) (hlen : xs.length < parser.contentLength) (hmax : parser.contentLength < ULLONG_MAX)
    (log : List Event) : SymbolMachine.run (step settings) ⟨parser, .fresh, log⟩ xs =
      .ok ⟨{ parser with contentLength := parser.contentLength - xs.length }, .fresh,
        log ++ xs.map fun c => .data .body [c]⟩ := by
  induction xs generalizing parser log with
  | nil =>
    rw [List.map_nil, List.append_nil]
    rfl
  | cons c xs ih =>
    rw [List.length_cons] at hlen ⊢
    have hcounting : Counting { parser with contentLength := parser.contentLength - 1 } := hc
    have hrest := ih hcounting
      (Nat.lt_sub_of_add_lt hlen) ((Nat.sub_le _ _).trans_lt hmax) (log ++ [.data .body [c]])
    rw [SymbolMachine.run_cons, step_counting hc (by omega) hmax]
    change SymbolMachine.run (step settings) _ xs = _
    rw [hrest, List.map_cons, List.append_assoc, Nat.sub_sub, Nat.add_comm 1]
    rfl

theorem takeBody_eq (hmid : Mid data pre none l log) : takeBody data l = { l with
    mark := single (some (.body, l.p))
    parser.contentLength :=
      l.parser.contentLength - min l.parser.contentLength (data.length - l.p)
    p := l.p + min l.parser.contentLength (data.length - l.p) - 1 } := by
  rw [takeBody, hmid.setMark_eq]

theorem slice_length (data : Str) (p : ℕ) : slice data p data.length = data.drop p :=
  List.take_of_length_le (List.length_drop ▸ le_rfl)

/-- The missing characters are more than the buffer has. -/
theorem takeBody_ends (hsound : Sound b 0 l.parser) (hc : Counting l.parser)
    (hmax : l.parser.contentLength < ULLONG_MAX) (hlt : l.p < data.length)
    (hmid : Mid data pre none l log) (hk : Continues settings data pre b l.p k)
    (hlong : data.length - l.p < l.parser.contentLength) :
    (takeBody data l).parser.contentLength ≠ 0 ∧ Ends data pre b (k (takeBody data l))
      (feed settings (data.drop l.p) ⟨l.parser, .fresh, log⟩) := by
  have hrun := run_counting settings hc (data.drop l.p) (by rwa [List.length_drop]) hmax log
  have hend : l.p + (data.length - l.p) - 1 + 1 = data.length := by omega
  rw [takeBody_eq hmid, min_eq_right hlong.le]
  refine ⟨(Nat.sub_pos_of_lt hlong).ne', ?_⟩
  rw [feed, hrun, List.length_drop]
  have hcl : 0 < l.parser.contentLength - (data.length - l.p) := Nat.sub_pos_of_lt hlong
  have hcl' : l.parser.contentLength - (data.length - l.p) < ULLONG_MAX :=
    (Nat.sub_le _ _).trans_lt hmax
  have hsound' : Sound b 0 { l.parser with
      contentLength := l.parser.contentLength - (data.length - l.p) } := by
    refine ⟨hsound.ok, hsound.lenient, hsound.nread, hcl'.le, ?_, ?_⟩
    · intro hs
      rcases hc with hs' | ⟨hs', -⟩
      · cases hs'.symm.trans hs
      · cases hs'.symm.trans hs
    · change SoundAt _ l.parser.state
      rcases hc with hs | ⟨hs, hchunked⟩
      · rw [hs]
        exact ⟨hcl, hcl'⟩
      · rw [hs]
        exact ⟨hchunked, hcl, hcl'⟩
  have htake := hmid.take .body hlt le_rfl
    (t := Loop.advance { l with
      mark := single (some (.body, l.p))
      parser.contentLength := l.parser.contentLength - (data.length - l.p)
      p := l.p + (data.length - l.p) - 1 }) rfl hend rfl
  rw [slice_length] at htake
  have hb : Between data pre b (Loop.advance { l with
      mark := single (some (.body, l.p))
      parser.contentLength := l.parser.contentLength - (data.length - l.p)
      p := l.p + (data.length - l.p) - 1 })
      ⟨{ l.parser with contentLength := l.parser.contentLength - (data.length - l.p) }, .fresh,
        log ++ (data.drop l.p).map fun c => .data .body [c]⟩ :=
    ⟨rfl, rfl, hsound', hend.le, _, fun h => absurd hend h.ne, htake⟩
  have hends := hk _ _ (by change l.p ≤ l.p + _ - 1; omega) hb
  change Ends data pre b _
    (feed settings (data.drop (l.p + (data.length - l.p) - 1 + 1)) _) at hends
  rw [hend, List.drop_length, feed_nil] at hends
  exact hends

theorem length_slice (hq : m ≤ p) (hp : p ≤ data.length) : (slice data m p).length = p - m := by
  rw [slice, List.length_take, List.length_drop]
  omega

/-- The machine up to the last of the missing characters, which the buffer has. -/
theorem feed_counting (settings : Settings) (hc : Counting l.parser)
    (hmax : l.parser.contentLength < ULLONG_MAX)
    (hpos : 0 < l.parser.contentLength) (hshort : l.p + l.parser.contentLength ≤ data.length)
    (log : List Event) : ∃ ch, data[l.p + l.parser.contentLength - 1]? = some ch ∧
      slice data l.p (l.p + l.parser.contentLength) =
        slice data l.p (l.p + l.parser.contentLength - 1) ++ [ch] ∧
      feed settings (data.drop l.p) ⟨l.parser, .fresh, log⟩ =
        (step settings ⟨{ l.parser with contentLength := 1 }, .fresh, log ++
          (slice data l.p (l.p + l.parser.contentLength - 1)).map fun c => .data .body [c]⟩ ch >>=
        feed settings (data.drop (l.p + l.parser.contentLength))) := by
  obtain ⟨c, hc'⟩ : ∃ c, l.parser.contentLength = c + 1 := ⟨_, (Nat.sub_add_cancel hpos).symm⟩
  rw [hc'] at hshort hmax ⊢
  have hlast : l.p + (c + 1) - 1 = l.p + c := rfl
  have hlt : l.p + c < data.length := by omega
  have hch : data[l.p + c]? = some data[l.p + c] := List.getElem?_eq_getElem hlt
  have hsplit : data.drop l.p = slice data l.p (l.p + c) ++
      data[l.p + c] :: data.drop (l.p + (c + 1)) := by
    rw [slice, Nat.add_sub_cancel_left]
    conv_lhs => rw [← List.take_append_drop c (data.drop l.p)]
    rw [List.drop_drop, List.drop_eq_getElem_cons hlt]
    rfl
  have hlen := length_slice (m := l.p) (Nat.le_add_right _ c) hlt.le
  have hrun := run_counting settings hc (slice data l.p (l.p + c)) (by omega) (hc' ▸ hmax) log
  rw [show l.parser.contentLength - (slice data l.p (l.p + c)).length = 1 by omega] at hrun
  refine ⟨data[l.p + c], hch, slice_succ (Nat.le_add_right ..) hch, ?_⟩
  rw [hlast, hsplit, feed_append, hrun]
  exact feed_cons ..

theorem step_last_identity {parser : HttpParser} (hs : parser.state = .bodyIdentity) (ch : Byte)
    (log : List Event) : step settings ⟨{ parser with contentLength := 1 }, .fresh, log⟩ ch =
      HttpParserMachine.perform ch
        (messageDone settings { parser with contentLength := 0, state := .messageDone })
        (log ++ [.data .body [ch]]) := by
  have hassert : ¬ (1 = 0 ∨ 1 = ULLONG_MAX) := by decide
  have hs' : ({ parser with contentLength := 1 } : HttpParser).state = .bodyIdentity := hs
  rw [step_body ch fresh_ne_returned (hs ▸ rfl : parsingHeader parser.state = false),
    react_bodyIdentity hs', HttpParserMachine.bodyIdentity, if_neg hassert]
  rfl

theorem bodyIdentity_ends (hs : DataOk settings) (hsound : Sound b 0 l.parser)
    (hstate : l.parser.state = .bodyIdentity) (hlt : l.p < data.length)
    (hmid : Mid data pre none l log) (hk : Continues settings data pre b l.p k) :
    Ends data pre b (HttpParserExecute.bodyIdentity settings data l >>= k)
      (feed settings (data.drop l.p) ⟨l.parser, .fresh, log⟩) := by
  have hat := hsound.state
  rw [hstate] at hat
  obtain ⟨hpos, hmax⟩ := hat
  have hassert : ¬ (l.parser.contentLength = 0 ∨ l.parser.contentLength = ULLONG_MAX) := by omega
  rw [HttpParserExecute.bodyIdentity, if_neg hassert]
  rcases Nat.lt_or_ge (data.length - l.p) l.parser.contentLength with hlong | hshort
  · obtain ⟨hne, hends⟩ := takeBody_ends hsound (.inl hstate) hmax hlt hmid hk hlong
    rw [if_neg hne]
    exact hends
  · have hle : l.p + l.parser.contentLength ≤ data.length := by omega
    obtain ⟨ch, hch, hslice, hfeed⟩ :=
      feed_counting settings (.inl hstate) hmax hpos hle log
    have hback : l.p + l.parser.contentLength - 1 + 1 = l.p + l.parser.contentLength := by omega
    have hzero : Sound b 0 { l.parser with contentLength := 0, state := .messageDone } :=
      hsound.plain rfl rfl ⟨rfl, rfl⟩ rfl (Nat.zero_le _)
    have hmid' : Mid data pre none { l with
        parser := { l.parser with contentLength := 0, state := .messageDone }
        p := l.p + l.parser.contentLength - 1
        mark := single none
        events := l.events ++ [.data .body (slice data l.p (l.p + l.parser.contentLength))] }
        (log ++ (slice data l.p (l.p + l.parser.contentLength)).map fun c => .data .body [c]) :=
      (hmid.take .body (Nat.lt_add_of_pos_right hpos) hle (t := { l with
        mark := single (some (.body, l.p)), p := l.p + l.parser.contentLength }) rfl rfl
        rfl).handOver.move_none rfl rfl
    have hfits : Fits b none (messageDone settings { l.parser with
      contentLength := 0, state := .messageDone }) := hzero.fits_messageDone
    have hends := (perform_agrees hs _ (o := none) hfits hmid' hch).ends (hback ▸ hle) (p := l.p)
      (by change l.p < _ - 1 + 1; omega) hk
    rw [takeBody_eq hmid, min_eq_left hshort, hfeed, step_last_identity hstate, List.append_assoc]
    rw [hslice, List.map_append] at hends
    rw [Nat.sub_self]
    have hcall : HttpParserExecute.callbackData settings data .body 1 0 { l with
        parser := { l.parser with contentLength := 0, state := .messageDone }
        p := l.p + l.parser.contentLength - 1
        mark := single (some (.body, l.p)) } = .ok { l with
        parser := { l.parser with contentLength := 0, state := .messageDone }
        p := l.p + l.parser.contentLength - 1
        mark := single none
        events := l.events ++
          [.data .body (slice data l.p (l.p + l.parser.contentLength - 1 + 1))] } := by
      refine callbackData_single ?_ hs ?_ 1
      · rfl
      · exact hsound.ok
    dsimp only at hcall ⊢
    rw [hcall, hback, hslice]
    rw [hback] at hends
    exact hends

theorem step_last_chunk {parser : HttpParser} (hs : parser.state = .chunkData)
    (hchunked : parser.flags.chunked) (ch : Byte) (log : List Event) :
    step settings ⟨{ parser with contentLength := 1 }, .fresh, log⟩ ch =
      .ok ⟨{ parser with contentLength := 0, state := .chunkDataAlmostDone }, .fresh,
        log ++ [.data .body [ch]]⟩ := by
  have hassert : ¬ (parser.flags.chunked = false ∨ 1 = 0 ∨ 1 = ULLONG_MAX) := by
    rw [hchunked]
    decide
  have hs' : ({ parser with contentLength := 1 } : HttpParser).state = .chunkData := hs
  rw [step_body ch fresh_ne_returned (hs ▸ rfl : parsingHeader parser.state = false),
    react_chunkData hs', HttpParserMachine.chunkData, if_neg hassert]
  rfl

/-- The mark of a chunk that ends in the buffer stays set until the line end after it. -/
theorem chunkData_ends (hsound : Sound b 0 l.parser) (hstate : l.parser.state = .chunkData)
    (hlt : l.p < data.length) (hmid : Mid data pre none l log)
    (hk : Continues settings data pre b l.p k) :
    Ends data pre b (HttpParserExecute.chunkData data l >>= k)
      (feed settings (data.drop l.p) ⟨l.parser, .fresh, log⟩) := by
  have hat := hsound.state
  rw [hstate] at hat
  obtain ⟨hchunked, hpos, hmax⟩ := hat
  have hassert : ¬ (l.parser.flags.chunked = false ∨ l.parser.contentLength = 0 ∨
      l.parser.contentLength = ULLONG_MAX) := by
    rw [hchunked]
    rintro (h | h | h)
    · exact nomatch h
    · omega
    · omega
  rw [HttpParserExecute.chunkData, if_neg hassert]
  rcases Nat.lt_or_ge (data.length - l.p) l.parser.contentLength with hlong | hshort
  · obtain ⟨hne, hends⟩ := takeBody_ends hsound (.inr ⟨hstate, hchunked⟩) hmax hlt hmid hk hlong
    rw [if_neg hne]
    exact hends
  · have hle : l.p + l.parser.contentLength ≤ data.length := by omega
    obtain ⟨ch, hch, hslice, hfeed⟩ :=
      feed_counting settings (.inr ⟨hstate, hchunked⟩) hmax hpos hle log
    have hback : l.p + l.parser.contentLength - 1 + 1 = l.p + l.parser.contentLength := by omega
    have hdone : Sound b 0 { l.parser with contentLength := 0, state := .chunkDataAlmostDone } :=
      ⟨hsound.ok, hsound.lenient, hsound.nread, Nat.zero_le _, nofun, hchunked, rfl⟩
    have hb : Between data pre b (Loop.advance { l with
        parser := { l.parser with contentLength := 0, state := .chunkDataAlmostDone }
        p := l.p + l.parser.contentLength - 1
        mark := single (some (.body, l.p)) })
        ⟨{ l.parser with contentLength := 0, state := .chunkDataAlmostDone }, .fresh,
          log ++ (slice data l.p (l.p + l.parser.contentLength)).map fun c => .data .body [c]⟩ :=
      ⟨rfl, rfl, hdone, hback.le.trans hle, _, fun _ => .inr ⟨rfl, rfl⟩,
        hmid.take .body (Nat.lt_add_of_pos_right hpos) hle rfl hback rfl⟩
    have hends := hk _ _ (by change l.p ≤ _ - 1; omega) hb
    rw [takeBody_eq hmid, min_eq_left hshort, hfeed, step_last_chunk hstate hchunked,
      List.append_assoc, Nat.sub_self]
    rw [hslice, List.map_append] at hends
    change Ends data pre b _ (feed settings (data.drop (_ - 1 + 1)) _) at hends
    rw [hback] at hends
    exact hends

theorem feed_eof (hs : l.parser.state = .bodyIdentityEof) (xs : Str) (log : List Event) :
    feed settings xs ⟨l.parser, .fresh, log⟩ =
      .ok ⟨l.parser, .fresh, log ++ xs.map fun c => .data .body [c]⟩ := by
  induction xs generalizing log with
  | nil =>
    rw [List.map_nil, List.append_nil]
    rfl
  | cons c xs ih =>
    have hrest := ih (log ++ [.data .body [c]])
    rw [List.append_assoc] at hrest
    rw [feed_cons, step_body c fresh_ne_returned (hs ▸ rfl), react_bodyIdentityEof hs]
    exact hrest

/-- A body without a known length takes the rest of the buffer. -/
theorem bodyIdentityEof_ends (hsound : Sound b 0 l.parser)
    (hstate : l.parser.state = .bodyIdentityEof) (hlt : l.p < data.length)
    (hmid : Mid data pre none l log) (hk : Continues settings data pre b l.p k) :
    Ends data pre b (HttpParserExecute.bodyIdentityEof data l >>= k)
      (feed settings (data.drop l.p) ⟨l.parser, .fresh, log⟩) := by
  have hback : data.length - 1 + 1 = data.length := by omega
  have hb : Between data pre b (Loop.advance { l with
      mark := single (some (.body, l.p)), p := data.length - 1 })
      ⟨l.parser, .fresh, log ++ (data.drop l.p).map fun c => .data .body [c]⟩ := by
    refine ⟨rfl, rfl, hsound, hback.le, some (.body, l.p), fun h => absurd hback h.ne, ?_⟩
    exact slice_length data l.p ▸ hmid.take .body hlt le_rfl rfl hback rfl
  have hends := hk _ _ (Nat.le_pred_of_lt hlt) hb
  change Ends data pre b _ (feed settings (data.drop (data.length - 1 + 1)) _) at hends
  rw [hback, List.drop_length, feed_nil] at hends
  rw [HttpParserExecute.bodyIdentityEof, hmid.setMark_eq, feed_eof hstate]
  exact hends

theorem dispatch_switch (h : isLoopState l.parser.state = false) (ch : Byte) :
    dispatch settings data lenient ch l =
      HttpParserExecute.perform settings data (switch settings l.parser ch) l := by
  unfold dispatch
  cases hs : l.parser.state <;> first | rfl | (rw [hs] at h; exact nomatch h)

theorem switch_ends (hs : DataOk settings) {l : Loop} {log : List Event}
    (hsound : Sound b 1 l.parser) (hloop : isLoopState l.parser.state = false)
    (ho : Opens l.parser.state (o.map Prod.fst)) (hmid : Mid data pre o l log)
    (hch : data[l.p]? = some ch) (hk : Continues settings data pre b l.p k) (skipping : Bool) :
    Ends data pre b (dispatch settings data lenient ch l >>= k)
      (react settings l.parser skipping ch log >>= feed settings (data.drop (l.p + 1))) := by
  have hlt : l.p < data.length := (List.getElem?_eq_some_iff.mp hch).1
  rw [dispatch_switch hloop, react_switch hloop]
  exact (perform_agrees hs _ (hsound.fits_switch hloop ho) hmid hch).ends hlt
    (Nat.lt_succ_self _) hk

theorem opens_header {st : State} (hs : parsingHeader st) {x : Option Element} (h : Opens st x) :
    x = openElement st := by
  rcases h with h | ⟨h, -⟩
  · exact h
  · rw [h] at hs
    exact nomatch hs

/-- No text is open where a body or a chunk begins. -/
theorem opens_loop {st : State} (hs : parsingHeader st = false) (hloop : ¬ isLoopState st = false)
    {x : Option Element} (h : Opens st x) : x = none := by
  rcases h with h | ⟨h, -⟩
  · cases st
    case bodyIdentity | bodyIdentityEof | chunkData => exact h
    case chunkDataAlmostDone | chunkDataDone | messageDone => exact absurd rfl hloop
    all_goals exact nomatch hs
  · rw [h] at hloop
    exact absurd rfl hloop

/-- A mark is named by its text. -/
theorem eq_some_of_map (h : o.map Prod.fst = some e) : ∃ m, o = some (e, m) := by
  match o, h with
  | some (_, m), rfl => exact ⟨m, rfl⟩

/-- One round of the loop over the buffer, which may take several characters. -/
theorem body_ends (hs : DataOk settings) (hsize : data.length + HTTP_MAX_HEADER_SIZE < 2 ^ 32)
    (hb : Between data pre b l s) (hch : data[l.p]? = some ch)
    (hk : Continues settings data pre b l.p k) :
    Ends data pre b (body settings data b ch l >>= k) (feed settings (data.drop l.p) s) := by
  have hlt : l.p < data.length := (List.getElem?_eq_some_iff.mp hch).1
  obtain ⟨o, hopens, hmid⟩ := hb.mid
  have hopens := hopens hlt
  have hdrop : data.drop l.p = ch :: data.drop (l.p + 1) := by
    rw [List.drop_eq_getElem_cons hlt, (List.getElem?_eq_some_iff.mp hch).2]
  have hne : s.progress ≠ .returned := hb.progress ▸ nofun
  have hsound := hb.sound
  have heta : s = ⟨l.parser, .fresh, s.log⟩ := by rw [hb.parser, ← hb.progress]
  rw [← hb.parser] at hsound hopens
  cases hheader : parsingHeader l.parser.state with
  | true =>
    have hsmall : l.parser.nread + 1 < 2 ^ 32 :=
      (Nat.succ_le_succ hsound.nread).trans_lt (by decide)
    rw [body, hheader, if_pos rfl, count_eq l hsmall]
    by_cases hover : HTTP_MAX_HEADER_SIZE < l.parser.nread + 1
    · rw [hdrop, feed_cons, step_header ch hne (hb.parser ▸ hheader), ← hb.parser, if_pos hover,
        if_pos hover]
      exact .refused nofun
    rw [if_neg hover]
    have hopen := opens_header hheader hopens
    have hmid' := hmid.parser { l.parser with nread := l.parser.nread + 1 }
    have hprogress : s.progress = if l.p = l.p then .fresh else .looping :=
      hb.progress.trans (if_pos rfl).symm
    set l' : Loop := { l with parser.nread := l.parser.nread + 1 } with hl'
    change Ends data pre b (dispatch settings data b ch l' >>= k) _
    by_cases hfield : l.parser.state = .headerField
    · rw [hfield] at hopen
      obtain ⟨m, rfl⟩ := eq_some_of_map hopen
      have hdispatch : dispatch settings data b ch l' =
          HttpParserExecute.headerField settings data l' := by
        rw [dispatch, show l'.parser.state = .headerField from hfield]
      rw [hdispatch, HttpParserExecute.headerField]
      exact headerFieldLoop_ends (l := l') (n := l.parser.nread) hs rfl hlt.le le_rfl hlt hsize
        (by rw [← hb.parser, Nat.sub_self]; rfl) rfl hfield hprogress (hb.parser ▸ hsound)
        (Nat.le_of_not_lt hover) hmid' hk
    by_cases hvalue : l.parser.state = .headerValue
    · rw [hvalue] at hopen
      obtain ⟨m, rfl⟩ := eq_some_of_map hopen
      have hdispatch : dispatch settings data b ch l' =
          HttpParserExecute.headerValue settings data b l' := by
        rw [dispatch, show l'.parser.state = .headerValue from hvalue]
      have hvalueSound := sound_withNread hsound (.inr hvalue) (Nat.le_of_not_lt hover)
      have hv : InValue b l'.parser l.parser.headerState :=
        ⟨hvalue, hvalueSound⟩
      rw [hdispatch, HttpParserExecute.headerValue]
      exact headerValueLoop_ends (l := l') (n := l.parser.nread) hs rfl hlt.le le_rfl hlt hsize
        (by rw [← hb.parser, Nat.sub_self]; rfl) rfl hv (by rw [Nat.sub_self]; exact hsound.nread)
        (.inr ⟨hprogress, rfl⟩) hmid' hk
    have hloop : isLoopState l'.parser.state = false := by
      change isLoopState l.parser.state = false
      cases hst : l.parser.state
      case headerField => exact absurd hst hfield
      case headerValue => exact absurd hst hvalue
      case bodyIdentity | bodyIdentityEof | chunkData =>
        rw [hst] at hheader
        exact nomatch hheader
      all_goals rfl
    rw [hdrop, feed_cons, step_header ch hne (hb.parser ▸ hheader), ← hb.parser, if_neg hover]
    exact switch_ends (l := l') hs (counted hsound (Nat.le_of_not_lt hover)) hloop hopens hmid' hch
      hk _
  | false =>
    rw [body, hheader]
    change Ends data pre b (dispatch settings data b ch l >>= k) _
    by_cases hloop : isLoopState l.parser.state = false
    · rw [hdrop, feed_cons, step_body ch hne (hb.parser ▸ hheader), ← hb.parser]
      exact switch_ends hs (uncounted hsound hheader) hloop hopens hmid hch hk _
    have hnone : o = none := Option.map_eq_none_iff.mp (opens_loop hheader hloop hopens)
    subst hnone
    rw [heta]
    cases hst : l.parser.state
    case bodyIdentity =>
      rw [dispatch, hst]
      exact bodyIdentity_ends hs hsound hst hlt hmid hk
    case bodyIdentityEof =>
      rw [dispatch, hst]
      exact bodyIdentityEof_ends hsound hst hlt hmid hk
    case chunkData =>
      rw [dispatch, hst]
      exact chunkData_ends hsound hst hlt hmid hk
    all_goals
      rw [hst] at hloop hheader
      first
        | exact absurd rfl hloop
        | exact nomatch hheader

theorem callbackData_unmarked (hmark : l.mark e = none) (hok : l.parser.httpErrno = .ok)
    (extra : ℕ) : HttpParserExecute.callbackData settings data e extra consumed l = .ok l := by
  rw [HttpParserExecute.callbackData, hmark, if_neg (not_not.mpr hok)]

theorem foldlM_unmarked (hok : l.parser.httpErrno = .ok) {es : List Element}
    (hmark : ∀ e ∈ es, l.mark e = none) :
    es.foldlM (fun l e => callbackData settings data e 0 0 l) l = .ok l := by
  induction es with
  | nil => rfl
  | cons e es ih =>
    rw [List.foldlM_cons, callbackData_unmarked (hmark e (List.mem_cons_self ..)) hok]
    exact ih fun e' he' => hmark e' (List.mem_cons_of_mem e he')

theorem foldlM_single (hs : DataOk settings) (hok : l.parser.httpErrno = .ok)
    (hmark : l.mark = single (some (e, m))) {es : List Element} (he : e ∈ es) :
    es.foldlM (fun l e => callbackData settings data e 0 0 l) l = .ok { l with
      mark := single none, events := l.events ++ [.data e (slice data m l.p)] } := by
  induction es with
  | nil => exact nomatch he
  | cons e' es ih =>
    rw [List.foldlM_cons]
    by_cases heq : e' = e
    · subst heq
      rw [callbackData_single hmark hs hok]
      refine foldlM_unmarked ?_ fun _ _ => ?_
      · exact hok
      · rfl
    · have hnone : l.mark e' = none := by simp [hmark, single, Ne.symm heq]
      rw [callbackData_unmarked hnone hok]
      exact ih ((List.mem_cons.mp he).resolve_left (Ne.symm heq))

/-- What is still marked at the end of the buffer is handed over. -/
theorem finish_single (hs : DataOk settings) {l : Loop} (hok : l.parser.httpErrno = .ok)
    (hmid : Mid data pre o l log) :
    ∃ l', finish settings data l = .ok l' ∧ l'.parser = l.parser ∧ Same (pre ++ l'.events) log := by
  have hcount : ¬ 1 < (elements.filter fun e => (l.mark e).isSome).length := by
    rw [hmid.mark]
    match o with
    | none => decide
    | some (e, m) => cases e <;> simp [elements, single]
  rw [finish, if_neg hcount]
  match o with
  | none =>
    have hsame := hmid.same
    rw [pending, List.append_nil] at hsame
    exact ⟨l, foldlM_unmarked hok fun e _ => congrFun hmid.mark e, rfl, hsame⟩
  | some (e, m) =>
    have hmem : e ∈ elements := by cases e <;> decide
    have hsame := hmid.handOver.same
    rw [pending, List.append_nil] at hsame
    exact ⟨_, foldlM_single hs hok hmid.mark hmem, rfl, hsame⟩

/-- The execution from a character on. As a round takes one character at least, the rounds that
are left suffice. -/
theorem loop_ends (hs : DataOk settings) (hsize : data.length + HTTP_MAX_HEADER_SIZE < 2 ^ 32)
    (hb : Between data pre b l s) {rounds : ℕ} (hrounds : data.length ≤ l.p + rounds) :
    Ends data pre b (loop settings data b rounds l >>= finish settings data)
      (feed settings (data.drop l.p) s) := by
  have hfinish {l : Loop} {s : Stream} (hb : Between data pre b l s) (hge : data.length ≤ l.p) :
      Ends data pre b (finish settings data l) (feed settings (data.drop l.p) s) := by
    obtain ⟨o, -, hmid⟩ := hb.mid
    obtain ⟨l', hl', hparser, hsame⟩ := finish_single hs (hb.parser ▸ hb.sound.ok) hmid
    rw [hl', List.drop_eq_nil_of_le hge, feed_nil, endBuffer, hb.progress]
    exact .consumed (hparser.trans hb.parser) rfl hb.sound hsame
  induction rounds generalizing l s with
  | zero => exact hfinish hb hrounds
  | succ rounds ih =>
    rcases hb.le.eq_or_lt with heq | hlt
    · have hnone : data[l.p]? = none := List.getElem?_eq_none heq.ge
      rw [loop, hnone]
      exact hfinish hb heq.ge
    · have hch : data[l.p]? = some data[l.p] := List.getElem?_eq_getElem hlt
      rw [loop, hch]
      have hk : Continues settings data pre b l.p fun l =>
          loop settings data b rounds l.advance >>= finish settings data :=
        fun l' s' hp hb' => ih hb' (by change data.length ≤ l'.p + 1 + rounds; omega)
      have hends := body_ends hs hsize hb hch hk
      rw [← bind_assoc] at hends
      exact hends

theorem between_start {parser : HttpParser} (hsound : Sound b 0 parser)
    (hopened : Opened parser.state log) :
    Between data log b (HttpParserExecute.start parser) (fresh parser log) := by
  refine ⟨rfl, rfl, hsound, Nat.zero_le _, (openElement parser.state).map (·, 0), ?_, ?_⟩
  · intro _
    rw [Option.map_map]
    exact .inl (congrFun Option.map_id _)
  · refine ⟨?_, ?_, ?_⟩
    · funext e
      change (if openElement parser.state = some e then some 0 else none) = _
      cases openElement parser.state with
      | none => rfl
      | some e' => by_cases h : e' = e <;> simp [single, h]
    · rintro e m h
      cases hopen : openElement parser.state <;> rw [hopen] at h <;> cases h
      exact le_rfl
    · change Same (log ++ [] ++ pending data _ 0) log
      rw [List.append_nil]
      cases hopen : openElement parser.state with
      | none =>
        change Same (log ++ []) log
        rw [List.append_nil]
        exact .refl _
      | some e => exact (hopened e hopen).same_nil

/-- An execution does what the machine does with the buffer, and nothing else. -/
theorem executeLoop_ends (hs : DataOk settings) (hdata : data ≠ [])
    (hsize : data.length + HTTP_MAX_HEADER_SIZE < 2 ^ 32) {parser : HttpParser}
    (hsound : Sound b 0 parser) (hopened : Opened parser.state log) :
    Ends data log b (executeLoop settings data parser) (feed settings data (fresh parser log)) := by
  have hne : data.length ≠ 0 := fun h => hdata (List.length_eq_zero_iff.mp h)
  rw [executeLoop, if_neg hne, hsound.lenient]
  exact loop_ends hs hsize (between_start hsound hopened) (Nat.le_add_left ..)

/-- Of an execution that takes its whole buffer without an error. -/
def Consumes (data : Str) (r : Result) : Prop :=
  r.returned = data.length ∧ r.parser.httpErrno = .ok

instance (data : Str) (r : Result) : Decidable (Consumes data r) :=
  inferInstanceAs (Decidable (_ ∧ _))

/-- One buffer: no assertion fails, the buffer is consumed exactly if the machine accepts it, and
then the parser is the machine's and the calls are its log but for the cuts. -/
theorem httpParserExecute_feed (hs : DataOk settings) (hdata : data ≠ [])
    (hsize : data.length + HTTP_MAX_HEADER_SIZE < 2 ^ 32) {parser : HttpParser}
    (hsound : Sound b 0 parser) (hopened : Opened parser.state log) :
    ∃ r, httpParserExecute settings data parser = .returned r ∧
      match feed settings data (fresh parser log) with
      | .ok s => Consumes data r ∧ s = fresh r.parser s.log ∧ Same (log ++ r.events) s.log ∧
          Sound b 0 r.parser
      | .error _ => ¬ Consumes data r := by
  have hends := executeLoop_ends hs hdata hsize hsound hopened
  rw [httpParserExecute, if_neg (not_not.mpr hsound.ok)]
  generalize executeLoop settings data parser = x, feed settings data (fresh parser log) = y
    at hends
  cases hends with
  | @consumed l s hparser hprogress hsound hsame =>
    refine ⟨_, rfl, ⟨rfl, ?_⟩, ?_, hsame, ?_⟩
    · exact hparser ▸ hsound.ok
    · rw [hparser, fresh, ← hprogress]
    · exact hparser ▸ hsound
  | @returned r s hr hparser hprogress _ hsound hsame =>
    refine ⟨r, rfl, ⟨hr, hparser ▸ hsound.ok⟩, ?_, hsame, hparser ▸ hsound⟩
    rw [hparser, fresh, ← hprogress]
  | early hr _ => exact ⟨_, rfl, fun h => hr.ne h.1⟩
  | refused hr => exact ⟨_, rfl, fun h => hr h.2⟩

end HttpParserRefinement
