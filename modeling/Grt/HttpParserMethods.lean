import Grt.HttpParserRuns

/-! The names of request methods. The parser follows one name and turns into another one where
they part; what it accepts are the names in its table. -/
namespace HttpParserMethods

open LittleEndian HttpParserState HttpParserSwitch HttpParserSound PieceStream
open HttpParserExecute hiding headerField headerValue bodyIdentity chunkData perform
open HttpParserMachine HttpParserInvariant HttpParserRuns

variable {settings : Settings} {s s' : Stream} {ch : Byte} {b : Bool} {xs : Str}
  {parser q : HttpParser} {log : List Event}

/-- What has been read is the beginning of the method's name. -/
structure Spelt (xs : Str) (parser : HttpParser) : Prop where
  state : parser.state = .reqMethod
  index : parser.index = xs.length
  name : xs <+: methodString parser.method

theorem nul_not_mem_methodString (m : HttpMethod) : (0 : Byte) ∉ methodString m := by
  cases m <;> decide

theorem sp_not_mem_methodString (m : HttpMethod) : SP ∉ methodString m := by
  cases m <;> decide

theorem length_methodString_lt (m : HttpMethod) : (methodString m).length < 127 := by
  cases m <;> decide

/-- Where two names part, they agree up to there. -/
theorem branch_prefix {m m' : HttpMethod} {i : ℕ} (h : ((m, i, ch), m') ∈ methodBranches) :
    (methodString m).take i ++ [ch] <+: methodString m' := by
  have hall : ∀ x ∈ methodBranches,
      (methodString x.1.1).take x.1.2.1 ++ [x.1.2.2] <+: methodString x.2 := by decide
  exact hall _ h

theorem prefix_append_getElem {name : Str} (hxs : xs <+: name) (hch : name[xs.length]? = some ch) :
    xs ++ [ch] <+: name := by
  obtain ⟨rest, rfl⟩ := hxs
  rw [List.getElem?_append_right le_rfl, Nat.sub_self] at hch
  cases rest with
  | nil => cases hch
  | cons c rest =>
    cases hch
    exact ⟨rest, by rw [List.append_assoc]; rfl⟩

theorem perform_fail {e : HttpErrno} (he : e ≠ .ok) (ch : Byte) (log : List Event) :
    perform ch (fail parser e) log = .error .refused := if_neg he

theorem perform_next_eq {ch : Byte} (h : perform ch (.next q) log = .ok s') : s'.parser = q := by
  cases h
  rfl

/-- A letter of a method's name, or the blank after it. -/
theorem Spelt.reqMethod (h : Spelt xs parser) {log : List Event}
    (hperform : perform ch (reqMethod parser ch) log = .ok s') :
    (ch ≠ SP ∧ Spelt (xs ++ [ch]) s'.parser) ∨
      (ch = SP ∧ xs = methodString s'.parser.method ∧
        s'.parser.state = .reqSpacesBeforeUrl) := by
  have hlen : xs.length ≤ (methodString parser.method).length := h.name.length_le
  have hsmall := length_methodString_lt parser.method
  have hindex : (parser.index + 1) % 128 = xs.length + 1 := by
    rw [h.index]
    omega
  have htake : (methodString parser.method).take parser.index = xs := by
    rw [h.index]
    exact (List.prefix_iff_eq_take.mp h.name).symm
  have hgoes {m : HttpMethod} (hname : xs ++ [ch] <+: methodString m) :
      Spelt (xs ++ [ch]) (nextIndex { parser with method := m }) := by
    refine ⟨h.state, ?_, hname⟩
    rw [List.length_append]
    exact hindex
  have hfail : perform ch (fail parser .invalidMethod) log ≠ .ok s' := by
    rw [perform_fail (by decide)]
    exact fun h => by cases h
  have hend : ∀ m, (methodString parser.method ++ [0])[parser.index]? = some m → m = 0 →
      xs = methodString parser.method := by
    rintro m hm rfl
    rw [h.index] at hm
    by_contra hne
    have hlt : xs.length < (methodString parser.method).length :=
      lt_of_le_of_ne hlen fun heq => hne (h.name.eq_of_length heq)
    rw [List.getElem?_append_left hlt] at hm
    exact nul_not_mem_methodString _ (List.mem_of_getElem? hm)
  have hmore : ∀ m, (methodString parser.method ++ [0])[parser.index]? = some m → m ≠ 0 →
      xs ++ [m] <+: methodString parser.method := by
    intro m hm hne
    rw [h.index] at hm
    refine prefix_append_getElem h.name ?_
    by_cases hlt : xs.length < (methodString parser.method).length
    · rwa [List.getElem?_append_left hlt] at hm
    · rw [List.getElem?_append_right (Nat.le_of_not_lt hlt)] at hm
      exact absurd (List.mem_singleton.mp (List.mem_of_getElem? hm)) hne
  unfold HttpParserSwitch.reqMethod at hperform
  split at hperform
  · exact absurd hperform hfail
  rename_i hnul
  split at hperform
  · cases hperform
  rename_i m hm
  split at hperform
  · rename_i hsp
    rw [perform_next_eq hperform]
    exact .inr ⟨hsp.1, hend m hm hsp.2, rfl⟩
  rename_i hsp
  split at hperform
  · rename_i heq
    subst heq
    have hname := hmore ch hm hnul
    have hne : ch ≠ SP := by
      rintro rfl
      exact sp_not_mem_methodString _
        (hname.subset (List.mem_append_right _ (List.mem_singleton_self _)))
    rw [perform_next_eq hperform]
    exact .inl ⟨hne, hgoes hname⟩
  split at hperform
  · rename_i halpha
    have hne : ch ≠ SP := by
      rintro rfl
      exact absurd halpha (by decide)
    split at hperform
    · exact absurd hperform hfail
    · rename_i method hlookup
      rw [perform_next_eq hperform]
      exact .inl ⟨hne, hgoes (htake ▸ branch_prefix (mem_of_lookup hlookup))⟩
  split at hperform
  · rename_i hsearch
    obtain ⟨rfl, hone, hmethod⟩ := hsearch
    rw [perform_next_eq hperform]
    refine .inl ⟨by decide, hgoes ?_⟩
    rw [← htake, hone, hmethod]
    decide
  · exact absurd hperform hfail

theorem Spelt.step (h : Spelt xs s.parser) (hstep : step settings s ch = .ok s') :
    (ch ≠ SP ∧ Spelt (xs ++ [ch]) s'.parser) ∨
      (ch = SP ∧ xs = methodString s'.parser.method ∧
        s'.parser.state = .reqSpacesBeforeUrl) := by
  have hperform := step_switch_ok (by rw [h.state]; rfl) (by rw [h.state]; rfl) hstep
  rw [switch, show ({ s.parser with nread := s.parser.nread + 1 } : HttpParser).state =
    .reqMethod from h.state] at hperform
  have hcounted : Spelt xs { s.parser with nread := s.parser.nread + 1 } :=
    ⟨h.state, h.index, h.name⟩
  exact hcounted.reqMethod hperform

theorem Spelt.run {ys : Str} (h : Spelt ys s.parser) (hsp : SP ∉ xs)
    (hrun : SymbolMachine.run (HttpParserMachine.step settings) s (xs ++ [SP]) = .ok s') :
    ys ++ xs = methodString s'.parser.method ∧ s'.parser.state = .reqSpacesBeforeUrl := by
  induction xs generalizing s ys with
  | nil =>
    obtain ⟨t, ht, hrun⟩ := SymbolMachine.run_cons_ok.mp hrun
    cases hrun
    rcases h.step ht with ⟨hne, -⟩ | ⟨-, hname, hstate⟩
    · exact absurd rfl hne
    · rw [List.append_nil]
      exact ⟨hname, hstate⟩
  | cons c xs ih =>
    rw [List.mem_cons, not_or] at hsp
    obtain ⟨t, ht, hrun⟩ := SymbolMachine.run_cons_ok.mp hrun
    rcases h.step ht with ⟨-, hmore⟩ | ⟨heq, -, -⟩
    · rw [List.append_cons]
      exact ih hmore hsp.2 hrun
    · exact absurd heq.symm hsp.1

theorem firstMethod_letter {m : HttpMethod} (h : firstMethod ch = some m) :
    [ch] <+: methodString m ∧ isAlpha ch ∧ ¬ (ch = CR ∨ ch = LF) := by
  have hall : ∀ x ∈ ([(char 'A', .ACL), (char 'B', .BIND), (char 'C', .CONNECT),
      (char 'D', .DELETE), (char 'G', .GET), (char 'H', .HEAD), (char 'L', .LOCK),
      (char 'M', .MKCOL), (char 'N', .NOTIFY), (char 'O', .OPTIONS), (char 'P', .POST),
      (char 'R', .REPORT), (char 'S', .SUBSCRIBE), (char 'T', .TRACE), (char 'U', .UNLOCK)] :
        List (Byte × HttpMethod)), [x.1] <+: methodString x.2 ∧ isAlpha x.1 ∧
          ¬ (x.1 = CR ∨ x.1 = LF) := by decide
  exact hall _ (mem_of_lookup h)

theorem perform_notify_ok {n : Notify} {consumed : ℕ}
    (h : perform ch (notify settings n parser consumed (.next q)) log = .ok s') :
    s'.parser = q := by
  rw [notify, assert] at h
  split at h
  · split at h
    · exact perform_next_eq h
    · exact perform_next_eq h
    · rw [perform, perform, if_neg (callback_ne n)] at h
      cases h
  · cases h

/-- A message begins with a first letter of a name, or not yet. -/
theorem startReq_step (hstate : s.parser.state = .startReq)
    (hstep : HttpParserMachine.step settings s ch = .ok s') :
    ((ch = CR ∨ ch = LF) ∧ s'.parser.state = .startReq) ∨ Spelt [ch] s'.parser := by
  have hperform := step_switch_ok (by rw [hstate]; rfl) (by rw [hstate]; rfl) hstep
  have hstate' : ({ s.parser with nread := s.parser.nread + 1 } : HttpParser).state = .startReq :=
    hstate
  rw [switch, hstate'] at hperform
  have hfail (q : HttpParser) : perform ch (fail q .invalidMethod) s.log ≠ .ok s' := by
    rw [perform_fail (by decide)]
    exact fun h => by cases h
  dsimp only at hperform
  rw [startReq] at hperform
  split at hperform
  · rename_i hline
    rw [perform_next_eq hperform]
    exact .inl ⟨hline, hstate'⟩
  dsimp only at hperform
  split at hperform
  · exact absurd hperform (hfail _)
  split at hperform
  · exact absurd hperform (hfail _)
  rename_i m hm
  rw [perform_notify_ok hperform]
  exact .inr ⟨rfl, rfl, (firstMethod_letter hm).1⟩

/-- What is read up to the first blank. -/
theorem startReq_run (hstate : s.parser.state = .startReq) (hsp : SP ∉ xs)
    (hrun : SymbolMachine.run (HttpParserMachine.step settings) s (xs ++ [SP]) = .ok s') :
    ∃ lines, (∀ c ∈ lines, c = CR ∨ c = LF) ∧ xs = lines ++ methodString s'.parser.method ∧
      s'.parser.state = .reqSpacesBeforeUrl := by
  induction xs generalizing s with
  | nil =>
    obtain ⟨t, ht, -⟩ := SymbolMachine.run_cons_ok.mp hrun
    rcases startReq_step hstate ht with ⟨h | h, -⟩ | hspelt
    · exact absurd h (by decide)
    · exact absurd h (by decide)
    · exact absurd (hspelt.name.subset (List.mem_singleton_self SP)) (sp_not_mem_methodString _)
  | cons c xs ih =>
    rw [List.mem_cons, not_or] at hsp
    obtain ⟨t, ht, hrun⟩ := SymbolMachine.run_cons_ok.mp hrun
    rcases startReq_step hstate ht with ⟨hline, ht'⟩ | hspelt
    · obtain ⟨lines, hlines, rfl, hdone⟩ := ih ht' hsp.2 hrun
      exact ⟨c :: lines, List.forall_mem_cons.mpr ⟨hline, hlines⟩, rfl, hdone⟩
    · obtain ⟨hname, hdone⟩ := hspelt.run hsp.2 hrun
      exact ⟨[], nofun, hname, hdone⟩

/-- The method and the index after one letter more. -/
def follow (x : HttpMethod × ℕ) (ch : Byte) : Option (HttpMethod × ℕ) :=
  match (methodString x.1 ++ [0])[x.2]? with
  | none => none
  | some m =>
    if ch = m then some (x.1, x.2 + 1)
    else if isAlpha ch then (methodBranches.lookup (x.1, x.2, ch)).map (·, x.2 + 1)
    else if ch = char '-' ∧ x.2 = 1 ∧ x.1 = .MKCOL then some (.MSEARCH, x.2 + 1)
    else none

def spell : Str → Option (HttpMethod × ℕ)
  | [] => none
  | c :: rest => firstMethod c >>= fun m => rest.foldlM follow (m, 1)

theorem spell_methodString (m : HttpMethod) :
    spell (methodString m) = some (m, (methodString m).length) := by
  cases m <;> decide

theorem reqMethod_follow (parser : HttpParser) {m : HttpMethod} {i : ℕ}
    (h : follow (parser.method, parser.index) ch = some (m, i)) (hnul : ch ≠ 0) (hsp : ch ≠ SP)
    (hsmall : parser.index < 127) :
    reqMethod parser ch = .next { parser with method := m, index := i } := by
  have hindex : (parser.index + 1) % 128 = parser.index + 1 := Nat.mod_eq_of_lt (by omega)
  rw [reqMethod, if_neg hnul]
  unfold follow at h
  dsimp only at h
  cases hm : (methodString parser.method ++ [0])[parser.index]? with
  | none =>
    rw [hm] at h
    cases h
  | some c =>
    rw [hm] at h
    dsimp only at h ⊢
    rw [if_neg fun hend => hsp hend.1]
    split at h
    · rename_i heq
      cases h
      rw [if_pos heq, nextIndex, hindex]
    · rename_i hne
      rw [if_neg hne]
      split at h
      · rename_i halpha
        rw [if_pos halpha]
        cases hlookup : methodBranches.lookup (parser.method, parser.index, ch) with
        | none =>
          rw [hlookup] at h
          cases h
        | some method =>
          rw [hlookup] at h
          cases h
          dsimp only
          rw [nextIndex, hindex]
      · rename_i halpha
        rw [if_neg halpha]
        split at h
        · rename_i hsearch
          cases h
          rw [if_pos hsearch, nextIndex, hindex]
        · cases h

theorem follow_index {x y : HttpMethod × ℕ} (h : follow x ch = some y) : y.2 = x.2 + 1 := by
  unfold follow at h
  split at h
  · cases h
  split at h
  · cases h
    rfl
  split at h
  · obtain ⟨_, -, rfl⟩ := Option.map_eq_some_iff.mp h
    rfl
  split at h
  · cases h
    rfl
  · cases h

theorem step_follow (parser : HttpParser) {m : HttpMethod} {i : ℕ}
    (h : follow (parser.method, parser.index) ch = some (m, i)) (hnul : ch ≠ 0) (hsp : ch ≠ SP)
    (hsmall : parser.index < 127) (hn : parser.nread < HTTP_MAX_HEADER_SIZE) :
    step settings ⟨{ parser with state := .reqMethod }, .fresh, log⟩ ch = .ok ⟨{ parser with
      state := .reqMethod, method := m, index := i, nread := parser.nread + 1 }, .fresh, log⟩ :=
  step_quiet parser .reqMethod log rfl rfl hn (reqMethod_follow { parser with
    state := .reqMethod, nread := parser.nread + 1 } h hnul hsp hsmall) rfl

theorem follow_run (settings : Settings) (parser : HttpParser) {m : HttpMethod} {i : ℕ}
    (h : xs.foldlM follow (parser.method, parser.index) = some (m, i))
    (hname : ∀ c ∈ xs, c ≠ 0 ∧ c ≠ SP) (hsmall : parser.index + xs.length ≤ 127)
    (hn : parser.nread + xs.length ≤ HTTP_MAX_HEADER_SIZE) (log : List Event) :
    SymbolMachine.run (step settings) ⟨{ parser with state := .reqMethod }, .fresh, log⟩ xs =
      .ok ⟨{ parser with
        state := .reqMethod, method := m, index := i, nread := parser.nread + xs.length }, .fresh,
          log⟩ := by
  induction xs generalizing parser with
  | nil =>
    cases h
    rfl
  | cons c xs ih =>
    rw [List.forall_mem_cons] at hname
    rw [List.length_cons] at hsmall hn ⊢
    rw [List.foldlM_cons] at h
    obtain ⟨⟨m', i'⟩, hfollow, h⟩ := Option.bind_eq_some_iff.mp h
    have hindex : i' = parser.index + 1 := follow_index hfollow
    have hrest := ih { parser with method := m', index := i', nread := parser.nread + 1 } h hname.2
      (by change i' + _ ≤ 127; omega) (by change parser.nread + 1 + _ ≤ _; omega)
    rw [SymbolMachine.run_cons,
      step_follow parser hfollow hname.1.1 hname.1.2 (by omega) (by omega), SymbolMachine.ok_bind]
    exact hrest.trans (by rw [Nat.add_assoc, Nat.add_comm 1])

theorem reqMethod_end (parser : HttpParser)
    (hindex : parser.index = (methodString parser.method).length) :
    reqMethod parser SP = .next { parser with
      state := .reqSpacesBeforeUrl, index := (methodString parser.method).length + 1 } := by
  have hsmall := length_methodString_lt parser.method
  have hend : (methodString parser.method ++ [0])[parser.index]? = some 0 := by
    rw [hindex, List.getElem?_append_right le_rfl, Nat.sub_self]
    rfl
  have hcount : (parser.index + 1) % 128 = (methodString parser.method).length + 1 := by
    rw [hindex, Nat.mod_eq_of_lt (by omega)]
  rw [reqMethod, if_neg (by decide), hend]
  dsimp only
  rw [if_pos ⟨rfl, rfl⟩, nextIndex, hcount]

/-- A state in which a call is made before the case goes on. -/
theorem perform_call {n : Notify} (hok : parser.httpErrno = .ok)
    (hnotify : settings.onNotify n = some 0) (consumed : ℕ) (rest : Step) (ch : Byte)
    (log : List Event) : perform ch (notify settings n parser consumed rest) log =
      perform ch rest (log ++ [.notify n]) := by
  rw [notify, assert, if_pos hok, hnotify]
  rfl

theorem step_firstLetter (parser : HttpParser) {m : HttpMethod} (h : firstMethod ch = some m)
    (hok : parser.httpErrno = .ok) (hnotify : settings.onNotify .messageBegin = some 0)
    (hn : parser.nread < HTTP_MAX_HEADER_SIZE) :
    step settings ⟨{ parser with state := .startReq }, .fresh, log⟩ ch = .ok ⟨{ parser with
      flags := noFlags, contentLength := ULLONG_MAX, index := 1, method := m, state := .reqMethod
      nread := parser.nread + 1 }, .fresh, log ++ [.notify .messageBegin]⟩ := by
  obtain ⟨-, halpha, hline⟩ := firstMethod_letter h
  refine (step_switch fresh_ne_returned rfl rfl hn ch).trans ?_
  change perform ch (startReq settings { parser with
    state := .startReq, nread := parser.nread + 1 } ch) log = _
  rw [startReq, if_neg hline]
  dsimp only
  rw [halpha, if_neg (by decide), h]
  dsimp only
  rw [perform_call (by exact hok) hnotify]
  exact congrArg (fun log => Except.ok (Stream.mk _ .fresh log)) (List.append_nil _)

/-- The machine on a method's name and the blank after it. -/
theorem run_method (settings : Settings) (parser : HttpParser) (m : HttpMethod)
    (hok : parser.httpErrno = .ok) (hnotify : settings.onNotify .messageBegin = some 0)
    (hn : parser.nread + (methodString m).length < HTTP_MAX_HEADER_SIZE) (log : List Event) :
    SymbolMachine.run (step settings) ⟨{ parser with state := .startReq }, .fresh, log⟩
      (methodString m ++ [SP]) = .ok ⟨{ parser with
        flags := noFlags, contentLength := ULLONG_MAX, index := (methodString m).length + 1
        method := m, state := .reqSpacesBeforeUrl
        nread := parser.nread + ((methodString m).length + 1) }, .fresh,
          log ++ [.notify .messageBegin]⟩ := by
  have hspell := spell_methodString m
  have hname : ∀ c ∈ methodString m, c ≠ 0 ∧ c ≠ SP := by
    intro c hc
    constructor
    · rintro rfl
      exact nul_not_mem_methodString m hc
    · rintro rfl
      exact sp_not_mem_methodString m hc
  have hsmall := length_methodString_lt m
  cases hm : methodString m with
  | nil =>
    rw [hm] at hspell
    cases hspell
  | cons c rest =>
    rw [hm] at hspell hname hn hsmall
    rw [List.length_cons] at hn hsmall
    obtain ⟨m', hfirst, hrest⟩ := Option.bind_eq_some_iff.mp hspell
    have hfollow := follow_run settings { parser with
        flags := noFlags, contentLength := ULLONG_MAX, index := 1, method := m'
        nread := parser.nread + 1 } hrest (List.forall_mem_cons.mp hname).2
      (by change 1 + _ ≤ 127; omega) (by change parser.nread + 1 + _ ≤ _; omega)
      (log ++ [.notify .messageBegin])
    have hlast : step settings ⟨{ parser with
        flags := noFlags, contentLength := ULLONG_MAX, index := rest.length + 1, method := m
        state := .reqMethod, nread := parser.nread + 1 + rest.length }, .fresh,
          log ++ [.notify .messageBegin]⟩ SP = .ok ⟨{ parser with
        flags := noFlags, contentLength := ULLONG_MAX, index := rest.length + 1 + 1, method := m
        state := .reqSpacesBeforeUrl, nread := parser.nread + 1 + rest.length + 1 }, .fresh,
          log ++ [.notify .messageBegin]⟩ := by
      have hend := reqMethod_end { parser with
        flags := noFlags, contentLength := ULLONG_MAX, index := rest.length + 1, method := m
        state := .reqMethod, nread := parser.nread + 1 + rest.length + 1 }
          (congrArg List.length hm).symm
      rw [hm] at hend
      exact step_quiet { parser with
        flags := noFlags, contentLength := ULLONG_MAX, index := rest.length + 1, method := m
        nread := parser.nread + 1 + rest.length } .reqMethod _ rfl rfl
          (by change parser.nread + 1 + _ < _; omega) hend rfl
    rw [List.cons_append, SymbolMachine.run_cons,
      step_firstLetter parser hfirst hok hnotify (by omega), SymbolMachine.ok_bind]
    refine SymbolMachine.run_append_ok.mpr ⟨_, hfollow, ?_⟩
    refine SymbolMachine.run_cons_ok.mpr ⟨_, hlast, ?_⟩
    rw [List.length_cons, Nat.add_assoc parser.nread, Nat.add_assoc parser.nread,
      Nat.add_comm 1]
    rfl

/-- Line ends before a message are passed over. -/
theorem run_lines (settings : Settings) (parser : HttpParser) {lines : Str}
    (hlines : ∀ c ∈ lines, c = CR ∨ c = LF) (hn : parser.nread + lines.length ≤ HTTP_MAX_HEADER_SIZE) (log : List Event) :
    SymbolMachine.run (step settings) ⟨{ parser with state := .startReq }, .fresh, log⟩ lines =
      .ok ⟨{ parser with state := .startReq, nread := parser.nread + lines.length }, .fresh,
        log⟩ := by
  induction lines generalizing parser with
  | nil => rfl
  | cons c lines ih =>
    rw [List.forall_mem_cons] at hlines
    rw [List.length_cons] at hn ⊢
    have hnext : startReq settings { parser with
        state := .startReq, nread := parser.nread + 1 } c =
        .next { parser with state := .startReq, nread := parser.nread + 1 } := if_pos hlines.1
    rw [SymbolMachine.run_cons, step_quiet parser .startReq log rfl rfl (by omega) hnext rfl,
      SymbolMachine.ok_bind]
    refine (ih { parser with nread := parser.nread + 1 } hlines.2 ?_).trans ?_
    · change parser.nread + 1 + _ ≤ _
      omega
    · rw [Nat.add_assoc, Nat.add_comm 1]

/-- Between two messages, what is read up to the first blank is accepted exactly if it is the name
of a method of the table after any line ends, and then this is the method. -/
theorem method_iff (hrunning : Running b s) (hfresh : s.progress = .fresh)
    (hstate : s.parser.state = .startReq) (hnotify : settings.onNotify .messageBegin = some 0)
    (hn : s.parser.nread + xs.length < HTTP_MAX_HEADER_SIZE) (hsp : SP ∉ xs) (m : HttpMethod) :
    (∃ s', SymbolMachine.run (step settings) s (xs ++ [SP]) = .ok s' ∧ s'.parser.method = m) ↔
      ∃ lines, (∀ c ∈ lines, c = CR ∨ c = LF) ∧ xs = lines ++ methodString m := by
  constructor
  · rintro ⟨s', hrun, rfl⟩
    obtain ⟨lines, hlines, hxs, -⟩ := startReq_run hstate hsp hrun
    exact ⟨lines, hlines, hxs⟩
  · rintro ⟨lines, hlines, rfl⟩
    rw [List.length_append] at hn
    have heta : s = ⟨{ s.parser with state := .startReq }, .fresh, s.log⟩ := by
      rw [← hstate, ← hfresh]
    have hname := run_method settings { s.parser with
      nread := s.parser.nread + lines.length } m hrunning.sound.ok hnotify
      (by change s.parser.nread + _ + _ < _; omega) s.log
    have hlines := run_lines settings s.parser hlines (by omega) s.log
    have hrun := SymbolMachine.run_append_ok.mpr ⟨_, hlines, hname⟩
    rw [← List.append_assoc, ← heta] at hrun
    exact ⟨_, hrun, rfl⟩

/-- After a line end, the longest of the names. -/
theorem method_iff_unsubscribe : ∃ s', SymbolMachine.run (step willing)
      (fresh (httpParserInit .request) []) (CR :: LF :: methodString .UNSUBSCRIBE ++ [SP]) = .ok s' ∧
    s'.parser.method = .UNSUBSCRIBE :=
  (method_iff (running_httpParserInit .request) rfl rfl rfl (by decide) (by decide)
    .UNSUBSCRIBE).mpr ⟨[CR, LF], by decide, rfl⟩

end HttpParserMethods
