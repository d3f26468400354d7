import Grt.HttpParserMethods

/-! The names of headers. The parser follows the names it knows letter by letter, whatever their
case, and says at the colon which of them it has read. -/
namespace HttpParserNames

open LittleEndian HttpParserState HttpParserSwitch HttpParserSound PieceStream
open HttpParserExecute hiding headerField headerValue bodyIdentity chunkData perform
open HttpParserMachine HttpParserMarks HttpParserHeaderLoops HttpParserInvariant HttpParserRuns

variable {settings : Settings} {ch c : Byte} {name w : Str} {parser : HttpParser}
  {log : List Event} {x : HeaderState × ℕ} {s s' : Stream}

/-- The state after the first letter. -/
def firstState (c : Byte) : HeaderState :=
  if c = char 'c' then .C
  else if c = char 'p' then .matchingProxyConnection
  else if c = char 't' then .matchingTransferEncoding
  else if c = char 'u' then .matchingUpgrade
  else .general

/-- The header state and the index after one letter more, in lower case. -/
def nameStep (x : HeaderState × ℕ) (c : Byte) : HeaderState × ℕ :=
  let matching (name : Str) (hit : HeaderState) :=
    (matchName name (x.2 + 1) c .general x.1 hit, x.2 + 1)
  match x.1 with
  | .C => (if c = char 'o' then .CO else .general, x.2 + 1)
  | .CO => (if c = char 'n' then .CON else .general, x.2 + 1)
  | .CON => (if c = char 'n' then .matchingConnection
      else if c = char 't' then .matchingContentLength else .general, x.2 + 1)
  | .matchingConnection => matching CONNECTION .connection
  | .matchingProxyConnection => matching PROXY_CONNECTION .connection
  | .matchingContentLength => matching CONTENT_LENGTH .contentLength
  | .matchingTransferEncoding => matching TRANSFER_ENCODING .transferEncoding
  | .matchingUpgrade => matching UPGRADE .upgrade
  | .connection | .contentLength | .transferEncoding | .upgrade => (.general, x.2)
  | _ => x

def nameState : Str → HeaderState × ℕ
  | [] => (.general, 0)
  | c :: w => w.foldl nameStep (firstState c, 0)

theorem nameState_append (hw : w ≠ []) (c : Byte) :
    nameState (w ++ [c]) = nameStep (nameState w) c := by
  obtain ⟨d, w, rfl⟩ := List.exists_cons_of_ne_nil hw
  change (w ++ [c]).foldl nameStep _ = _
  rw [List.foldl_append]
  rfl

/-- What a header state tells of the letters read. -/
def Reads (w : Str) (x : HeaderState × ℕ) : Prop :=
  let within (name : Str) : Prop := w = name.take (x.2 + 1) ∧ x.2 + 1 < name.length
  match x.1 with
  | .general => True
  | .C => within CONNECTION ∧ x.2 = 0
  | .CO => within CONNECTION ∧ x.2 = 1
  | .CON => within CONNECTION ∧ x.2 = 2
  | .matchingConnection => within CONNECTION
  | .matchingProxyConnection => within PROXY_CONNECTION
  | .matchingContentLength => within CONTENT_LENGTH
  | .matchingTransferEncoding => within TRANSFER_ENCODING
  | .matchingUpgrade => within UPGRADE
  | .connection => w = CONNECTION ∨ w = PROXY_CONNECTION
  | .contentLength => w = CONTENT_LENGTH
  | .transferEncoding => w = TRANSFER_ENCODING
  | .upgrade => w = UPGRADE
  | _ => False

theorem reads_first (c : Byte) : Reads [c] (firstState c, 0) := by
  unfold firstState
  split
  · rename_i h
    subst h
    exact ⟨by decide, rfl⟩
  split
  · rename_i h
    subst h
    exact ⟨by decide, by decide⟩
  split
  · rename_i h
    subst h
    exact ⟨by decide, by decide⟩
  split
  · rename_i h
    subst h
    exact ⟨by decide, by decide⟩
  · trivial

/-- A letter that fits is the next one of the name. -/
theorem matchName_cases {name : Str} {i : ℕ} {miss here hit : HeaderState}
    (hi : i < name.length) :
    matchName name i c miss here hit = miss ∨
      (name.take i ++ [c] = name.take (i + 1) ∧
        (i + 1 < name.length ∧ matchName name i c miss here hit = here ∨
          i + 1 = name.length ∧ matchName name i c miss here hit = hit)) := by
  unfold matchName
  by_cases hc : name.length < i ∨ (name ++ [0])[i]? ≠ some c
  · exact .inl (if_pos hc)
  · rw [if_neg hc]
    rw [not_or, not_not, List.getElem?_append_left hi] at hc
    refine .inr ⟨?_, ?_⟩
    · rw [List.take_add_one, hc.2]
      rfl
    · by_cases hend : i = name.length - 1
      · exact .inr ⟨by omega, if_pos hend⟩
      · exact .inl ⟨by omega, if_neg hend⟩

theorem Reads.step (h : Reads w x) (c : Byte) : Reads (w ++ [c]) (nameStep x c) := by
  obtain ⟨st, i⟩ := x
  have hmatch {name : Str} {hit : HeaderState} (hname : w = name.take (i + 1))
      (hlt : i + 1 < name.length)
      (hhere : w ++ [c] = name.take (i + 2) → i + 2 < name.length →
        Reads (w ++ [c]) (st, i + 1))
      (hhit : w ++ [c] = name → Reads (w ++ [c]) (hit, i + 1)) :
      Reads (w ++ [c]) (matchName name (i + 1) c .general st hit, i + 1) := by
    have hcases : matchName name (i + 1) c .general st hit = _ ∨ _ := matchName_cases hlt
    rcases hcases with heq | ⟨htake, ⟨hmore, heq⟩ | ⟨hend, heq⟩⟩
    · rw [heq]
      trivial
    · rw [heq]
      exact hhere (hname ▸ htake) hmore
    · rw [heq]
      refine hhit (hname ▸ htake.trans ?_)
      rw [hend, List.take_length]
  cases st
  case matchingConnection => exact hmatch h.1 h.2 .intro .inl
  case matchingProxyConnection => exact hmatch h.1 h.2 .intro .inr
  case matchingContentLength => exact hmatch h.1 h.2 .intro id
  case matchingTransferEncoding => exact hmatch h.1 h.2 .intro id
  case matchingUpgrade => exact hmatch h.1 h.2 .intro id
  case C =>
    obtain ⟨⟨rfl, -⟩, rfl⟩ := h
    by_cases hc : c = char 'o'
    · subst hc
      exact ⟨⟨by decide, by decide⟩, rfl⟩
    · rw [nameStep, if_neg hc]
      trivial
  case CO =>
    obtain ⟨⟨rfl, -⟩, rfl⟩ := h
    by_cases hc : c = char 'n'
    · subst hc
      exact ⟨⟨by decide, by decide⟩, rfl⟩
    · rw [nameStep, if_neg hc]
      trivial
  case CON =>
    obtain ⟨⟨rfl, -⟩, rfl⟩ := h
    by_cases hn : c = char 'n'
    · subst hn
      exact ⟨by decide, by decide⟩
    by_cases ht : c = char 't'
    · subst ht
      exact ⟨by decide, by decide⟩
    · have hgeneral : nameStep (.CON, 2) c = (.general, 3) := by simp [nameStep, hn, ht]
      rw [hgeneral]
      trivial
  case general | connection | contentLength | transferEncoding | upgrade => trivial
  all_goals exact h.elim

theorem reads_nameState (hw : w ≠ []) : Reads w (nameState w) := by
  induction w using List.reverseRecOn with
  | nil => exact absurd rfl hw
  | append_singleton w c ih =>
    by_cases hnil : w = []
    · subst hnil
      exact reads_first c
    · rw [nameState_append hnil]
      exact (ih hnil).step c

theorem reads_of_nameState {st : HeaderState} (hw : w ≠ []) (h : (nameState w).1 = st) :
    Reads w (st, (nameState w).2) := h ▸ reads_nameState hw

/-- The header that a name in lower case is, if the parser knows it. -/
theorem nameState_connection (hw : w ≠ []) :
    (nameState w).1 = .connection ↔ w = CONNECTION ∨ w = PROXY_CONNECTION := by
  refine ⟨fun h => reads_of_nameState hw h, ?_⟩
  rintro (rfl | rfl) <;> decide

theorem nameState_contentLength (hw : w ≠ []) :
    (nameState w).1 = .contentLength ↔ w = CONTENT_LENGTH := by
  refine ⟨fun h => reads_of_nameState hw h, ?_⟩
  rintro rfl
  decide

theorem nameState_transferEncoding (hw : w ≠ []) :
    (nameState w).1 = .transferEncoding ↔ w = TRANSFER_ENCODING := by
  refine ⟨fun h => reads_of_nameState hw h, ?_⟩
  rintro rfl
  decide

theorem nameState_upgrade (hw : w ≠ []) : (nameState w).1 = .upgrade ↔ w = UPGRADE := by
  refine ⟨fun h => reads_of_nameState hw h, ?_⟩
  rintro rfl
  decide

/-- The flag of a content length is set as soon as a name begins with that of the header. -/
def lengthNamed (w : Str) : Bool := CONTENT_LENGTH.isPrefixOf w

/-- The parser after the letters of a name. -/
def inName (parser : HttpParser) (w : Str) : HttpParser :=
  { parser with
    state := .headerField
    headerState := (nameState w).1
    index := (nameState w).2
    flags := { parser.flags with contentlength := parser.flags.contentlength || lengthNamed w }
    nread := parser.nread + w.length }

theorem lengthNamed_append (w : Str) (c : Byte) :
    lengthNamed (w ++ [c]) = (lengthNamed w || decide (w ++ [c] = CONTENT_LENGTH)) := by
  rw [Bool.eq_iff_iff, Bool.or_eq_true, decide_eq_true_eq, lengthNamed, lengthNamed,
    List.isPrefixOf_iff_prefix, List.isPrefixOf_iff_prefix, List.prefix_concat_iff, or_comm]
  exact or_congr Iff.rfl eq_comm

theorem lengthNamed_singleton (c : Byte) : lengthNamed [c] = false := Bool.and_false _

/-- A name ends as the header that it is the name of. -/
theorem contentLength_last (hw : w ≠ []) (c : Byte) :
    w ++ [c] = CONTENT_LENGTH ↔
      (nameState w).1 = .matchingContentLength ∧ (nameState (w ++ [c])).1 = .contentLength := by
  rw [nameState_contentLength (List.append_ne_nil_of_left_ne_nil hw _)]
  refine ⟨fun h => ⟨?_, h⟩, And.right⟩
  have hw' : w = CONTENT_LENGTH.dropLast := by
    rw [← h, List.dropLast_concat]
  rw [hw']
  decide

theorem Reads.index (h : Reads w x) (hx : x.2 ≤ 17) (c : Byte) : (nameStep x c).2 ≤ 17 := by
  obtain ⟨st, i⟩ := x
  have hwithin {name : Str} (hlen : name.length ≤ 17) (h : i + 1 < name.length) : i + 1 ≤ 17 :=
    h.le.trans hlen
  cases st
  case C | CO | CON => exact hwithin (by decide) h.1.2
  case matchingConnection | matchingProxyConnection | matchingContentLength
      | matchingTransferEncoding | matchingUpgrade => exact hwithin (by decide) h.2
  all_goals exact hx

theorem nameState_index (w : Str) : (nameState w).2 ≤ 17 := by
  induction w using List.reverseRecOn with
  | nil => decide
  | append_singleton w c ih =>
    by_cases hnil : w = []
    · subst hnil
      exact Nat.zero_le _
    · rw [nameState_append hnil]
      exact (reads_nameState hnil).index ih c

theorem isFieldState_nameState (hw : w ≠ []) : isFieldState (nameState w).1 := by
  have hreads := reads_nameState hw
  generalize nameState w = x at hreads
  obtain ⟨st, i⟩ := x
  cases st <;> first | rfl | exact hreads.elim

/-- The loop over a name, by what it does to the header state and the index. -/
theorem headerFieldChar_eq (parser : HttpParser) (hfield : isFieldState parser.headerState)
    (hindex : parser.index < 127) (htoken : token ch ≠ 0) : headerFieldChar parser ch =
      let y := nameStep (parser.headerState, parser.index) (token ch)
      if parser.headerState = .matchingContentLength ∧ y.1 = .contentLength then
        if parser.flags.contentlength then
          fail { parser with index := y.2 } .unexpectedContentLength
        else .next { parser with
          headerState := y.1, index := y.2, flags.contentlength := true }
      else .next { parser with headerState := y.1, index := y.2 } := by
  have hcount : (parser.index + 1) % 128 = parser.index + 1 := Nat.mod_eq_of_lt (by omega)
  have hsp : ch ≠ SP := by
    rintro rfl
    exact htoken (by decide)
  unfold headerFieldChar nextIndex
  rw [hcount]
  obtain ⟨_, _, _, h, i, _, _, _, _, _, _, _, _, _⟩ := parser
  cases h
  case connection | contentLength | transferEncoding | upgrade =>
    refine Eq.symm ((if_neg fun h => by cases h.1).trans ?_)
    dsimp only
    rw [if_pos hsp]
    rfl
  case matchingContentLength =>
    dsimp only
    by_cases hhit : matchName CONTENT_LENGTH (i + 1) (token ch) .general .matchingContentLength
        .contentLength = .contentLength
    · have hboth : HeaderState.matchingContentLength = .matchingContentLength ∧
          matchName CONTENT_LENGTH (i + 1) (token ch) .general .matchingContentLength
            .contentLength = .contentLength := ⟨rfl, hhit⟩
      have hstep : nameStep (.matchingContentLength, i) (token ch) = (.contentLength, i + 1) :=
        Prod.ext hhit rfl
      refine (if_pos hhit).trans (Eq.trans ?_ (if_pos hboth).symm)
      rw [hhit, hstep]
    · exact (if_neg hhit).trans (if_neg fun h => hhit h.2).symm
  case general | C | CO | CON | matchingConnection | matchingProxyConnection
      | matchingTransferEncoding | matchingUpgrade =>
    exact Eq.symm (if_neg fun h => by cases h.1)
  all_goals exact nomatch hfield

/-- One letter more of a name, which has been counted. -/
theorem headerFieldChar_inName (parser : HttpParser) (hw : w ≠ []) (htoken : token ch ≠ 0) :
    headerFieldChar { inName parser w with nread := parser.nread + w.length + 1 } ch =
      if parser.flags.contentlength ∧ w ++ [token ch] = CONTENT_LENGTH then
        fail { inName parser w with
          index := (nameState (w ++ [token ch])).2
          nread := parser.nread + w.length + 1 } .unexpectedContentLength
      else .next (inName parser (w ++ [token ch])) := by
  have hindex : (nameState w).2 < 127 := (nameState_index w).trans_lt (by decide)
  have heq := headerFieldChar_eq { inName parser w with nread := parser.nread + w.length + 1 }
    (isFieldState_nameState hw) hindex htoken
  have hlast : w ++ [token ch] = CONTENT_LENGTH ↔ (nameState w).1 = .matchingContentLength ∧
      (nameStep (nameState w) (token ch)).1 = .contentLength := by
    rw [contentLength_last hw, nameState_append hw]
  have hnread : parser.nread + (w ++ [token ch]).length = parser.nread + w.length + 1 := by
    rw [List.length_append]
    rfl
  refine heq.trans ?_
  change (if (nameState w).1 = .matchingContentLength ∧
    (nameStep (nameState w) (token ch)).1 = .contentLength then _ else _) = _
  by_cases hend : w ++ [token ch] = CONTENT_LENGTH
  · have hno : lengthNamed w = false := by
      rw [lengthNamed, ← hend, Bool.eq_false_iff, Ne, List.isPrefixOf_iff_prefix]
      intro h
      exact absurd h.length_le (by rw [List.length_append]; exact Nat.not_succ_le_self _)
    rw [if_pos (hlast.mp hend)]
    change (if parser.flags.contentlength || lengthNamed w then _ else _) = _
    rw [hno, Bool.or_false]
    by_cases hflag : parser.flags.contentlength = true
    · rw [if_pos hflag, if_pos ⟨hflag, hend⟩, nameState_append hw]
      rfl
    · rw [if_neg hflag, if_neg fun h => hflag h.1, inName, inName, nameState_append hw,
        lengthNamed_append, hnread, decide_eq_true hend, Bool.or_true, Bool.or_true]
  · rw [if_neg fun h => hend (hlast.mpr h), if_neg fun h => hend h.2, inName, inName,
      nameState_append hw, lengthNamed_append, hnread, decide_eq_false hend, Bool.or_false]

/-- The calls with a text, as the machine logs it. -/
def textLog (e : Element) (text : Str) : List Event :=
  .data e [] :: text.map fun c => .data e [c]

theorem textLog_append (e : Element) (text : Str) (c : Byte) :
    textLog e (text ++ [c]) = textLog e text ++ [.data e [c]] := by
  rw [textLog, List.map_append]
  rfl

/-- Where the machine stands after a part of a name. -/
def namePlace (name : Str) : Progress := if name.length = 1 then .fresh else .looping

theorem namePlace_ne (name : Str) : namePlace name ≠ .returned := by
  unfold namePlace
  split <;> decide

theorem step_nameStart (parser : HttpParser) (htoken : token c ≠ 0) (hline : c ≠ CR ∧ c ≠ LF)
    (hn : parser.nread < HTTP_MAX_HEADER_SIZE) (log : List Event) :
    step settings ⟨{ parser with state := .headerFieldStart }, .fresh, log⟩ c =
      .ok ⟨inName parser [token c], .fresh, log ++ textLog .headerField [c]⟩ := by
  refine (step_switch fresh_ne_returned rfl rfl hn c).trans ?_
  change perform c (headerFieldStart settings { parser with
    state := .headerFieldStart, nread := parser.nread + 1 } c) log = _
  rw [headerFieldStart, if_neg hline.1, if_neg hline.2, if_neg htoken, inName,
    lengthNamed_singleton, Bool.or_false]
  exact congrArg (fun log => Except.ok (Stream.mk _ .fresh log)) (List.append_assoc log _ _)

theorem headerField_next {q : HttpParser} (htoken : token c ≠ 0)
    (h : headerFieldChar parser c = .next q) :
    headerField parser c log = .ok ⟨q, .looping, log ++ [.data .headerField [c]]⟩ := by
  rw [headerField, if_neg htoken, h]

theorem headerField_fail {q : HttpParser} {e : HttpErrno} (htoken : token c ≠ 0)
    (h : headerFieldChar parser c = fail q e) :
    headerField parser c log = .error .refused := by
  rw [headerField, if_neg htoken, h]
  rfl

theorem step_letter (parser : HttpParser) (hw : w ≠ []) (htoken : token c ≠ 0)
    (hn : parser.nread + w.length < HTTP_MAX_HEADER_SIZE) {progress : Progress}
    (hprogress : progress ≠ .returned) (log : List Event) :
    step settings ⟨inName parser w, progress, log⟩ c =
      if parser.flags.contentlength ∧ w ++ [token c] = CONTENT_LENGTH then .error .refused
      else .ok ⟨inName parser (w ++ [token c]), .looping, log ++ [.data .headerField [c]]⟩ := by
  have hcount : parser.nread + w.length + 1 ≤ HTTP_MAX_HEADER_SIZE := hn
  refine (step_header c hprogress rfl).trans ((if_neg hcount.not_gt).trans ?_)
  refine (react_headerField rfl).trans ?_
  have hletter := headerFieldChar_inName parser hw htoken
  by_cases hlast : parser.flags.contentlength ∧ w ++ [token c] = CONTENT_LENGTH
  · rw [if_pos hlast] at hletter ⊢
    exact headerField_fail htoken hletter
  · rw [if_neg hlast] at hletter ⊢
    exact headerField_next htoken hletter

/-- A name is accepted but for a second content length. -/
theorem run_name (settings : Settings) (parser : HttpParser) (hname : name ≠ [])
    (htoken : ∀ c ∈ name, token c ≠ 0)
    (hline : ∀ c ∈ name, c ≠ CR ∧ c ≠ LF)
    (hn : parser.nread + name.length ≤ HTTP_MAX_HEADER_SIZE) (log : List Event) :
    SymbolMachine.run (step settings) ⟨{ parser with state := .headerFieldStart }, .fresh, log⟩
        name =
      if parser.flags.contentlength ∧ lengthNamed (name.map token) then .error .refused
      else .ok ⟨inName parser (name.map token), namePlace name,
        log ++ textLog .headerField name⟩ := by
  induction name using List.reverseRecOn with
  | nil => exact absurd rfl hname
  | append_singleton name c ih =>
    rw [List.forall_mem_append, List.forall_mem_singleton] at htoken hline
    rw [List.length_append] at hn
    rw [SymbolMachine.run_append]
    by_cases hnil : name = []
    · subst hnil
      have hno : ¬ (parser.flags.contentlength = true ∧
          lengthNamed (List.map token ([] ++ [c])) = true) := by
        change ¬ (_ ∧ lengthNamed [token c] = true)
        rw [lengthNamed_singleton]
        exact fun h => by cases h.2
      rw [if_neg hno]
      have hroom : parser.nread < HTTP_MAX_HEADER_SIZE := hn
      exact (congrArg (· >>= _) (step_nameStart parser htoken.2 hline.2 hroom log)).trans rfl
    · have hmap : name.map token ≠ [] := fun h => hnil (List.map_eq_nil_iff.mp h)
      have hroom : parser.nread + name.length < HTTP_MAX_HEADER_SIZE := hn
      rw [ih hnil htoken.1 hline.1 hroom.le, List.map_append, List.map_singleton,
        lengthNamed_append, textLog_append]
      by_cases htwice : parser.flags.contentlength ∧ lengthNamed (name.map token)
      · rw [if_pos htwice, htwice.2, Bool.true_or, if_pos ⟨htwice.1, rfl⟩]
        rfl
      · have hplace : namePlace (name ++ [c]) = .looping := by
          rw [namePlace, List.length_append, if_neg]
          exact fun h => hnil (List.length_eq_zero_iff.mp (Nat.succ.inj h))
        rw [if_neg htwice, SymbolMachine.ok_bind, SymbolMachine.run_cons,
          step_letter parser hmap htoken.2 (by rwa [List.length_map]) (namePlace_ne name)]
        by_cases hlast : parser.flags.contentlength ∧ name.map token ++ [token c] = CONTENT_LENGTH
        · rw [if_pos hlast, decide_eq_true hlast.2, Bool.or_true, if_pos ⟨hlast.1, rfl⟩]
          rfl
        · have hno : ¬ (parser.flags.contentlength = true ∧ (lengthNamed (name.map token) ||
              decide (name.map token ++ [token c] = CONTENT_LENGTH)) = true) := by
            rintro ⟨hflag, h⟩
            rcases (Bool.or_eq_true _ _).mp h with h | h
            · exact htwice ⟨hflag, h⟩
            · exact hlast ⟨hflag, of_decide_eq_true h⟩
          rw [if_neg hlast, if_neg hno, hplace, SymbolMachine.ok_bind, List.append_assoc]
          rfl

theorem step_colon (settings : Settings) (parser : HttpParser) (w : Str)
    (hn : parser.nread + w.length < HTTP_MAX_HEADER_SIZE) {progress : Progress}
    (hprogress : progress ≠ .returned) (log : List Event) :
    step settings ⟨inName parser w, progress, log⟩ (char ':') =
      .ok ⟨{ inName parser w with
        state := .headerValueDiscardWs, nread := parser.nread + (w.length + 1) }, .fresh, log⟩ := by
  have hcount : parser.nread + w.length + 1 ≤ HTTP_MAX_HEADER_SIZE := hn
  refine (step_header _ hprogress rfl).trans ((if_neg hcount.not_gt).trans ?_)
  refine (react_headerField rfl).trans ?_
  rw [headerField, if_pos (by decide), if_pos rfl]
  exact congrArg (fun log => Except.ok (Stream.mk _ .fresh log)) (List.append_nil log)

/-- The names, in lower case, of the headers that the parser looks into. -/
def headerNames : HeaderState → List Str
  | .connection => [CONNECTION, PROXY_CONNECTION]
  | .contentLength => [CONTENT_LENGTH]
  | .transferEncoding => [TRANSFER_ENCODING]
  | .upgrade => [UPGRADE]
  | _ => []

theorem nameState_headerNames {h : HeaderState} (hknown : headerNames h ≠ []) (hw : w ≠ []) :
    (nameState w).1 = h ↔ w ∈ headerNames h := by
  cases h
  case connection => exact (nameState_connection hw).trans (by simp [headerNames])
  case contentLength => exact (nameState_contentLength hw).trans List.mem_singleton.symm
  case transferEncoding => exact (nameState_transferEncoding hw).trans List.mem_singleton.symm
  case upgrade => exact (nameState_upgrade hw).trans List.mem_singleton.symm
  all_goals exact absurd rfl hknown

theorem nul_not_mem_headerNames {h : HeaderState} (hw : w ∈ headerNames h) :
    w ≠ [] ∧ (0 : Byte) ∉ w := by
  have hall : ∀ h ∈ [HeaderState.connection, .contentLength, .transferEncoding, .upgrade],
      ∀ w ∈ headerNames h, w ≠ [] ∧ (0 : Byte) ∉ w := by decide
  refine hall h ?_ w hw
  cases h <;> first | decide | exact absurd hw List.not_mem_nil

theorem token_of_start (hstate : s.parser.state = .headerFieldStart) (hline : c ≠ CR ∧ c ≠ LF)
    (hstep : step settings s c = .ok s') : token c ≠ 0 := by
  intro htoken
  have hperform := step_switch_ok (by rw [hstate]; rfl) (by rw [hstate]; rfl) hstep
  have hstate' : ({ s.parser with nread := s.parser.nread + 1 } : HttpParser).state =
    .headerFieldStart := hstate
  rw [switch, hstate'] at hperform
  dsimp only at hperform
  rw [headerFieldStart, if_neg hline.1, if_neg hline.2, if_pos htoken,
    HttpParserMethods.perform_fail invalidHeaderToken_ne] at hperform
  cases hperform

theorem token_of_letter (hstate : s.parser.state = .headerField) (hcolon : c ≠ char ':')
    (hstep : step settings s c = .ok s') : token c ≠ 0 := by
  intro htoken
  have hprogress : s.progress ≠ .returned := by
    intro hreturned
    rw [step, if_pos hreturned] at hstep
    cases hstep
  rw [step_header c hprogress (by rw [hstate]; rfl)] at hstep
  split at hstep
  · cases hstep
  · have hstate' : ({ s.parser with nread := s.parser.nread + 1 } : HttpParser).state =
      .headerField := hstate
    rw [react_headerField hstate', headerField, if_pos htoken, if_neg hcolon] at hstep
    cases hstep

/-- What is read as a name are tokens. -/
theorem token_of_run (hfresh : s.progress = .fresh) (hstate : s.parser.state = .headerFieldStart)
    (hcolon : char ':' ∉ name) (hline : ∀ c ∈ name, c ≠ CR ∧ c ≠ LF)
    (hn : s.parser.nread + name.length ≤ HTTP_MAX_HEADER_SIZE)
    (hrun : SymbolMachine.run (step settings) s name = .ok s') : ∀ c ∈ name, token c ≠ 0 := by
  induction name using List.reverseRecOn generalizing s' with
  | nil => exact List.forall_mem_nil _
  | append_singleton name c ih =>
    rw [List.forall_mem_append, List.forall_mem_singleton] at hline ⊢
    rw [List.mem_append, not_or, List.mem_singleton] at hcolon
    rw [List.length_append] at hn
    have hroom : s.parser.nread + name.length < HTTP_MAX_HEADER_SIZE := hn
    obtain ⟨t, ht, hlast⟩ := SymbolMachine.run_append_ok.mp hrun
    obtain ⟨u, hu, hnil⟩ := SymbolMachine.run_cons_ok.mp hlast
    cases hnil
    have htoken := ih hcolon.1 hline.1 hroom.le ht
    refine ⟨htoken, ?_⟩
    by_cases hnil : name = []
    · subst hnil
      cases ht
      exact token_of_start hstate hline.2 hu
    · have heta : s = ⟨{ s.parser with state := .headerFieldStart }, .fresh, s.log⟩ := by
        rw [← hstate, ← hfresh]
      rw [heta, run_name settings s.parser hnil htoken hline.1 hroom.le s.log] at ht
      split at ht
      · cases ht
      · cases ht
        exact token_of_letter rfl (Ne.symm hcolon.2) hu

/-- A name that ends at the colon is accepted as one of the headers that the parser looks into
exactly if it is, in any case, a name of that header, and not a second content length. -/
theorem headerName_iff (hfresh : s.progress = .fresh)
    (hstate : s.parser.state = .headerFieldStart) (hcolon : char ':' ∉ name)
    (hline : ∀ c ∈ name, c ≠ CR ∧ c ≠ LF)
    (hn : s.parser.nread + name.length < HTTP_MAX_HEADER_SIZE) {h : HeaderState}
    (hknown : headerNames h ≠ []) :
    (∃ s', SymbolMachine.run (step settings) s (name ++ [char ':']) = .ok s' ∧
        s'.parser.state = .headerValueDiscardWs ∧ s'.parser.headerState = h) ↔
      name.map token ∈ headerNames h ∧
        ¬ (s.parser.flags.contentlength ∧ CONTENT_LENGTH <+: name.map token) := by
  have heta : s = ⟨{ s.parser with state := .headerFieldStart }, .fresh, s.log⟩ := by
    rw [← hstate, ← hfresh]
  have hrun (hnil : name ≠ []) (htoken : ∀ c ∈ name, token c ≠ 0) :=
    run_name settings s.parser hnil htoken hline hn.le s.log
  constructor
  · rintro ⟨s', hs', hvalue, hs⟩
    obtain ⟨t, ht, hlast⟩ := SymbolMachine.run_append_ok.mp hs'
    obtain ⟨u, hu, hend⟩ := SymbolMachine.run_cons_ok.mp hlast
    cases hend
    have htoken := token_of_run hfresh hstate hcolon hline hn.le ht
    have hnil : name ≠ [] := by
      rintro rfl
      cases ht
      exact absurd (token_of_start hstate (by decide) hu) (by decide)
    rw [heta, hrun hnil htoken] at ht
    split at ht
    · cases ht
    · rename_i htwice
      cases ht
      rw [step_colon settings s.parser _ (by rwa [List.length_map]) (namePlace_ne name)] at hu
      cases hu
      rw [lengthNamed, List.isPrefixOf_iff_prefix] at htwice
      exact ⟨(nameState_headerNames hknown fun h => hnil (List.map_eq_nil_iff.mp h)).mp hs, htwice⟩
  · rintro ⟨hmem, htwice⟩
    obtain ⟨hne, hnul⟩ := nul_not_mem_headerNames hmem
    have hnil : name ≠ [] := fun h => hne (List.map_eq_nil_iff.mpr h)
    have htoken : ∀ c ∈ name, token c ≠ 0 := fun c hc h => hnul (h ▸ List.mem_map_of_mem hc)
    rw [← List.isPrefixOf_iff_prefix, ← lengthNamed] at htwice
    have hname := (hrun hnil htoken).trans (if_neg htwice)
    rw [← heta] at hname
    have hcolon := step_colon settings s.parser (name.map token)
      (by rwa [List.length_map]) (namePlace_ne name) (s.log ++ textLog .headerField name)
    exact ⟨_, SymbolMachine.run_append_ok.mpr ⟨_, hname,
      SymbolMachine.run_cons_ok.mpr ⟨_, hcolon, rfl⟩⟩, rfl,
        (nameState_headerNames hknown hne).mpr hmem⟩

/-- A content length in letters of both cases. -/
theorem headerName_iff_contentLength : ∃ s', SymbolMachine.run (step willing)
      ⟨{ httpParserInit .request with state := .headerFieldStart }, .fresh, []⟩
      (chars ['C', 'o', 'n', 't', 'e', 'n', 't', '-', 'L', 'e', 'n', 'g', 't', 'h'] ++
        [char ':']) = .ok s' ∧
    s'.parser.state = .headerValueDiscardWs ∧ s'.parser.headerState = .contentLength :=
  (headerName_iff rfl rfl (by decide) (by decide) (by decide) (by decide)).mpr
    ⟨by decide, by decide⟩

end HttpParserNames
