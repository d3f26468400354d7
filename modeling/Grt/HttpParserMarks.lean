import Grt.HttpParserMachine
import Grt.HttpParserSound

/-! The marks of an execution against the log of the machine that reads one character at a time,
and how an execution and the machine go on together from a character to the end of a buffer. -/
namespace HttpParserMarks

open LittleEndian HttpParserState HttpParserSwitch HttpParserSound PieceStream
open HttpParserExecute hiding headerField headerValue bodyIdentity chunkData perform
open HttpParserMachine hiding headerField headerValue bodyIdentity chunkData perform

/-- At most one mark. -/
def single (o : Option (Element × ℕ)) : Element → Option ℕ := fun e =>
  o.bind fun x => if x.1 = e then some x.2 else none

/-- What has been marked and not yet been handed over. -/
def pending (data : Str) (o : Option (Element × ℕ)) (p : ℕ) : List Event :=
  match o with
  | none => []
  | some (e, m) => [.data e (slice data m p)]

variable {settings : Settings} {data : Str} {pre log : List Event} {o : Option (Element × ℕ)}
  {l : Loop} {s : Stream} {ch : Byte} {b : Bool} {e : Element} {m p consumed : ℕ}

/-- Handed over and pending, the texts are what the machine has logged. -/
structure Mid (data : Str) (pre : List Event) (o : Option (Element × ℕ)) (l : Loop)
    (log : List Event) : Prop where
  mark : l.mark = single o
  le : ∀ e m, o = some (e, m) → m ≤ l.p
  same : Same (pre ++ l.events ++ pending data o l.p) log

theorem slice_self (data : Str) (p : ℕ) : slice data p p = [] := by
  rw [slice, Nat.sub_self, List.take_zero]

theorem slice_succ (hm : m ≤ p) (hch : data[p]? = some ch) :
    slice data m (p + 1) = slice data m p ++ [ch] := by
  have hp : (data.drop m)[p - m]? = some ch := by
    rw [List.getElem?_drop, Nat.add_sub_cancel' hm, hch]
  rw [slice, slice, Nat.succ_sub hm, List.take_add_one, hp]
  rfl

theorem update_single_none (e : Element) (m : ℕ) :
    Function.update (single none) e (some m) = single (some (e, m)) := by
  funext e'
  rw [Function.update_apply, single, single]
  by_cases h : e' = e
  · simp [h]
  · simp [h, Ne.symm h]

theorem update_single_some (e : Element) (m : ℕ) :
    Function.update (single (some (e, m))) e none = single none := by
  funext e'
  rw [Function.update_apply, single, single]
  by_cases h : e' = e
  · simp [h]
  · simp [h, Ne.symm h]

theorem Mid.setMark_eq (h : Mid data pre none l log) (e : Element) :
    l.setMark e = { l with mark := single (some (e, l.p)) } := by
  rw [Loop.setMark, h.mark, update_single_none]
  rfl

theorem Mid.setMark (h : Mid data pre none l log) (e : Element) :
    Mid data pre (some (e, l.p)) (l.setMark e) (log ++ [.data e []]) := by
  have hset := h.setMark_eq e
  refine ⟨by rw [hset], ?_, ?_⟩
  · rintro e' m' heq
    cases heq
    exact hset ▸ le_rfl
  · have hsame := h.same
    rw [pending, List.append_nil] at hsame
    rw [hset, pending, slice_self]
    exact hsame.append (.refl _)

theorem Mid.parser (h : Mid data pre o l log) (parser : HttpParser) :
    Mid data pre o { l with parser } log := ⟨h.mark, h.le, h.same⟩

theorem Mid.move (h : Mid data pre o l log) {l' : Loop} (hmark : l'.mark = l.mark)
    (hp : l'.p = l.p) (hevents : l'.events = l.events) : Mid data pre o l' log :=
  ⟨hmark.trans h.mark, hp ▸ h.le, hp ▸ hevents ▸ h.same⟩

theorem Mid.move_none (h : Mid data pre none l log) {l' : Loop} (hmark : l'.mark = l.mark)
    (hevents : l'.events = l.events) : Mid data pre none l' log :=
  ⟨hmark.trans h.mark, nofun, hevents ▸ h.same⟩

theorem Mid.call (h : Mid data pre none l log) (n : Notify) :
    Mid data pre none { l with events := l.events ++ [.notify n] } (log ++ [.notify n]) := by
  refine ⟨h.mark, nofun, ?_⟩
  have hsame := h.same
  rw [pending, List.append_nil] at hsame ⊢
  rw [← List.append_assoc]
  exact hsame.append (.refl _)

/-- Every callback for a text is there and succeeds. -/
def DataOk (settings : Settings) : Prop := ∀ e, settings.onData e = some 0

theorem callbackData_single (hmark : l.mark = single (some (e, m))) (hs : DataOk settings)
    (hok : l.parser.httpErrno = .ok) (extra : ℕ) :
    HttpParserExecute.callbackData settings data e extra consumed l = .ok { l with
      mark := single none, events := l.events ++ [.data e (slice data m (l.p + extra))] } := by
  have hmarked : l.mark e = some m := by simp [hmark, single]
  rw [HttpParserExecute.callbackData, hmarked, hs e, if_neg (not_not.mpr hok), hmark]
  simp only [update_single_some]
  rfl

theorem Mid.handOver (h : Mid data pre (some (e, m)) l log) :
    Mid data pre none
      { l with mark := single none, events := l.events ++ [.data e (slice data m l.p)] } log := by
  refine ⟨rfl, nofun, ?_⟩
  rw [pending, List.append_nil, ← List.append_assoc]
  exact h.same

/-- A text that begins here is marked, and goes on up to `q`. -/
theorem Mid.take (h : Mid data pre none l log) (e : Element) {q : ℕ} (hq : l.p < q)
    (hle : q ≤ data.length) {t : Loop} (hmark : t.mark = single (some (e, l.p)))
    (hp : t.p = q) (hevents : t.events = l.events) :
    Mid data pre (some (e, l.p)) t (log ++ (slice data l.p q).map fun c => .data e [c]) := by
  refine ⟨hmark, ?_, ?_⟩
  · rintro e' m' heq
    cases heq
    exact hp ▸ hq.le
  · have hsame := h.same
    rw [pending, List.append_nil] at hsame
    rw [hevents, hp]
    refine hsame.append (same_singletons fun hnil => ?_)
    have hlen := congrArg List.length hnil
    rw [slice, List.length_take, List.length_drop, List.length_nil] at hlen
    omega

theorem Mid.callbackData_none (h : Mid data pre none l log) (hok : l.parser.httpErrno = .ok)
    (extra : ℕ) :
    HttpParserExecute.callbackData settings data e extra consumed l = .ok l := by
  have hmark : l.mark e = none := by rw [h.mark]; rfl
  rw [HttpParserExecute.callbackData, hmark, if_neg (not_not.mpr hok)]

/-- An execution and the machine between two characters. At the end of the buffer any one text may
be marked. -/
structure Between (data : Str) (pre : List Event) (b : Bool) (l : Loop) (s : Stream) : Prop where
  parser : l.parser = s.parser
  progress : s.progress = .fresh
  sound : Sound b 0 s.parser
  le : l.p ≤ data.length
  mid : ∃ o, (l.p < data.length → Opens s.parser.state (o.map Prod.fst)) ∧ Mid data pre o l s.log

/-- The same result for the characters before `q`, or a refusal by both. -/
inductive Agrees (data : Str) (pre : List Event) (b : Bool) (q : ℕ) :
    Except Exit Loop → Except Refusal Stream → Prop where
  | next {l : Loop} {s : Stream} : l.p + 1 = q → Between data pre b l.advance s →
      Agrees data pre b q (.ok l) (.ok s)
  | returned {r : Result} {s : Stream} : r.returned = q → r.parser = s.parser →
      s.progress = .returned → Upgraded s.parser → Sound b 0 s.parser →
      Same (pre ++ r.events) s.log →
      Agrees data pre b q (.error (.returned r)) (.ok s)
  | refused {r : Result} {e : Refusal} : r.parser.httpErrno ≠ .ok →
      Agrees data pre b q (.error (.returned r)) (.error e)

/-- The marks and the log after a character, which belongs to the text that is open. -/
theorem Mid.advance (h : Mid data pre o l log) (hch : data[l.p]? = some ch) :
    Mid data pre o l.advance (log ++ (o.map fun x => Item.data x.1 [ch]).toList) := by
  refine ⟨h.mark, fun e m heq => (h.le e m heq).trans (Nat.le_succ _), ?_⟩
  cases o with
  | none =>
    have hsame := h.same
    rw [Option.map_none, Option.toList_none, List.append_nil]
    exact hsame
  | some x =>
    obtain ⟨e, m⟩ := x
    have hsame := h.same
    rw [pending] at hsame ⊢
    change Same (pre ++ l.events ++ [.data e (slice data m (l.p + 1))]) (log ++ [.data e [ch]])
    rw [slice_succ (h.le e m rfl) hch]
    exact hsame.extend

theorem Mid.advance_none (h : Mid data pre none l log) : Mid data pre none l.advance log :=
  ⟨h.mark, nofun, h.same⟩

theorem logged_eq {st : State} {el : Option Element} (h : el = openElement st) :
    logged st ch = (el.map fun e => Item.data e [ch]).toList := by
  rw [logged, ← h]
  cases el <;> rfl

/-- What a case does to marks and calls, it does to the log. -/
theorem perform_agrees (hs : DataOk settings) (step : Step) {l : Loop} {log : List Event}
    {o : Option (Element × ℕ)} (hfits : Fits b (o.map Prod.fst) step) (hmid : Mid data pre o l log)
    (hch : data[l.p]? = some ch) :
    Agrees data pre b (l.p + 1) (HttpParserExecute.perform settings data step l)
      (HttpParserMachine.perform ch step log) := by
  induction step generalizing l log o with
  | next parser =>
    obtain ⟨ho, hsound⟩ := hfits
    refine .next rfl ⟨rfl, rfl, hsound, ?_, o, fun _ => .inl ho, ?_⟩
    · exact (List.getElem?_eq_some_iff.mp hch).1
    · have := (hmid.parser parser).advance hch
      rw [logged_eq ho, Option.map_map]
      exact this
  | exit parser consumed =>
    rw [HttpParserExecute.perform, HttpParserMachine.perform]
    by_cases hok : parser.httpErrno = .ok
    · obtain ⟨ho, hconsumed, hupgraded, hsound⟩ := hfits hok
      rw [Option.map_eq_none_iff] at ho
      subst ho
      have hsame := hmid.same
      rw [pending, List.append_nil] at hsame
      rw [if_pos hok, hconsumed]
      exact .returned rfl rfl rfl hupgraded hsound hsame
    · rw [if_neg hok]
      exact .refused hok
  | abort => exact hfits.elim
  | mark e rest ih =>
    obtain ⟨ho, hrest⟩ := hfits
    rw [Option.map_eq_none_iff] at ho
    subst ho
    have hp : (l.setMark e).p = l.p := by
      rw [Loop.setMark]
      split <;> rfl
    rw [HttpParserExecute.perform, HttpParserMachine.perform, ← hp]
    exact ih (o := some (e, l.p)) hrest (hmid.setMark e) (hp ▸ hch)
  | data e parser consumed rest ih =>
    obtain ⟨ho, hok, hrest⟩ := hfits
    rw [HttpParserExecute.perform, HttpParserMachine.perform]
    match o, ho with
    | none, _ =>
      rw [(hmid.parser parser).callbackData_none hok]
      exact ih (o := none) hrest (hmid.parser parser) hch
    | some (e', m), .inl ho =>
      cases ho
      rw [callbackData_single (hmid.parser parser).mark hs hok]
      exact ih (o := none) hrest (hmid.parser parser).handOver hch
  | call n rest ih =>
    obtain ⟨ho, hrest⟩ := hfits
    rw [Option.map_eq_none_iff] at ho
    subst ho
    rw [HttpParserExecute.perform, HttpParserMachine.perform]
    exact ih (o := none) hrest (hmid.call n) hch

/-- An execution that reads the whole buffer, and what the machine does with it. -/
inductive Ends (data : Str) (pre : List Event) (b : Bool) :
    Except Exit Loop → Except Refusal Stream → Prop where
  | consumed {l : Loop} {s : Stream} : l.parser = s.parser → s.progress = .fresh →
      Sound b 0 s.parser → Same (pre ++ l.events) s.log → Ends data pre b (.ok l) (.ok s)
  | returned {r : Result} {s : Stream} : r.returned = data.length → r.parser = s.parser →
      s.progress = .fresh → Upgraded s.parser → Sound b 0 s.parser →
      Same (pre ++ r.events) s.log → Ends data pre b (.error (.returned r)) (.ok s)
  | early {r : Result} {e : Refusal} : r.returned < data.length → r.parser.httpErrno = .ok →
      Ends data pre b (.error (.returned r)) (.error e)
  | refused {r : Result} {e : Refusal} : r.parser.httpErrno ≠ .ok →
      Ends data pre b (.error (.returned r)) (.error e)

theorem feed_nil (s : Stream) : feed settings [] s = endBuffer s := rfl

theorem feed_cons (ch : Byte) (rest : Str) (s : Stream) :
    feed settings (ch :: rest) s = (step settings s ch >>= feed settings rest) := by
  rw [feed, SymbolMachine.run_cons]
  cases step settings s ch <;> rfl

theorem feed_append (xs ys : Str) (s : Stream) :
    feed settings (xs ++ ys) s =
      (SymbolMachine.run (step settings) s xs >>= feed settings ys) := by
  rw [feed, SymbolMachine.run_append]
  cases SymbolMachine.run (step settings) s xs <;> rfl

/-- The rest of an execution, which agrees with the machine from any later character on. -/
def Continues (settings : Settings) (data : Str) (pre : List Event) (b : Bool) (p : ℕ)
    (k : Loop → Except Exit Loop) : Prop :=
  ∀ (l : Loop) (s : Stream), p ≤ l.p → Between data pre b l.advance s →
    Ends data pre b (k l) (feed settings (data.drop (l.p + 1)) s)

theorem Agrees.ends {x : Except Exit Loop} {y : Except Refusal Stream} {q : ℕ}
    {k : Loop → Except Exit Loop} (h : Agrees data pre b q x y) (hq : q ≤ data.length)
    (hp : p < q) (hk : Continues settings data pre b p k) :
    Ends data pre b (x >>= k) (y >>= feed settings (data.drop q)) := by
  cases h with
  | next hlq hb =>
    subst hlq
    exact hk _ _ (Nat.le_of_lt_succ hp) hb
  | @returned r s hr hparser hprogress hupgraded hsound hsame =>
    change Ends data pre b (.error (.returned r)) (feed settings (data.drop q) s)
    rcases hq.eq_or_lt with hq | hq
    · rw [hq, List.drop_length, feed_nil, endBuffer, hprogress]
      exact .returned (hr.trans hq) hparser rfl hupgraded hsound hsame
    · rw [List.drop_eq_getElem_cons hq, feed_cons, step, if_pos hprogress]
      exact .early (hr ▸ hq) (hparser ▸ hsound.ok)
  | refused hr => exact .refused hr

theorem count_eq {v : ℕ} (l : Loop) (h : l.parser.nread + v < 2 ^ 32) :
    l.count v = if HTTP_MAX_HEADER_SIZE < l.parser.nread + v then
        .error (l.fail { l.parser with nread := l.parser.nread + v } .headerOverflow)
      else .ok { l with parser.nread := l.parser.nread + v } := by
  rw [Loop.count, Nat.mod_eq_of_lt h]

theorem step_header (ch : Byte) (hprogress : s.progress ≠ .returned)
    (hs : parsingHeader s.parser.state) : step settings s ch =
      if HTTP_MAX_HEADER_SIZE < s.parser.nread + 1 then .error .refused
      else react settings { s.parser with nread := s.parser.nread + 1 }
        (s.progress = .skipping) ch s.log := by
  rw [step, if_neg hprogress, if_pos hs, countByte]
  split <;> rfl

theorem step_body (ch : Byte) (hprogress : s.progress ≠ .returned)
    (hs : parsingHeader s.parser.state = false) : step settings s ch =
      react settings s.parser (s.progress = .skipping) ch s.log := by
  rw [step, if_neg hprogress, hs]
  rfl

end HttpParserMarks
