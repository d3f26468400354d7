import Grt.LittleEndian
import Mathlib.Data.Option.Basic
import Mathlib.Logic.Function.Basic

/-! `chttp.parse`: the callbacks that `http_parser_execute` makes fill a result table, which is
kept between the fragments of a request. The parser hands each element over in pieces. -/
namespace HttpParse

open LittleEndian

abbrev Str := List Byte

/-- The entries of the result table that the callbacks of a request use. -/
structure Result where
  URL : Option Str
  lastField : Option Str
  Head : Option (Str → Option Str)
  Body : Option Str

def newResult : Result := ⟨none, none, none, none⟩

inductive Callback where
  | onUrl (data : Str)
  | onHeaderField (data : Str)
  | onHeaderValue (data : Str)
  | onBody (data : Str)

def urlCb (t : Result) (data : Str) : Result := { t with URL := some data }

def headerFieldCb (t : Result) (data : Str) : Result := { t with lastField := some data }

/-- `head[Response[last_field]] = data`, in a new table if there is none. -/
def headerValueCb (t : Result) (data : Str) : Except String Result :=
  let head := t.Head.getD fun _ => none
  match t.lastField with
  | none => .error "table index is nil"
  | some field =>
    .ok { t with Head := some (Function.update head field (some data)), lastField := none }

def bodyCb (t : Result) (data : Str) : Result := { t with Body := some data }

def Callback.run (t : Result) : Callback → Except String Result
  | .onUrl data => .ok (urlCb t data)
  | .onHeaderField data => .ok (headerFieldCb t data)
  | .onHeaderValue data => headerValueCb t data
  | .onBody data => .ok (bodyCb t data)

/-- `l_parse_http` for a fragment on which the parser makes these calls. -/
def lParseHttp (t : Result) (calls : List Callback) : Except String Result :=
  calls.foldlM Callback.run t

def parseFragments (t : Result) (fragments : List (List Callback)) : Except String Result :=
  fragments.foldlM lParseHttp t

structure Request where
  url : Str
  headers : List (Str × Str)
  body : Option Str

/-- The elements of a request, each as the pieces that its callback is called with. -/
structure Pieces where
  url : List Str
  headers : List (List Str × List Str)
  body : Option (List Str)

def PiecesOf (pieces : List Str) (element : Str) : Prop :=
  pieces ≠ [] ∧ pieces.flatten = element

/-- What is assumed of `http_parser`. -/
structure Pieces.Of (p : Pieces) (request : Request) : Prop where
  url : PiecesOf p.url request.url
  headers : List.Forall₂ (fun h e => PiecesOf h.1 e.1 ∧ PiecesOf h.2 e.2) p.headers request.headers
  body : Option.Rel PiecesOf p.body request.body

def headerCalls (h : List Str × List Str) : List Callback :=
  h.1.map .onHeaderField ++ h.2.map .onHeaderValue

def Pieces.calls (p : Pieces) : List Callback :=
  p.url.map .onUrl ++ p.headers.flatMap headerCalls ++ (p.body.getD []).map .onBody

/-- Neither feed raises an error, and they leave the same entries. -/
def SameResult (fragments : List (List Callback)) (whole : List Callback) : Prop :=
  ∃ t u, parseFragments newResult fragments = .ok t ∧ parseFragments newResult [whole] = .ok u ∧
    t.URL = u.URL ∧ t.Head = u.Head ∧ t.Body = u.Body

/-- Where the last piece of an element begins in it. -/
def lastCut (pieces : List Str) : ℕ := pieces.dropLast.flatten.length

/-- The value of the last header whose name ends with the piece `k`. -/
def headerValue (headers : List (List Str × List Str)) (k : Str) : Option Str :=
  (headers.reverse.find? fun h => h.1.getLast? = some k).map fun h => h.2.flatten

def ValuesWhole (headers : List (List Str × List Str)) : Prop := ∀ h ∈ headers, h.2.length = 1

/-- Every header value is one piece, the last pieces of the URL and of the body begin at the same
place in both feeds, and each last piece of a name has the same value in both. -/
structure Aligned (cut whole : Pieces) : Prop where
  values : ValuesWhole cut.headers ∧ ValuesWhole whole.headers
  url : lastCut cut.url = lastCut whole.url
  body : cut.body.map lastCut = whole.body.map lastCut
  fields : ∀ k, headerValue cut.headers k = headerValue whole.headers k

variable {t u : Result} {p cut whole : Pieces} {request : Request}

theorem lParseHttp_append (t : Result) (a b : List Callback) :
    lParseHttp t (a ++ b) = lParseHttp t a >>= fun t => lParseHttp t b :=
  List.foldlM_append

/-- How the calls are spread over the fragments does not matter. -/
theorem parseFragments_eq (t : Result) (fragments : List (List Callback)) :
    parseFragments t fragments = lParseHttp t fragments.flatten := by
  induction fragments generalizing t with
  | nil => rfl
  | cons calls fragments ih =>
    rw [parseFragments, List.foldlM_cons, List.flatten_cons, lParseHttp_append]
    congr 1
    funext t
    exact ih t

/-- A callback that overwrites its entry keeps the last piece only. -/
theorem lParseHttp_overwrite {call : Str → Callback} (put : Result → Str → Result)
    (hcall : ∀ t x, (call x).run t = .ok (put t x))
    (hput : ∀ t x y, put (put t x) y = put t y) (t : Result) {pieces : List Str}
    (h : pieces ≠ []) : lParseHttp t (pieces.map call) = .ok (put t (pieces.getLast h)) := by
  induction pieces generalizing t with
  | nil => exact absurd rfl h
  | cons x pieces ih =>
    rw [List.map_cons, lParseHttp, List.foldlM_cons, hcall]
    cases pieces with
    | nil => rfl
    | cons y pieces =>
      refine (ih (put t x) (List.cons_ne_nil _ _)).trans ?_
      rw [hput, List.getLast_cons_cons]

theorem lParseHttp_url (t : Result) {pieces : List Str} (h : pieces ≠ []) :
    lParseHttp t (pieces.map .onUrl) = .ok { t with URL := pieces.getLast? } := by
  rw [lParseHttp_overwrite urlCb (fun _ _ => rfl) (fun _ _ _ => rfl) t h,
    List.getLast?_eq_some_getLast h]
  rfl

theorem lParseHttp_field (t : Result) {pieces : List Str} (h : pieces ≠ []) :
    lParseHttp t (pieces.map .onHeaderField) = .ok { t with lastField := pieces.getLast? } := by
  rw [lParseHttp_overwrite headerFieldCb (fun _ _ => rfl) (fun _ _ _ => rfl) t h,
    List.getLast?_eq_some_getLast h]
  rfl

theorem lParseHttp_body (t : Result) {pieces : List Str} (h : pieces ≠ []) :
    lParseHttp t (pieces.map .onBody) = .ok { t with Body := pieces.getLast? } := by
  rw [lParseHttp_overwrite bodyCb (fun _ _ => rfl) (fun _ _ _ => rfl) t h,
    List.getLast?_eq_some_getLast h]
  rfl

variable {h : List Str × List Str} {headers : List (List Str × List Str)}

/-- No name and no value is without a piece. -/
def HeadersGiven (headers : List (List Str × List Str)) : Prop :=
  ∀ h ∈ headers, h.1 ≠ [] ∧ h.2 ≠ []

/-- The entry `Head` that these headers make in a new result table. -/
def headTable (headers : List (List Str × List Str)) : Option (Str → Option Str) :=
  if headers = [] then none else some (headerValue headers)

theorem headerValue_append (headers : List (List Str × List Str)) (h : List Str × List Str)
    (k : Str) : headerValue (headers ++ [h]) k =
      if h.1.getLast? = some k then some h.2.flatten else headerValue headers k := by
  rw [headerValue, List.reverse_append, List.reverse_singleton, List.singleton_append,
    List.find?_cons]
  by_cases hk : h.1.getLast? = some k
  · simp [hk]
  · simp [hk, headerValue]

/-- The first piece of a value takes the name away. -/
theorem lParseHttp_value_split (t : Result) (x y : Str) (pieces : List Str) :
    ∃ e, lParseHttp t ((x :: y :: pieces).map .onHeaderValue) = .error e := by
  simp only [List.map_cons, lParseHttp, List.foldlM_cons, Callback.run, headerValueCb]
  cases t.lastField with
  | none => exact ⟨_, rfl⟩
  | some field => exact ⟨_, rfl⟩

theorem lParseHttp_header_whole (hname : h.1 ≠ []) (hvalue : h.2.length = 1)
    (hhead : t.Head = headTable headers) :
    lParseHttp t (headerCalls h) =
      .ok { t with Head := headTable (headers ++ [h]), lastField := none } := by
  obtain ⟨x, hx⟩ := List.length_eq_one_iff.mp hvalue
  rw [headerCalls, lParseHttp_append, lParseHttp_field t hname, hx]
  have hold : (t.Head.getD fun _ => none) = headerValue headers := by
    rw [hhead, headTable]
    split
    · rename_i hnil
      subst hnil
      rfl
    · rfl
  have hnew : Function.update (headerValue headers) (h.1.getLast hname) (some x) =
      headerValue (headers ++ [h]) := by
    funext k
    rw [headerValue_append, List.getLast?_eq_some_getLast hname, Function.update_apply, hx]
    simp [eq_comm]
  have hcons : headers ++ [h] ≠ [] := List.append_ne_nil_of_right_ne_nil _ (List.cons_ne_nil _ _)
  rw [headTable, if_neg hcons, ← hnew, ← hold, List.getLast?_eq_some_getLast hname]
  rfl

theorem lParseHttp_header_split (t : Result) (hname : h.1 ≠ []) (hgiven : h.2 ≠ [])
    (hvalue : h.2.length ≠ 1) : ∃ e, lParseHttp t (headerCalls h) = .error e := by
  rw [headerCalls, lParseHttp_append, lParseHttp_field t hname]
  match hpieces : h.2 with
  | [] => exact absurd hpieces hgiven
  | [x] => exact absurd (congrArg List.length hpieces) hvalue
  | x :: y :: pieces => exact lParseHttp_value_split _ x y pieces

theorem lParseHttp_headers_whole (hhead : t.Head = none) (hfield : t.lastField = none)
    (hgiven : HeadersGiven headers) (hwhole : ValuesWhole headers) :
    lParseHttp t (headers.flatMap headerCalls) = .ok { t with Head := headTable headers } := by
  induction headers using List.reverseRecOn with
  | nil =>
    rw [headTable, if_pos rfl, ← hhead]
    rfl
  | append_singleton headers h ih =>
    rw [HeadersGiven, List.forall_mem_append, List.forall_mem_singleton] at hgiven
    rw [ValuesWhole, List.forall_mem_append, List.forall_mem_singleton] at hwhole
    rw [List.flatMap_append, List.flatMap_singleton, lParseHttp_append, ih hgiven.1 hwhole.1]
    refine (lParseHttp_header_whole hgiven.2.1 hwhole.2 rfl).trans ?_
    rw [← hfield]

theorem lParseHttp_headers_split (t : Result) (hgiven : HeadersGiven headers)
    (hsplit : ¬ ValuesWhole headers) :
    ∃ e, lParseHttp t (headers.flatMap headerCalls) = .error e := by
  induction headers generalizing t with
  | nil => exact absurd (List.forall_mem_nil _) hsplit
  | cons h headers ih =>
    rw [HeadersGiven, List.forall_mem_cons] at hgiven
    rw [ValuesWhole, List.forall_mem_cons, not_and_or] at hsplit
    rw [List.flatMap_cons, lParseHttp_append]
    cases hhead : lParseHttp t (headerCalls h) with
    | error e => exact ⟨e, rfl⟩
    | ok t =>
      rcases hsplit with hvalue | hrest
      · obtain ⟨e, he⟩ := lParseHttp_header_split _ hgiven.1.1 hgiven.1.2 hvalue
        rw [hhead] at he
        cases he
      · exact ih t hgiven.2 hrest

/-- The result table after a feed with these pieces, none of whose values is cut. -/
def Pieces.table (p : Pieces) : Result :=
  ⟨p.url.getLast?, none, headTable p.headers, p.body.bind List.getLast?⟩

theorem Pieces.Of.headersGiven (hp : p.Of request) : HeadersGiven p.headers := by
  have h := hp.headers
  generalize p.headers = headers, request.headers = elements at h
  induction h with
  | nil => exact List.forall_mem_nil _
  | cons hhead _ ih => exact List.forall_mem_cons.mpr ⟨⟨hhead.1.1, hhead.2.1⟩, ih⟩

theorem lParseHttp_calls_whole (hp : p.Of request) (hwhole : ValuesWhole p.headers) :
    lParseHttp newResult p.calls = .ok p.table := by
  rw [Pieces.calls, lParseHttp_append, lParseHttp_append, lParseHttp_url _ hp.url.1]
  change (lParseHttp _ (p.headers.flatMap headerCalls) >>= _) = _
  rw [lParseHttp_headers_whole rfl rfl hp.headersGiven hwhole]
  change lParseHttp _ ((p.body.getD []).map .onBody) = _
  have hbody := hp.body
  rw [Pieces.table]
  cases hpieces : p.body with
  | none => rfl
  | some pieces =>
    rw [hpieces] at hbody
    cases hrequest : request.body with
    | none =>
      rw [hrequest] at hbody
      cases hbody
    | some body =>
      rw [hrequest] at hbody
      cases hbody with
      | some h => exact lParseHttp_body _ h.1

theorem lParseHttp_calls_split (hp : p.Of request) (hsplit : ¬ ValuesWhole p.headers) :
    ∃ e, lParseHttp newResult p.calls = .error e := by
  obtain ⟨e, he⟩ := lParseHttp_headers_split { newResult with URL := p.url.getLast? }
    hp.headersGiven hsplit
  refine ⟨e, ?_⟩
  rw [Pieces.calls, List.append_assoc, lParseHttp_append, lParseHttp_url _ hp.url.1]
  change lParseHttp _ (p.headers.flatMap headerCalls ++ _) = _
  rw [lParseHttp_append, he]
  rfl

/-- A feed without an error. -/
theorem table_of_ok (hp : p.Of request) (ht : lParseHttp newResult p.calls = .ok t) :
    ValuesWhole p.headers ∧ t = p.table := by
  have hwhole : ValuesWhole p.headers := by
    by_contra hsplit
    obtain ⟨e, he⟩ := lParseHttp_calls_split hp hsplit
    rw [ht] at he
    cases he
  rw [lParseHttp_calls_whole hp hwhole] at ht
  exact ⟨hwhole, (Except.ok.inj ht).symm⟩

/-- Of two ways to cut an element, the last pieces agree if they begin at the same place. -/
theorem getLast_eq_iff {a b : List Str} {element : Str} (ha : PiecesOf a element)
    (hb : PiecesOf b element) : a.getLast? = b.getLast? ↔ lastCut a = lastCut b := by
  have split {l : List Str} (h : PiecesOf l element) :
      l.dropLast.flatten ++ l.getLast h.1 = element := by
    have hl := congrArg List.flatten (List.dropLast_append_getLast h.1)
    rw [List.flatten_append, List.flatten_singleton] at hl
    exact hl.trans h.2
  have heq := (split ha).trans (split hb).symm
  rw [List.getLast?_eq_some_getLast ha.1, List.getLast?_eq_some_getLast hb.1, Option.some_inj]
  constructor
  · intro hlast
    rw [hlast] at heq
    exact congrArg List.length (List.append_cancel_right heq)
  · intro hcut
    exact (List.append_inj heq hcut).2

theorem body_eq_iff (hcut : cut.Of request) (hwhole : whole.Of request) :
    cut.body.bind List.getLast? = whole.body.bind List.getLast? ↔
      cut.body.map lastCut = whole.body.map lastCut := by
  have ha := hcut.body
  have hb := hwhole.body
  generalize cut.body = a, whole.body = b, request.body = body at ha hb
  cases ha with
  | none =>
    cases hb
    exact iff_of_true rfl rfl
  | some ha =>
    cases hb with
    | some hb => exact (getLast_eq_iff ha hb).trans Option.some_inj.symm

theorem headTable_eq_iff (hcut : cut.Of request) (hwhole : whole.Of request) :
    headTable cut.headers = headTable whole.headers ↔
      ∀ k, headerValue cut.headers k = headerValue whole.headers k := by
  have hlen : cut.headers.length = whole.headers.length :=
    hcut.headers.length_eq.trans hwhole.headers.length_eq.symm
  have hnil : cut.headers = [] ↔ whole.headers = [] := by
    rw [← List.length_eq_zero_iff, ← List.length_eq_zero_iff, hlen]
  unfold headTable
  by_cases h : cut.headers = []
  · rw [if_pos h, if_pos (hnil.mp h), h, hnil.mp h]
    exact iff_of_true rfl fun _ => rfl
  · rw [if_neg h, if_neg (mt hnil.mpr h), Option.some_inj]
    exact funext_iff

/-- A feed in any fragments and one in a single fragment leave the same entries without an error
if and only if both keep every header value whole and cut the other elements alike at the end. -/
theorem fragmentation_iff {fragments : List (List Callback)} (hcut : cut.Of request)
    (hwhole : whole.Of request) (hfragments : fragments.flatten = cut.calls) :
    SameResult fragments whole.calls ↔ Aligned cut whole := by
  have hcutFeed : parseFragments newResult fragments = lParseHttp newResult cut.calls := by
    rw [parseFragments_eq, hfragments]
  have hwholeFeed : parseFragments newResult [whole.calls] =
      lParseHttp newResult whole.calls := by
    rw [parseFragments_eq, List.flatten_singleton]
  rw [SameResult, hcutFeed, hwholeFeed]
  constructor
  · rintro ⟨t, u, ht, hu, hurl, hhead, hbody⟩
    obtain ⟨hcutWhole, rfl⟩ := table_of_ok hcut ht
    obtain ⟨hwholeWhole, rfl⟩ := table_of_ok hwhole hu
    exact ⟨⟨hcutWhole, hwholeWhole⟩, (getLast_eq_iff hcut.url hwhole.url).mp hurl,
      (body_eq_iff hcut hwhole).mp hbody, (headTable_eq_iff hcut hwhole).mp hhead⟩
  · intro h
    exact ⟨cut.table, whole.table, lParseHttp_calls_whole hcut h.values.1,
      lParseHttp_calls_whole hwhole h.values.2, (getLast_eq_iff hcut.url hwhole.url).mpr h.url,
      (headTable_eq_iff hcut hwhole).mpr h.fields, (body_eq_iff hcut hwhole).mpr h.body⟩

/-- Each element in one piece. -/
def Request.inOnePiece (request : Request) : Pieces :=
  ⟨[request.url], request.headers.map fun e => ([e.1], [e.2]), request.body.map fun x => [x]⟩

theorem piecesOf_singleton (x : Str) : PiecesOf [x] x :=
  ⟨List.cons_ne_nil _ _, List.flatten_singleton⟩

theorem Request.inOnePiece_of (request : Request) : request.inOnePiece.Of request where
  url := piecesOf_singleton _
  headers := by
    rw [Request.inOnePiece, List.forall₂_map_left_iff, List.forall₂_same]
    exact fun e _ => ⟨piecesOf_singleton e.1, piecesOf_singleton e.2⟩
  body := by
    rw [Request.inOnePiece]
    cases request.body with
    | none => exact .none
    | some x => exact .some (piecesOf_singleton x)

/-- `/ab`, a header `H: 12` and a body. -/
def sampleRequest : Request := ⟨[47, 97, 98], [([72], [49, 50])], some [99, 100]⟩

/-- The cuts fall before the URL, the name and the body. -/
def betweenElements : Pieces :=
  ⟨[[], [47, 97, 98]], [([[], [72]], [[49, 50]])], some [[], [99, 100]]⟩

theorem betweenElements_of : betweenElements.Of sampleRequest where
  url := ⟨List.cons_ne_nil _ _, rfl⟩
  headers := .cons ⟨⟨List.cons_ne_nil _ _, rfl⟩, List.cons_ne_nil _ _, rfl⟩ .nil
  body := .some ⟨List.cons_ne_nil _ _, rfl⟩

theorem fragmentation_iff_betweenElements :
    SameResult [betweenElements.calls.take 3, betweenElements.calls.drop 3]
      sampleRequest.inOnePiece.calls :=
  (fragmentation_iff betweenElements_of sampleRequest.inOnePiece_of (by simp)).mpr
    ⟨by simp [ValuesWhole, betweenElements, sampleRequest, Request.inOnePiece], rfl, rfl,
      fun k => by simp [headerValue, betweenElements, sampleRequest, Request.inOnePiece]⟩

/-- The URL comes as `/a` and `b`. -/
def cutUrl : Pieces := ⟨[[47, 97], [98]], [([[72]], [[49, 50]])], some [[99, 100]]⟩

/-- The value comes as `1` and `2`. -/
def cutValue : Pieces := ⟨[[47, 97, 98]], [([[72]], [[49], [50]])], some [[99, 100]]⟩

/-- Of a URL in two pieces the second one is kept, and the second piece of a value raises an
error. -/
theorem cut_url_or_value : cutUrl.Of sampleRequest ∧ cutValue.Of sampleRequest ∧
    ((parseFragments newResult [cutUrl.calls.take 1, cutUrl.calls.drop 1]).toOption.bind
      Result.URL) = some [98] ∧
    ((parseFragments newResult [sampleRequest.inOnePiece.calls]).toOption.bind
      Result.URL) = some [47, 97, 98] ∧
    ¬ SameResult [cutUrl.calls.take 1, cutUrl.calls.drop 1] sampleRequest.inOnePiece.calls ∧
    parseFragments newResult [cutValue.calls.take 3, cutValue.calls.drop 3] =
      .error "table index is nil" := by
  refine ⟨⟨⟨List.cons_ne_nil _ _, rfl⟩, .cons ⟨⟨List.cons_ne_nil _ _, rfl⟩,
      List.cons_ne_nil _ _, rfl⟩ .nil, .some ⟨List.cons_ne_nil _ _, rfl⟩⟩,
    ⟨⟨List.cons_ne_nil _ _, rfl⟩, .cons ⟨⟨List.cons_ne_nil _ _, rfl⟩,
      List.cons_ne_nil _ _, rfl⟩ .nil, .some ⟨List.cons_ne_nil _ _, rfl⟩⟩, rfl, rfl, ?_, rfl⟩
  rintro ⟨t, u, ht, hu, hurl, -⟩
  cases ht
  cases hu
  exact absurd hurl (by decide)

end HttpParse
