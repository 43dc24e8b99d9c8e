/-
Well-formed requests and what `HttpRequestParser` makes of their bytes.

`Request` is a request as a client means it, and `Request.bytes` what it sends: a request line, header lines, an empty
line and the body, after the length a content-length header announces or in chunks. `Request.WellFormed` says which
values are allowed where, and does not mention the parser. `Request.data` is the `HttpRequest` that stands for the
request.

Results:
- `execute_message`: the parser takes the first line of a message, its headers and its body, and no more, whatever
  follows.
- `Request.execute_bytes`: so it does for a well-formed request of the kind it supports.
- `strict_iff`: at the end of every header section, whatever follows, the parser is strict iff no length is announced or
  the value is one.
- `lenient_length`: a sign and trailing text; two bytes are taken for the body.
-/
import CoServer.Http.Parser

namespace CoServer.Http

open CoServer.Core CString List OrderedSet

/-! ## Requests on the wire -/

structure Header where
  name : List UInt8
  /-- blanks between the colon and the value -/
  pad : List UInt8
  value : List UInt8
deriving DecidableEq

structure Request where
  method : HttpMethod
  path : List UInt8
  query : Option (List UInt8)
  fragment : Option (List UInt8)
  major : ℕ
  minor : ℕ
  headers : List Header
  body : List UInt8
  /-- the body cut into chunks, if it is sent in chunks -/
  chunks : Option (List (List UInt8))
deriving DecidableEq

def crlf : List UInt8 := [13, 10]

/-- the name of a method on the wire -/
def HttpMethod.name (m : HttpMethod) : List UInt8 :=
  if m = .msearch then lit "M-SEARCH"
  else
    match methodMap.find? fun e => e.2 == m with
    | some e => lit e.1
    | none => []

/-- a hexadecimal number, without leading zeros -/
def hex (n : ℕ) : List UInt8 := (Nat.toDigits 16 n).map fun c => UInt8.ofNat c.toNat

namespace Header

def line (h : Header) : List UInt8 := h.name ++ 58 :: (h.pad ++ h.value)

end Header

namespace Request

variable (r : Request)

def target : List UInt8 := r.path ++ (r.query.elim [] fun q => 63 :: q) ++ (r.fragment.elim [] fun f => 35 :: f)

def version : List UInt8 := lit "HTTP/" ++ [UInt8.ofNat (48 + r.major), 46, UInt8.ofNat (48 + r.minor)]

def line : List UInt8 := r.method.name ++ 32 :: (r.target ++ 32 :: r.version)

def bodyBytes : List UInt8 :=
  match r.chunks with
  | none => r.body
  | some cs => cs.flatMap (fun c => hex c.length ++ crlf ++ c ++ crlf) ++ lit "0" ++ crlf ++ crlf

def bytes : List UInt8 := r.line ++ crlf ++ r.headers.flatMap (fun h => h.line ++ crlf) ++ crlf ++ r.bodyBytes

/-- the header with a name, whatever its case -/
def header (name : List UInt8) : Option Header := r.headers.find? fun h => fold h.name == fold name

end Request

/-- a byte of a token -/
def isToken (c : UInt8) : Bool :=
  isDigit c || (65 ≤ c && c ≤ 90) || (97 ≤ c && c ≤ 122) || (lit "!#$%&'*+-.^_`|~").contains c

def isVisible (c : UInt8) : Bool := 33 ≤ c && c != 127

def isBlank (c : UInt8) : Bool := c == 32 || c == 9

structure Header.WellFormed (h : Header) : Prop where
  name_ne : h.name ≠ []
  name : ∀ c ∈ h.name, isToken c = true
  pad : ∀ c ∈ h.pad, isBlank c = true
  value : ∀ c ∈ h.value, isVisible c = true ∨ isBlank c = true
  first : ∀ c, h.value.head? = some c → isBlank c = false
  last : ∀ c, h.value.getLast? = some c → isBlank c = false

/-- all that splitting a header line depends on -/
structure Header.Plain (h : Header) : Prop where
  name_colon : 58 ∉ h.name
  name_feed : 10 ∉ h.name
  pad : ∀ c ∈ h.pad, isBlank c = true
  value_feed : 10 ∉ h.value
  first : ∀ c, h.value.head? = some c → isBlank c = false

structure Request.WellFormed (r : Request) : Prop where
  method : r.method ≠ .invalidMethod
  path_ne : r.path ≠ []
  path : ∀ c ∈ r.path, isVisible c = true ∧ c ≠ 63 ∧ c ≠ 35
  query : ∀ q, r.query = some q → ∀ c ∈ q, isVisible c = true ∧ c ≠ 35
  fragment : ∀ f, r.fragment = some f → ∀ c ∈ f, isVisible c = true ∧ c ≠ 35
  major : r.major < 10
  minor : r.minor < 10
  headers : ∀ h ∈ r.headers, h.WellFormed
  distinct : (r.headers.map fun h => fold h.name).Nodup
  /-- a body needs a length or chunks, and the length is that of the body -/
  framed : r.body ≠ [] → r.chunks = none → (r.header (lit "content-length")).isSome
  length : ∀ h, r.header (lit "content-length") = some h →
    h.value ≠ [] ∧ (∀ c ∈ h.value, isDigit c = true) ∧ decimal h.value = r.body.length ∧ r.chunks = none
  chunked : ∀ cs, r.chunks = some cs → cs.flatten = r.body ∧ (∀ c ∈ cs, c ≠ []) ∧
    ∃ h, r.header (lit "transfer-encoding") = some h ∧ fold h.value = fold (lit "chunked")
  unchunked : r.chunks = none → r.header (lit "transfer-encoding") = none

/-- the header map with more headers -/
def addHeaders (m : HeaderMap) (hs : List Header) : HeaderMap :=
  hs.foldl (fun m h => OrderedSet.insert lessHeader (h.name, h.value) m) m

/-- the request as the header map and the other fields of an `HttpRequest` -/
def Request.parsed (r : Request) : HttpRequest where
  method := r.method
  version := UInt8.ofNat (16 * r.major + r.minor)
  path := r.path
  query := r.query.getD []
  fragment := r.fragment.getD []
  body := r.body
  headers := addHeaders [] r.headers

/-- with the flag `init` derives from the connection header -/
def Request.data (r : Request) : HttpRequest := r.parsed.init

/-- what the parser supports: no method whose name the table spells otherwise, lines within the limit, a body with a
length -/
structure Request.Supported (r : Request) : Prop where
  method : r.method ≠ .msearch
  line : r.line.length < maxLineSize
  headers : ∀ h ∈ r.headers, h.line.length < maxLineSize
  chunks : r.chunks = none
  body : r.body.length < 2 ^ 64

/-! ## Lines -/

section

variable {δ : Type} {M : Message δ} {p p' : Parser δ}

/-- a parser that waits for a line -/
structure AtLine (p : Parser δ) : Prop where
  running : p.stopped = false
  outside : p.state ≠ .body
  empty : p.line = []

/-- the parser takes all of a string -/
abbrev Takes (M : Message δ) (p : Parser δ) (l : List UInt8) (p' : Parser δ) : Prop := execute M p l = (p', l.length)

/-- the parser takes so much of a string and is finished, with these data -/
def Finishes (M : Message δ) (p : Parser δ) (l : List UInt8) (n : ℕ) (d : δ) : Prop :=
  ∃ p', execute M p l = (p', n) ∧ p'.finished = true ∧ p'.hasError = false ∧ p'.data = d

theorem Takes.execute {a : List UInt8} (h : Takes M p a p') (b : List UInt8) :
    execute M p (a ++ b) = ((execute M p' b).1, a.length + (execute M p' b).2) := by
  rw [execute_append, h, if_neg (lt_irrefl _)]

theorem Takes.append {a b : List UInt8} {q : Parser δ} (h : Takes M p a p') (h' : Takes M p' b q) :
    Takes M p (a ++ b) q := by
  rw [Takes, h.execute, h', length_append]

theorem Takes.finishes {a b : List UInt8} {n : ℕ} {d : δ} (h : Takes M p a p') (h' : Finishes M p' b n d) :
    Finishes M p (a ++ b) (a.length + n) d := by
  obtain ⟨q, hq, hdone⟩ := h'
  exact ⟨q, by rw [h.execute, hq], hdone⟩

theorem execute_chars {l : List UInt8} (hs : p.stopped = false) (hb : p.state ≠ .body) (hl : 10 ∉ l)
    (hlen : p.line.length + l.length ≤ maxLineSize) : Takes M p l { p with line := p.line ++ l } := by
  induction l generalizing p with
  | nil =>
    rw [append_nil]
    rfl
  | cons c l ih =>
    rw [mem_cons, not_or] at hl
    rw [length_cons] at hlen
    have hlen' : (p.line ++ [c]).length + l.length ≤ maxLineSize := by
      rw [length_append, length_singleton]
      omega
    have hshort : ¬ maxLineSize < (p.line ++ [c]).length := by omega
    have hpush : takeChar M c p = { p with line := p.line ++ [c] } := by
      rw [takeChar, if_neg (Ne.symm hl.1), pushChar, if_neg hshort]
    rw [Takes, execute_char hs hb, hpush, ih (p := { p with line := p.line ++ [c] }) hs hb hl.2 hlen', append_assoc]
    rfl

theorem processLine_line (l s : List UInt8) (p : Parser δ) :
    { processLine M l { p with line := s } with line := [] } = { processLine M l p with line := [] } := by
  obtain ⟨state, line, data, bodyRemaining, finished, error⟩ := p
  cases state with
  | firstLine =>
    simp only [processLine, parseFirstLine]
    split_ifs
    · rfl
    · rfl
  | headers =>
    simp only [processLine, parseHeaderLine]
    split_ifs
    · rfl
    · rfl
    · cases cut 58 l with
      | none | some parts => rfl
  | body | done => rfl

theorem execute_line {l : List UInt8} (h : AtLine p) (hl : 10 ∉ l) (hlen : l.length < maxLineSize) :
    Takes M p (l ++ crlf) { processLine M l p with line := [] } := by
  have hlen' : p.line.length + (l ++ [13]).length ≤ maxLineSize := by
    rw [h.empty, length_nil, length_append, length_singleton]
    omega
  have hchars := execute_chars (M := M) h.running h.outside (l := l ++ [13]) (by simp [hl]) hlen'
  rw [h.empty, nil_append] at hchars
  have hend : takeChar M 10 { p with line := l ++ [13] } = { processLine M l p with line := [] } := by
    rw [takeChar, if_pos rfl, endLine, getLast?_concat, if_pos rfl, dropLast_concat, processLine_line]
  have hfeed : Takes M { p with line := l ++ [13] } [10] { processLine M l p with line := [] } := by
    rw [Takes, execute_char (p := { p with line := l ++ [13] }) h.running h.outside, hend]
    rfl
  rw [show l ++ crlf = l ++ [13] ++ [10] by simp [crlf]]
  exact hchars.append hfeed

end

/-! ## The request line -/

theorem not_mem_of_visible {l : List UInt8} {c : UInt8} (h : ∀ x ∈ l, isVisible x = true)
    (hc : isVisible c = false) : c ∉ l := by
  intro hmem
  rw [h c hmem] at hc
  cases hc

theorem charsToHttpMethod_map : ∀ e ∈ methodMap, e.2 ≠ .msearch → charsToHttpMethod (lit e.1) = e.2 := by decide +kernel

theorem map_visible : ∀ e ∈ methodMap, e.2 ≠ .msearch → (lit e.1).all isVisible = true := by decide +kernel

theorem mem_methodMap {m : HttpMethod} (h : m ≠ .invalidMethod) : m ∈ methodMap.map Prod.snd := by
  cases m <;> first | exact absurd rfl h | decide

theorem find_methodMap {m : HttpMethod} (h : m ≠ .invalidMethod) :
    ∃ e ∈ methodMap, e.2 = m ∧ methodMap.find? (fun e => e.2 == m) = some e := by
  obtain ⟨e₀, he₀, hm₀⟩ := mem_map.1 (mem_methodMap h)
  cases hf : methodMap.find? fun e => e.2 == m with
  | none =>
    rw [find?_eq_none] at hf
    exact absurd (by rw [hm₀, beq_self_eq_true]) (hf e₀ he₀)
  | some e => exact ⟨e, mem_of_find?_eq_some hf, by simpa using find?_some hf, rfl⟩

theorem name_mem {m : HttpMethod} (h : m ≠ .invalidMethod) (hm : m ≠ .msearch) : ∃ e ∈ methodMap, e.2 = m ∧
    m.name = lit e.1 := by
  obtain ⟨e, he, hem, hf⟩ := find_methodMap h
  refine ⟨e, he, hem, ?_⟩
  rw [HttpMethod.name, if_neg hm, hf]

theorem httpMethodToString_eq_name {m : HttpMethod} (h : m ≠ .invalidMethod) (hm : m ≠ .msearch) :
    httpMethodToString m = m.name := by
  obtain ⟨e, -, -, hf⟩ := find_methodMap h
  rw [httpMethodToString, HttpMethod.name, if_neg hm, hf]

theorem charsToHttpMethod_name {m : HttpMethod} (h : m ≠ .invalidMethod) (hm : m ≠ .msearch) :
    charsToHttpMethod m.name = m ∧ ∀ c ∈ m.name, isVisible c = true := by
  obtain ⟨e, he, rfl, hname⟩ := name_mem h hm
  rw [hname]
  exact ⟨charsToHttpMethod_map e he hm, all_eq_true.1 (map_visible e he hm)⟩

theorem parseHttpVersion_digits {a b : ℕ} (ha : a < 16) (hb : b < 16) :
    parseHttpVersion (lit "HTTP/" ++ (digits a ++ 46 :: digits b)) = UInt8.ofNat (16 * a + b) := by
  have hlength : (lit "HTTP/").length = 5 := by decide
  have hdrop : (lit "HTTP/" ++ (digits a ++ 46 :: digits b)).drop 5 = digits a ++ 46 :: digits b := drop_left' hlength
  have hrest : cstr (46 :: digits b) = 46 :: digits b := by
    have hzero : 0 ∉ 46 :: digits b := not_mem_cons_of_ne_of_not_mem (by decide) (not_mem_digits rfl b)
    have happ := cstr_append hzero []
    rwa [show cstr [] = [] from rfl, append_nil] at happ
  have hmajor : strtol (digits a ++ 46 :: digits b) = some (↑(decimal (digits a)), cstr (46 :: digits b)) :=
    strtol_digits (digits_ne_nil a) (isDigit_digits a) (by simp [hrest, isDigit]) (by rw [decimal_digits]; omega)
  have hminor : strtol (digits b ++ []) = some (↑(decimal (digits b)), cstr []) :=
    strtol_digits (digits_ne_nil b) (isDigit_digits b) (by simp [cstr]) (by rw [decimal_digits]; omega)
  rw [decimal_digits, hrest] at hmajor
  rw [decimal_digits, append_nil] at hminor
  have hvalue : ∀ a b : Fin 16, UInt8.ofBitVec ((BitVec.ofInt 64 a <<< 4 ||| BitVec.ofInt 64 b).setWidth 8) =
      UInt8.ofNat (16 * a + b) := by decide
  rw [parseHttpVersion, hdrop, hmajor]
  simp only [hminor]
  exact hvalue ⟨a, ha⟩ ⟨b, hb⟩

theorem version_visible : ∀ major minor : Fin 10,
    (lit "HTTP/" ++ [UInt8.ofNat (48 + major), 46, UInt8.ofNat (48 + minor)]).all isVisible = true := by
  decide +kernel

section

variable {path : List UInt8} {query fragment : Option (List UInt8)} {d : HttpRequest}

theorem setPathAndQuery_parts (hpath : 63 ∉ path) (hq : d.query = []) :
    d.setPathAndQuery (path ++ query.elim [] fun q => 63 :: q) = { d with path := path, query := query.getD [] } := by
  unfold HttpRequest.setPathAndQuery
  cases query with
  | none => rw [Option.elim_none, append_nil, cut_eq_none hpath, Option.getD_none, ← hq]
  | some q => rw [Option.elim_some, cut_append hpath, Option.getD_some]

theorem setUri_parts (hpath : 63 ∉ path) (hhash : 35 ∉ path) (hquery : ∀ q, query = some q → 35 ∉ q) (hq : d.query = [])
    (hf : d.fragment = []) :
    d.setUri (path ++ (query.elim [] fun q => 63 :: q) ++ (fragment.elim [] fun f => 35 :: f)) =
      { d with path := path, query := query.getD [], fragment := fragment.getD [] } := by
  have hbefore : 35 ∉ path ++ query.elim [] fun q => 63 :: q := by
    rw [mem_append, not_or]
    refine ⟨hhash, ?_⟩
    cases query with
    | none => exact not_mem_nil
    | some q =>
      rw [Option.elim_some, mem_cons, not_or]
      exact ⟨by decide, hquery q rfl⟩
  unfold HttpRequest.setUri
  cases fragment with
  | none =>
    rw [Option.elim_none, append_nil, cut_eq_none hbefore, Option.getD_none]
    rw [setPathAndQuery_parts hpath hq, ← hf]
  | some f =>
    rw [Option.elim_some, cut_append hbefore]
    exact setPathAndQuery_parts hpath hq

end

namespace Request

variable {r : Request} (h : r.WellFormed)
include h

theorem target_visible : ∀ c ∈ r.target, isVisible c = true := by
  intro c hc
  rcases mem_append.1 hc with hc | hc
  · rcases mem_append.1 hc with hc | hc
    · exact (h.path c hc).1
    cases hq : r.query with
    | none => simp [hq] at hc
    | some q =>
      rw [hq] at hc
      rcases mem_cons.1 hc with rfl | hc
      · decide
      · exact (h.query q hq c hc).1
  · cases hf : r.fragment with
    | none => simp [hf] at hc
    | some f =>
      rw [hf] at hc
      rcases mem_cons.1 hc with rfl | hc
      · decide
      · exact (h.fragment f hf c hc).1

theorem setUri_target {d : HttpRequest} (hq : d.query = []) (hf : d.fragment = []) :
    d.setUri r.target = { d with path := r.path, query := r.query.getD [], fragment := r.fragment.getD [] } :=
  setUri_parts (fun hc => (h.path _ hc).2.1 rfl) (fun hc => (h.path _ hc).2.2 rfl)
  (fun q hq hc => (h.query q hq _ hc).2 rfl) hq hf

theorem version_eq : parseHttpVersion r.version = UInt8.ofNat (16 * r.major + r.minor) := by
  have hread := parseHttpVersion_digits (h.major.trans (by decide : 10 < 16)) (h.minor.trans (by decide : 10 < 16))
  rwa [digits_of_lt h.major, digits_of_lt h.minor] at hread

theorem parseRequestLine_line (hs : r.Supported) :
    request.parseFirstLine r.line request.fresh = ({ r.parsed with headers := [], body := [] }, true) := by
  obtain ⟨hname, hvisible⟩ := charsToHttpMethod_name h.method hs.method
  have hmethod : 32 ∉ r.method.name := not_mem_of_visible hvisible (by decide)
  have htarget : 32 ∉ r.target := not_mem_of_visible (target_visible h) (by decide)
  simp only [request_parseFirstLine, parseRequestLine, line, cut_append hmethod, cut_append htarget, hname,
    version_eq h]
  rw [setUri_target h rfl rfl]
  rfl

end Request

/-! ## Header lines -/

theorem lessHeader_keyed : Keyed lessHeader fun e => fold e.1 := by
  intro a b
  exact decide_eq_true_iff

variable {m : HeaderMap} {hs : List Header}

theorem find_eq_none {key : List UInt8} : m.find key = none ↔ ∀ e ∈ m, fold e.1 ≠ fold key := by
  rw [HeaderMap.find]
  simp

theorem assign_new {key : List UInt8} (h : ∀ e ∈ m, fold e.1 ≠ fold key) (val : List UInt8) :
    m.assign key val = OrderedSet.insert lessHeader (key, val) m := by
  rw [HeaderMap.assign, find_eq_none.2 h, if_neg (by decide)]

theorem trimLeft_pad {pad value : List UInt8} (hp : ∀ c ∈ pad, isBlank c = true)
    (hv : ∀ c, value.head? = some c → isBlank c = false) : trimLeft (pad ++ value) = value := by
  have hdrop : trimLeft (pad ++ value) = (pad ++ value).dropWhile isBlank := rfl
  rw [hdrop, dropWhile_append_of_pos hp]
  cases value with
  | nil => rfl
  | cons c value =>
    refine dropWhile_cons_of_neg ?_
    rw [Bool.not_eq_true]
    exact hv c rfl

namespace Header

variable {h : Header}

theorem WellFormed.plain (hw : h.WellFormed) : h.Plain where
  name_colon hc := absurd (hw.name 58 hc) (by decide)
  name_feed hc := absurd (hw.name 10 hc) (by decide)
  pad := hw.pad
  value_feed hc := absurd (hw.value 10 hc) (by decide)
  first := hw.first

theorem line_no_feed (hw : h.Plain) : 10 ∉ h.line := by
  have hpad : 10 ∉ h.pad := fun hc => absurd (hw.pad 10 hc) (by decide)
  simp [line, hw.name_feed, hpad, hw.value_feed]

theorem cut_line (hw : h.Plain) : cut 58 h.line = some (h.name, h.pad ++ h.value) := cut_append hw.name_colon _

theorem processLine_line {δ : Type} {M : Message δ} {p : Parser δ} (hw : h.Plain) (hp : p.state = .headers)
    (hnew : ∀ e ∈ M.headers p.data, fold e.1 ≠ fold h.name) :
    processLine M h.line p = { p with data := M.setHeaders p.data (addHeaders (M.headers p.data) [h]) } := by
  have hne : h.line ≠ [] := by simp [line]
  simp only [processLine, hp, parseHeaderLine, hne, if_false, cut_line hw, trimLeft_pad hw.pad hw.first,
    assign_new hnew]
  rfl

end Header

theorem addHeaders_cons (m : HeaderMap) (h : Header) (hs : List Header) :
    addHeaders m (h :: hs) = addHeaders (addHeaders m [h]) hs := rfl

theorem mem_addHeaders_one {h : Header} (hnew : ∀ e ∈ m, fold e.1 ≠ fold h.name) (e : List UInt8 × List UInt8) :
    e ∈ addHeaders m [h] ↔ e = (h.name, h.value) ∨ e ∈ m :=
  mem_insert lessHeader_keyed hnew

/-- headers with names of their own, which a map does not have -/
structure Fresh (m : HeaderMap) (hs : List Header) : Prop where
  distinct : (hs.map fun h => fold h.name).Nodup
  new : ∀ h ∈ hs, ∀ e ∈ m, fold e.1 ≠ fold h.name

theorem fresh_nil (h : (hs.map fun h => fold h.name).Nodup) : Fresh [] hs := ⟨h, fun _ _ _ he => absurd he not_mem_nil⟩

variable {x : Header}

theorem Fresh.head (h : Fresh m (x :: hs)) : ∀ e ∈ m, fold e.1 ≠ fold x.name := h.new x mem_cons_self

theorem Fresh.tail (h : Fresh m (x :: hs)) : Fresh (addHeaders m [x]) hs := by
  obtain ⟨hnot, hnodup⟩ := nodup_cons.1 h.distinct
  refine ⟨hnodup, fun y hy e he => ?_⟩
  rcases (mem_addHeaders_one h.head e).1 he with rfl | he
  · exact fun heq => hnot (mem_map.2 ⟨y, hy, heq.symm⟩)
  · exact h.new y (mem_cons_of_mem _ hy) e he

/-- headers, each on a line of its own -/
abbrev headerLines (hs : List Header) : List UInt8 := hs.flatMap fun h => h.line ++ crlf

/-- a parser that has read more headers -/
def withHeaders {δ : Type} (M : Message δ) (p : Parser δ) (hs : List Header) : Parser δ :=
  { p with data := M.setHeaders p.data (addHeaders (M.headers p.data) hs) }

theorem execute_headers {δ : Type} {M : Message δ} {p : Parser δ} (hp : AtLine p) (hstate : p.state = .headers)
    (hw : ∀ h ∈ hs, h.Plain) (hlen : ∀ h ∈ hs, h.line.length < maxLineSize) (hf : Fresh (M.headers p.data) hs) :
    Takes M p (headerLines hs) (withHeaders M p hs) := by
  induction hs generalizing p with
  | nil =>
    rw [withHeaders, addHeaders, foldl_nil, M.setHeaders_headers]
    rfl
  | cons h hs ih =>
    rw [forall_mem_cons] at hw hlen
    have hone : { processLine M h.line p with line := [] } = withHeaders M p [h] := by
      rw [Header.processLine_line hw.1 hstate hf.head, withHeaders, ← hp.empty]
    have hline := execute_line (M := M) hp (Header.line_no_feed hw.1) hlen.1
    rw [hone] at hline
    have hnext : Fresh (M.headers (withHeaders M p [h]).data) hs := by
      rw [withHeaders, M.headers_setHeaders]
      exact hf.tail
    have hrest := ih (p := withHeaders M p [h]) ⟨hp.running, hp.outside, hp.empty⟩ hstate hw.2 hlen.2 hnext
    have hall : withHeaders M (withHeaders M p [h]) hs = withHeaders M p (h :: hs) := by
      simp only [withHeaders, M.headers_setHeaders, M.setHeaders_setHeaders, ← addHeaders_cons]
    rw [hall] at hrest
    exact hline.append hrest

/-! ## The empty line and the body -/

theorem mem_addHeaders (h : Fresh m hs) (e : List UInt8 × List UInt8) :
    e ∈ addHeaders m hs ↔ (∃ h ∈ hs, e = (h.name, h.value)) ∨ e ∈ m := by
  induction hs generalizing m with
  | nil => simp [addHeaders]
  | cons x hs ih =>
    rw [addHeaders_cons, ih h.tail, mem_addHeaders_one h.head]
    simp only [mem_cons, exists_eq_or_imp]
    rw [or_assoc]
    exact or_left_comm

theorem sorted_addHeaders (h : Fresh m hs) (hm : Sorted (fun e => fold e.1) m) :
    Sorted (fun e => fold e.1) (addHeaders m hs) := by
  induction hs generalizing m with
  | nil => exact hm
  | cons x hs ih => exact ih h.tail (Sorted.insert lessHeader_keyed h.head hm)

theorem getHeader_addHeaders (hnodup : (hs.map fun h => fold h.name).Nodup) (key : List UInt8) :
    (addHeaders [] hs).getHeader key = ((hs.find? fun h => fold h.name == fold key).map Header.value).getD [] := by
  have hmem : ∀ e, e ∈ addHeaders [] hs ↔ ∃ h ∈ hs, e = (h.name, h.value) := by
    intro e
    rw [mem_addHeaders (fresh_nil hnodup)]
    simp
  unfold HeaderMap.getHeader
  cases hf : (addHeaders [] hs).find key with
  | none =>
    have hnone : (hs.find? fun h => fold h.name == fold key) = none := by
      refine find?_eq_none.2 fun h hh => ?_
      simpa using find_eq_none.1 hf _ ((hmem _).2 ⟨h, hh, rfl⟩)
    rw [hnone]
    rfl
  | some e =>
    obtain ⟨h, hh, rfl⟩ := (hmem e).1 (mem_of_find?_eq_some hf)
    have hk : fold h.name = fold key := by simpa using find?_some hf
    obtain ⟨x, hx⟩ : ∃ x, (hs.find? fun h => fold h.name == fold key) = some x := by
      rw [← Option.isSome_iff_exists, find?_isSome]
      exact ⟨h, hh, by simpa using hk⟩
    have hxk : fold x.name = fold key := by simpa using find?_some hx
    have hxh : x = h := inj_on_of_nodup_map hnodup (mem_of_find?_eq_some hx) hh (hxk.trans hk.symm)
    rw [hx, hxh]
    rfl

section

variable {δ : Type} {M : Message δ} {p : Parser δ} {body : List UInt8}

/-- the data with the body, if there is one -/
def withBody (M : Message δ) (d : δ) (body : List UInt8) : δ := if body = [] then d else M.addBody d body

theorem execute_framed (hrun : p.stopped = false) (hlen : getContentLength M p.data = body.length) (rest : List UInt8) :
    Finishes M { parseHeaderLine M [] p with line := [] } (body ++ rest) body.length (withBody M p.data body) := by
  have herror : p.hasError = false := by
    rw [Parser.stopped, Bool.or_eq_false_iff] at hrun
    exact hrun.2
  rw [parseHeaderLine, if_pos rfl, hlen, withBody]
  by_cases hbody : body = []
  · rw [hbody]
    exact ⟨_, execute_stopped rfl _, rfl, herror, rfl⟩
  have hpos : 0 < body.length := length_pos_iff.2 hbody
  let q : Parser δ := { p with bodyRemaining := body.length, state := .body, line := [] }
  have hmin : min q.bodyRemaining (body ++ rest).length = body.length := by
    rw [length_append]
    exact Nat.min_eq_left (Nat.le_add_right _ _)
  let q' : Parser δ := { q with data := M.addBody p.data body, bodyRemaining := 0, finished := true, state := .done }
  have htake : takeBody M body q = q' := by simp [takeBody, q, q']
  rw [if_pos hpos, if_neg hbody]
  refine ⟨q', ?_, rfl, herror, rfl⟩
  rw [← htake, execute_body (p := q) hrun rfl (by simp [hbody]), hmin, take_left]

theorem execute_end (hp : AtLine p) (hstate : p.state = .headers) (hlen : getContentLength M p.data = body.length)
    (rest : List UInt8) : Finishes M p (crlf ++ (body ++ rest)) (crlf ++ body).length (withBody M p.data body) := by
  have hline := execute_line (M := M) hp not_mem_nil (by decide)
  rw [processLine, hstate] at hline
  rw [length_append]
  exact hline.finishes (execute_framed hp.running hlen rest)

/-- **A message.** -/
theorem execute_message {first : List UInt8} {d : δ} (hfirst : M.parseFirstLine first M.fresh = (d, true))
    (hfeed : 10 ∉ first) (hshort : first.length < maxLineSize) (hd : M.headers d = []) (hw : ∀ h ∈ hs, h.Plain)
    (hlens : ∀ h ∈ hs, h.line.length < maxLineSize) (hnodup : (hs.map fun h => fold h.name).Nodup)
    (hlen : getContentLength M (M.setHeaders d (addHeaders [] hs)) = body.length) (rest : List UInt8) :
    Finishes M M.parser (first ++ crlf ++ (headerLines hs ++ (crlf ++ (body ++ rest))))
      (first ++ crlf ++ (headerLines hs ++ (crlf ++ body))).length
    (withBody M (M.setHeaders d (addHeaders [] hs)) body) := by
  let p₁ : Parser δ := { data := d, state := .headers }
  have hline : Takes M M.parser (first ++ crlf) p₁ := by
    have hproc : processLine M first M.parser = parseFirstLine M first M.parser := rfl
    rw [Takes, execute_line (p := M.parser) ⟨rfl, nofun, rfl⟩ hfeed hshort, hproc, parseFirstLine,
      show M.parser.data = M.fresh from rfl, hfirst]
    rfl
  have hdata : (withHeaders M p₁ hs).data = M.setHeaders d (addHeaders [] hs) := by rw [withHeaders, hd]
  have hheaders := execute_headers (M := M) (p := p₁) ⟨rfl, nofun, rfl⟩ rfl hw hlens (hd ▸ fresh_nil hnodup)
  have hend := execute_end (M := M) (p := withHeaders M p₁ hs) ⟨rfl, nofun, rfl⟩ rfl (hdata ▸ hlen) rest
  rw [hdata] at hend
  have hall := hline.finishes (hheaders.finishes hend)
  rwa [← length_append, ← length_append] at hall

end

/-! ## The announced length -/

/-- a length: digits, with a value below 2^64 -/
def IsLength (v : List UInt8) : Prop := v ≠ [] ∧ (∀ c ∈ v, isDigit c = true) ∧ decimal v < 2 ^ 64

/-- the value of the content-length header -/
def Parser.announced (p : Parser HttpRequest) : List UInt8 := p.data.headers.getHeader (lit "content-length")

theorem IsLength.getContentLength_eq {δ : Type} {M : Message δ} {d : δ} {v : List UInt8} (h : IsLength v)
    (hv : (M.headers d).getHeader (lit "content-length") = v) : getContentLength M d = decimal v := by
  obtain ⟨hne, hdigits, hlt⟩ := h
  simp only [getContentLength, hv, if_neg hne, stoull_digits hne hdigits hlt, Option.getD_some]

/-- at the end of the header section a length frames the body, and any other value is an error -/
def Strict (p : Parser HttpRequest) : Prop :=
  (IsLength p.announced → ∀ body rest, body.length = decimal p.announced →
    ∃ p', execute request p (10 :: (body ++ rest)) = (p', body.length + 1) ∧ p'.finished = true ∧ p'.hasError = false) ∧
  (p.announced ≠ [] → ¬ IsLength p.announced → ∀ rest, (execute request p (10 :: rest)).1.hasError = true)

/-- **The announced length.** -/
theorem strict_iff (p : Parser HttpRequest) (hrun : p.stopped = false) (hstate : p.state = .headers)
    (hline : p.line = [] ∨ p.line = [13]) : Strict p ↔ p.announced = [] ∨ IsLength p.announced := by
  have hnext : Takes request p [10] { parseHeaderLine request [] p with line := [] } := by
    have hend : takeChar request 10 p = { parseHeaderLine request [] p with line := [] } := by
      rcases hline with h | h <;> simp [takeChar, endLine, processLine, hstate, h]
    rw [Takes, execute_char hrun (by rw [hstate]; decide), hend]
    rfl
  constructor
  · rintro ⟨-, herror⟩
    by_contra hnot
    obtain ⟨hne, hlen⟩ := not_or.1 hnot
    have hset := herror hne hlen []
    have hkeep : (parseHeaderLine request [] p).hasError = p.hasError := by
      rw [parseHeaderLine, if_pos rfl]
      dsimp only
      split_ifs <;> rfl
    rw [Parser.stopped, Bool.or_eq_false_iff, ← hkeep] at hrun
    rw [hnext] at hset
    exact Bool.false_ne_true (hrun.2.symm.trans hset)
  · rintro (hnil | hlen)
    · exact ⟨fun h => absurd hnil h.1, fun h => absurd hnil h⟩
    · refine ⟨fun _ body rest hbody => ?_, fun _ h => absurd hlen h⟩
      have hlength := (hlen.getContentLength_eq (M := request) rfl).trans hbody.symm
      obtain ⟨p', hend, hfin, herror, -⟩ := hnext.finishes (execute_framed hrun hlength rest)
      exact ⟨p', by rw [Nat.add_comm]; exact hend, hfin, herror⟩

/-- a request up to the line feed after its headers -/
def head (value : String) : Parser HttpRequest :=
  (execute request request.parser (lit "PUT / HTTP/1.1\r\nContent-Length: " ++ lit value ++ lit "\r\n\r")).1

theorem strict_iff_two : Strict (head "2") ∧ ¬ Strict (head "+2x") := by
  constructor
  · exact (strict_iff (head "2") (by decide) (by decide) (by decide)).2
      (.inr ⟨by decide +kernel, by decide +kernel, by decide +kernel⟩)
  · rw [strict_iff (head "+2x") (by decide) (by decide) (by decide)]
    rintro (h | ⟨-, h, -⟩)
    · exact absurd h (by decide)
    · exact absurd h (by decide)

theorem lenient_length :
    (head "+2x").announced = lit "+2x" ∧ ¬ IsLength (lit "+2x") ∧
      (execute request (head "+2x") (lit "\nabc")).2 = 3 ∧
      (execute request (head "+2x") (lit "\nabc")).1.finished = true ∧
      (execute request (head "+2x") (lit "\nabc")).1.hasError = false := by
  refine ⟨by decide, fun h => ?_, by decide⟩
  exact absurd (h.2.1 43 (by decide)) (by decide)

namespace Request

variable {r : Request}

theorem contentLength_eq (h : r.WellFormed) (hs : r.Supported) {d : HttpRequest}
    (hd : d.headers = addHeaders [] r.headers) : getContentLength request d = r.body.length := by
  have hget : (request.headers d).getHeader (lit "content-length") =
      ((r.header (lit "content-length")).map Header.value).getD [] := by
    rw [show request.headers d = d.headers from rfl, hd, getHeader_addHeaders h.distinct]
    rfl
  cases hc : r.header (lit "content-length") with
  | none =>
    have hbody : r.body = [] := by
      by_contra hne
      have := h.framed hne hs.chunks
      rw [hc] at this
      cases this
    simp [getContentLength, hget, hc, hbody]
  | some x =>
    obtain ⟨hne, hdigits, hlen, -⟩ := h.length x hc
    exact (IsLength.getContentLength_eq ⟨hne, hdigits, hlen ▸ hs.body⟩ (by rw [hget, hc]; rfl)).trans hlen

theorem execute_bytes (h : r.WellFormed) (hs : r.Supported) (rest : List UInt8) :
    Finishes request request.parser (r.bytes ++ rest) r.bytes.length r.parsed := by
  have hbytes : r.bytes = r.line ++ crlf ++ (headerLines r.headers ++ (crlf ++ r.body)) := by
    simp [bytes, bodyBytes, hs.chunks]
  have hfeed : 10 ∉ r.line := by
    obtain ⟨-, hvisible⟩ := charsToHttpMethod_name h.method hs.method
    have h1 : 10 ∉ r.method.name := not_mem_of_visible hvisible (by decide)
    have h2 : 10 ∉ r.target := not_mem_of_visible (target_visible h) (by decide)
    have hversion : ∀ c ∈ r.version, isVisible c = true :=
      all_eq_true.1 (version_visible ⟨r.major, h.major⟩ ⟨r.minor, h.minor⟩)
    have h3 : 10 ∉ r.version := not_mem_of_visible hversion (by decide)
    simp [line, h1, h2, h3]
  obtain ⟨p', hexec, hfin, herr, hdata⟩ := execute_message (M := request) (parseRequestLine_line h hs) hfeed hs.line
    rfl (fun x hx => (h.headers x hx).plain) hs.headers h.distinct (contentLength_eq h hs rfl) rest
  refine ⟨p', ?_, hfin, herr, hdata.trans ?_⟩
  · rw [hbytes, ← hexec]
    simp
  unfold withBody
  split_ifs with hbody
  · rw [show r.parsed = { r.parsed with body := [] } by simp only [parsed, hbody]]
    rfl
  · rfl

end Request

end CoServer.Http
