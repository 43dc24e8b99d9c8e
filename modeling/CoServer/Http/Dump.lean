/-
`dump` of `HttpRequest` and `HttpResponse` (src/http/http.cpp), and what the parsers make of its bytes.

A message is dumped as its first line, header lines, a connection line unless it is a websocket handshake, and the body
after a content-length line. The two kinds differ in the first line and in where the connection line stands, so that the
parsers see the same headers in another order: `execute_dump` is for any order.

Results:
- `dump_round_trip_iff`: a request whose parts fit their places (`HttpRequest.Admitted`) is parsed back from its bytes
  iff its method is spelled without blanks.
- `response_round_trip`: so is a response without cookies, its reason too if it has one.
- `search_not_parsed_back`: the parser finishes without an error, and with another method, path and version.
-/
import CoServer.Http.Wire

namespace CoServer.Http

open CoServer.Core CString List HttpRequest

/-! ## The code -/

/-- the two halves of the byte, as numbers -/
def dumpVersion (version : UInt8) : List UInt8 :=
  lit "HTTP/" ++ digits (version >>> 4).toNat ++ lit "." ++ digits (version &&& 0x0F).toNat

/-- the loop over `_headers` -/
def dumpHeaders (websocket : Bool) (headers : HeaderMap) : List UInt8 :=
  (headers.filter fun e => websocket || fold e.1 != fold (lit "connection")).flatMap fun e =>
    e.1 ++ lit ": " ++ e.2 ++ lit "\r\n"

variable (websocket close : Bool)

def dumpConnection : List UInt8 :=
  if websocket then [] else lit "connection: " ++ (if close then lit "close" else lit "keep-alive") ++ lit "\r\n"

variable (body : List UInt8)

def dumpBody : List UInt8 :=
  if body = [] then lit "\r\n" else lit "content-length: " ++ digits body.length ++ lit "\r\n\r\n" ++ body

def HttpRequest.firstLine (r : HttpRequest) : List UInt8 :=
  httpMethodToString r.method ++ lit " " ++ r.path ++ (if r.query = [] then [] else lit "?") ++ r.query ++
    (if r.fragment = [] then [] else lit "#") ++ r.fragment ++ lit " " ++ dumpVersion r.version

/-- `HttpRequest::dump` -/
def HttpRequest.dump (r : HttpRequest) : List UInt8 :=
  r.firstLine ++ lit "\r\n" ++ dumpConnection r.websocket r.close ++ dumpHeaders r.websocket r.headers ++
  dumpBody r.body

/-- the status is printed as a `uint32_t` -/
def HttpResponse.firstLine (r : HttpResponse) : List UInt8 :=
  dumpVersion r.version ++ lit " " ++ digits (BitVec.ofInt 32 r.status).toNat ++ lit " " ++
    (if r.reason = [] then httpStatusToString r.status else r.reason)

/-- `HttpResponse::dump` -/
def HttpResponse.dump (r : HttpResponse) : List UInt8 :=
  r.firstLine ++ lit "\r\n" ++ dumpHeaders r.websocket r.headers ++
    r.cookies.flatMap (fun c => lit "Set-Cookie: " ++ c ++ lit "\r\n") ++ dumpConnection r.websocket r.close ++
      dumpBody r.body

/-! ## Messages that can be dumped -/

/-- a header map without the entries `dump` writes itself, whose entries fit on lines of their own -/
structure HeaderMap.Admitted (m : HeaderMap) : Prop where
  sorted : OrderedSet.Sorted (fun e => fold e.1) m
  connection : ∀ e ∈ m, fold e.1 ≠ fold (lit "connection")
  content_length : ∀ e ∈ m, fold e.1 ≠ fold (lit "content-length")
  name_ne : ∀ e ∈ m, e.1 ≠ []
  name : ∀ e ∈ m, ∀ c ∈ e.1, c ∉ [58, 13, 10]
  value : ∀ e ∈ m, ∀ c ∈ e.2, c ∉ [13, 10]
  first : ∀ e ∈ m, ∀ c, e.2.head? = some c → isBlank c = false
  line : ∀ e ∈ m, (e.1 ++ lit ": " ++ e.2).length < maxLineSize

structure HttpRequest.Admitted (r : HttpRequest) : Prop where
  method : r.method ≠ .invalidMethod
  path_ne : r.path ≠ []
  path : ∀ c ∈ r.path, c ∉ [32, 13, 10, 63, 35]
  query : ∀ c ∈ r.query, c ∉ [32, 13, 10, 35]
  fragment : ∀ c ∈ r.fragment, c ∉ [32, 13, 10]
  headers : r.headers.Admitted
  line : r.firstLine.length < maxLineSize
  /-- the size of a `std::string` -/
  body : r.body.length < 2 ^ 64

structure HttpResponse.Admitted (r : HttpResponse) : Prop where
  cookies : r.cookies = []
  status : 0 ≤ r.status ∧ r.status < 2 ^ 31
  reason : ∀ c ∈ r.reason, c ∉ [13, 10]
  headers : r.headers.Admitted
  line : r.firstLine.length < maxLineSize
  body : r.body.length < 2 ^ 64

/-! ## What is dumped, as headers -/

def connectionHeaders : List Header :=
  if websocket then [] else [⟨lit "connection", lit " ", if close then lit "close" else lit "keep-alive"⟩]

def lengthHeaders : List Header :=
  if body = [] then [] else [⟨lit "content-length", lit " ", digits body.length⟩]

def entryHeader (e : List UInt8 × List UInt8) : Header := ⟨e.1, lit " ", e.2⟩

/-- what `dump` adds to the header map -/
def addedHeaders : List Header :=
  connectionHeaders websocket close ++ lengthHeaders body

/-- a header map and the headers `dump` adds, in one map -/
def HasHeaders (m : HeaderMap) (added : List Header) (parsed : HeaderMap) : Prop :=
  OrderedSet.Sorted (fun e => fold e.1) parsed ∧ ∀ e, e ∈ parsed ↔ e ∈ m ∨ ∃ h ∈ added, e = (h.name, h.value)

section

variable {m : HeaderMap} {websocket close : Bool} {body : List UInt8}

theorem lit_crlf : lit "\r\n" = crlf := by decide

theorem lit_colon : lit ": " = 58 :: lit " " := by decide

theorem dumpConnection_eq : dumpConnection websocket close = headerLines (connectionHeaders websocket close) := by
  cases websocket <;> cases close <;> decide

theorem dumpHeaders_eq (h : ∀ e ∈ m, fold e.1 ≠ fold (lit "connection")) :
    dumpHeaders websocket m = headerLines (m.map entryHeader) := by
  have hall : (m.filter fun e => websocket || fold e.1 != fold (lit "connection")) = m := by
    rw [filter_eq_self]
    intro e he
    rw [Bool.or_eq_true, bne_iff_ne]
    exact .inr (h e he)
  rw [dumpHeaders, headerLines, flatMap_map]
  congr 1
  rw [lit_colon, lit_crlf]
  simp [entryHeader, Header.line]

theorem dumpBody_eq : dumpBody body = headerLines (lengthHeaders body) ++ (crlf ++ body) := by
  unfold dumpBody lengthHeaders
  split_ifs with hbody
  · rw [hbody]
    rfl
  have hfront : lit "content-length: " = lit "content-length" ++ 58 :: lit " " := by decide
  have hend : lit "\r\n\r\n" = crlf ++ crlf := by decide
  rw [hfront, hend]
  simp [Header.line]

/-- all that is dumped, up to the order -/
def dumpedHeaders (m : HeaderMap) (websocket close : Bool) (body : List UInt8) : List Header :=
  m.map entryHeader ++ addedHeaders websocket close body

theorem eq_of_mem_connectionHeaders {h : Header} (hh : h ∈ connectionHeaders websocket close) :
    h = ⟨lit "connection", lit " ", if close then lit "close" else lit "keep-alive"⟩ := by
  cases websocket with
  | true => cases hh
  | false => exact mem_singleton.1 hh

theorem eq_of_mem_lengthHeaders {h : Header} (hh : h ∈ lengthHeaders body) :
    body ≠ [] ∧ h = ⟨lit "content-length", lit " ", digits body.length⟩ := by
  unfold lengthHeaders at hh
  split_ifs at hh with hbody
  · cases hh
  · exact ⟨hbody, mem_singleton.1 hh⟩

theorem mem_dumpedHeaders {h : Header} : h ∈ dumpedHeaders m websocket close body ↔
    (∃ e ∈ m, entryHeader e = h) ∨ h ∈ connectionHeaders websocket close ∨ h ∈ lengthHeaders body := by
  rw [dumpedHeaders, addedHeaders, mem_append, mem_append, mem_map]

theorem isBlank_pad : ∀ c ∈ lit " ", isBlank c = true := all_eq_true.1 (by decide)

section

variable (hm : m.Admitted)
include hm

theorem entryHeader_plain {e : List UInt8 × List UInt8} (he : e ∈ m) : (entryHeader e).Plain where
  name_colon hc := hm.name e he 58 hc (by decide)
  name_feed hc := hm.name e he 10 hc (by decide)
  pad := isBlank_pad
  value_feed hc := hm.value e he 10 hc (by decide)
  first := hm.first e he

theorem dumpedHeaders_plain : ∀ h ∈ dumpedHeaders m websocket close body, h.Plain := by
  intro h hh
  rcases mem_dumpedHeaders.1 hh with ⟨e, he, rfl⟩ | hh | hh
  · exact entryHeader_plain hm he
  · rw [eq_of_mem_connectionHeaders hh]
    cases close with
    | false | true =>
      refine ⟨by decide, by decide, isBlank_pad, by decide, ?_⟩
      rintro c ⟨⟩
      rfl
  · rw [(eq_of_mem_lengthHeaders hh).2]
    have hname : 58 ∉ lit "content-length" ∧ 10 ∉ lit "content-length" := by decide
    refine ⟨hname.1, hname.2, isBlank_pad, not_mem_digits rfl _, fun c hc => ?_⟩
    have hdigit := isDigit_digits _ c (mem_of_mem_head? hc)
    rw [Bool.eq_false_iff]
    intro hblank
    simp only [isBlank, Bool.or_eq_true, beq_iff_eq] at hblank
    rcases hblank with rfl | rfl
    all_goals exact absurd hdigit (by decide)

theorem dumpedHeaders_short (hbody : body.length < 2 ^ 64) :
    ∀ h ∈ dumpedHeaders m websocket close body, h.line.length < maxLineSize := by
  intro h hh
  rcases mem_dumpedHeaders.1 hh with ⟨e, he, rfl⟩ | hh | hh
  · have hline := hm.line e he
    rw [lit_colon] at hline
    simpa only [entryHeader, Header.line, append_assoc, cons_append] using hline
  · rw [eq_of_mem_connectionHeaders hh]
    cases close <;> decide
  rw [(eq_of_mem_lengthHeaders hh).2]
  have hdigits : (digits body.length).length ≤ 19 + 1 := length_digits_le (hbody.trans (by norm_num))
  have hname : (lit "content-length").length = 14 ∧ (lit " ").length = 1 := by decide
  simp only [Header.line, length_append, length_cons, hname, maxLineSize]
  omega

theorem dumpedHeaders_nodup :
    ((dumpedHeaders m websocket close body).map fun h => fold h.name).Nodup := by
  have hentries : ((m.map entryHeader).map fun h => fold h.name).Nodup := by
    rw [map_map]
    refine pairwise_map.2 (hm.sorted.imp ?_)
    intro a b hlt
    exact ne_of_lt hlt
  have hadded : ((addedHeaders websocket close body).map fun h => fold h.name).Nodup := by
    unfold addedHeaders connectionHeaders lengthHeaders
    split_ifs <;> simp only [map_append, map_cons, map_nil] <;> decide
  rw [dumpedHeaders, map_append, nodup_append]
  refine ⟨hentries, hadded, ?_⟩
  intro a ha b hb
  obtain ⟨h, hh, rfl⟩ := mem_map.1 ha
  obtain ⟨e, he, rfl⟩ := mem_map.1 hh
  obtain ⟨x, hx, rfl⟩ := mem_map.1 hb
  rcases mem_append.1 hx with hx | hx
  · rw [eq_of_mem_connectionHeaders hx]
    exact hm.connection e he
  · rw [(eq_of_mem_lengthHeaders hx).2]
    exact hm.content_length e he

theorem dumpedHeaders_length {x : Header} (hx : x ∈ dumpedHeaders m websocket close body)
    (hname : fold x.name = fold (lit "content-length")) : x ∈ lengthHeaders body := by
  rcases mem_dumpedHeaders.1 hx with ⟨e, he, rfl⟩ | hx | hx
  · exact absurd hname (hm.content_length e he)
  · rw [eq_of_mem_connectionHeaders hx] at hname
    exact absurd hname (show fold (lit "connection") ≠ fold (lit "content-length") by decide)
  · exact hx

end

end

/-! ## The parser on dumped bytes -/

section

variable {δ : Type} {M : Message δ} {m : HeaderMap} {websocket close : Bool} {body : List UInt8} {hs : List Header}

theorem contentLength_dumped (hm : m.Admitted) (hbody : body.length < 2 ^ 64)
    (hperm : hs.Perm (dumpedHeaders m websocket close body)) (d : δ) :
    getContentLength M (M.setHeaders d (addHeaders [] hs)) = body.length := by
  have hnodup := ((hperm.map _).nodup_iff).2 (dumpedHeaders_nodup hm)
  unfold getContentLength
  rw [M.headers_setHeaders, getHeader_addHeaders hnodup]
  cases hf : hs.find? fun h => fold h.name == fold (lit "content-length") with
  | none =>
    by_cases hempty : body = []
    · rw [hempty]
      rfl
    -- the line is there and would have been found
    have hmem : (⟨lit "content-length", lit " ", digits body.length⟩ : Header) ∈ hs := by
      rw [hperm.mem_iff, mem_dumpedHeaders, lengthHeaders, if_neg hempty]
      exact .inr (.inr (mem_singleton.2 rfl))
    exact absurd (beq_self_eq_true _) (find?_eq_none.1 hf _ hmem)
  | some x =>
    have hname : fold x.name = fold (lit "content-length") := by simpa using find?_some hf
    have hx := dumpedHeaders_length hm (hperm.mem_iff.1 (mem_of_find?_eq_some hf)) hname
    have hlt : decimal (digits body.length) < 2 ^ 64 := by
      rw [decimal_digits]
      exact hbody
    rw [(eq_of_mem_lengthHeaders hx).2]
    simp [digits_ne_nil, stoull_digits (digits_ne_nil _) (isDigit_digits _) hlt, decimal_digits]

theorem execute_dump {first : List UInt8} {d : δ} (hfirst : M.parseFirstLine first M.fresh = (d, true))
    (hfeed : 10 ∉ first) (hshort : first.length < maxLineSize) (hd : M.headers d = []) (hm : m.Admitted)
    (hbody : body.length < 2 ^ 64) (hperm : hs.Perm (dumpedHeaders m websocket close body)) :
    ∃ headers, HasHeaders m (addedHeaders websocket close body) headers ∧
      Finishes M M.parser (first ++ crlf ++ (headerLines hs ++ (crlf ++ body)))
        (first ++ crlf ++ (headerLines hs ++ (crlf ++ body))).length (withBody M (M.setHeaders d headers) body) := by
  have hnodup := ((hperm.map _).nodup_iff).2 (dumpedHeaders_nodup hm)
  have hdone := execute_message hfirst hfeed hshort hd
    (fun h hh => dumpedHeaders_plain hm h (hperm.mem_iff.1 hh))
    (fun h hh => dumpedHeaders_short hm hbody h (hperm.mem_iff.1 hh))
    hnodup (contentLength_dumped hm hbody hperm d) []
  rw [append_nil] at hdone
  refine ⟨addHeaders [] hs, ⟨sorted_addHeaders (fresh_nil hnodup) Pairwise.nil, fun e => ?_⟩, hdone⟩
  rw [mem_addHeaders (fresh_nil hnodup)]
  simp only [hperm.mem_iff, dumpedHeaders, mem_append, mem_map, not_mem_nil, or_false]
  constructor
  · rintro ⟨h, ⟨x, hx, rfl⟩ | hh, rfl⟩
    · exact .inl hx
    · exact .inr ⟨h, hh, rfl⟩
  · rintro (he | ⟨h, hh, rfl⟩)
    · exact ⟨entryHeader e, .inl ⟨e, he, rfl⟩, rfl⟩
    · exact ⟨h, .inr hh, rfl⟩

end

/-! ## First lines -/

variable (v : UInt8)

theorem dumpVersion_eq :
    dumpVersion v = lit "HTTP/" ++ (digits (v >>> 4).toNat ++ 46 :: digits (v &&& 0x0F).toNat) := by
  have hdot : lit "." = [46] := by decide
  rw [dumpVersion, hdot, append_assoc, append_assoc, singleton_append]

theorem parseHttpVersion_dump : parseHttpVersion (dumpVersion v) = v := by
  have hhigh : (v >>> 4).toNat = v.toNat / 16 := by exact Nat.shiftRight_eq_div_pow _ 4
  have hlow : (v &&& 0x0F).toNat = v.toNat % 16 := by exact Nat.and_two_pow_sub_one_eq_mod v.toNat 4
  have hlt : v.toNat < 256 := v.toNat_lt
  rw [dumpVersion_eq, hhigh, hlow, parseHttpVersion_digits (by omega) (by omega), Nat.div_add_mod, UInt8.ofNat_toNat]

theorem not_mem_dumpVersion {c : UInt8} (hc : isDigit c = false) (hdot : c ≠ 46) (hname : c ∉ lit "HTTP/") (v : UInt8) :
    c ∉ dumpVersion v := by
  rw [dumpVersion_eq]
  simp [hname, hdot, not_mem_digits hc]

theorem dumpVersion_no_blank : 32 ∉ dumpVersion v := not_mem_dumpVersion rfl (by decide) (by decide) v

theorem dumpVersion_no_feed : 10 ∉ dumpVersion v := not_mem_dumpVersion rfl (by decide) (by decide) v

theorem httpMethodToString_no_feed {m : HttpMethod} (h : m ≠ .invalidMethod) : 10 ∉ httpMethodToString m := by
  by_cases hm : m = .msearch
  · rw [hm]
    decide
  · rw [httpMethodToString_eq_name h hm]
    exact not_mem_of_visible (charsToHttpMethod_name h hm).2 (by decide)

theorem statusMap_no_feed : ∀ e ∈ statusMap, 10 ∉ lit e.2 := by
  simp only [statusMap, forall_mem_cons]
  repeat' apply And.intro
  all_goals first | exact not_mem_lit (by decide) | exact forall_mem_nil _

theorem httpStatusToString_no_feed (status : ℤ) : 10 ∉ httpStatusToString status := by
  unfold httpStatusToString
  cases hf : statusMap.find? fun e => e.1 == status with
  | none => exact not_mem_lit (by decide)
  | some e => exact statusMap_no_feed e (mem_of_find?_eq_some hf)

/-- a query or a fragment that is dumped -/
def optional (l : List UInt8) : Option (List UInt8) := if l = [] then none else some l

theorem optional_getD (l : List UInt8) : (optional l).getD [] = l := by
  unfold optional
  split_ifs with hl
  · exact hl.symm
  · rfl

theorem optional_elim (mark : List UInt8) (l : List UInt8) :
    (if l = [] then [] else mark) ++ l = (optional l).elim [] fun x => mark ++ x := by
  unfold optional
  split_ifs with hl
  · exact hl
  · rfl

namespace HttpRequest

variable {r : HttpRequest}

def target (r : HttpRequest) : List UInt8 :=
  r.path ++ ((optional r.query).elim [] fun q => 63 :: q) ++ ((optional r.fragment).elim [] fun f => 35 :: f)

theorem firstLine_eq (r : HttpRequest) :
    r.firstLine = httpMethodToString r.method ++ 32 :: (r.target ++ 32 :: dumpVersion r.version) := by
  have hquery := optional_elim (lit "?") r.query
  have hfragment := optional_elim (lit "#") r.fragment
  have hone : lit " " = [32] ∧ lit "?" = [63] ∧ lit "#" = [35] := by decide
  simp only [hone, singleton_append] at hquery hfragment
  simp [firstLine, target, hone, ← hquery, ← hfragment]

theorem not_mem_target (h : r.Admitted) {c : UInt8} (hc : c = 32 ∨ c = 10) : c ∉ r.target := by
  have hpath : c ∉ r.path := fun hmem => h.path c hmem (by rcases hc with rfl | rfl <;> decide)
  have hquery : c ∉ r.query := fun hmem => h.query c hmem (by rcases hc with rfl | rfl <;> decide)
  have hfragment : c ∉ r.fragment := fun hmem => h.fragment c hmem (by rcases hc with rfl | rfl <;> decide)
  have hmarks : c ≠ 63 ∧ c ≠ 35 := by rcases hc with rfl | rfl <;> decide
  unfold target optional
  split_ifs <;> simp [hpath, hquery, hfragment, hmarks]

theorem setUri_target (h : r.Admitted) {d : HttpRequest} (hq : d.query = []) (hf : d.fragment = []) :
    d.setUri r.target = { d with path := r.path, query := r.query, fragment := r.fragment } := by
  have hquery : ∀ q, optional r.query = some q → 35 ∉ q := by
    intro q hopt hmem
    have hget := optional_getD r.query
    rw [hopt, Option.getD_some] at hget
    rw [hget] at hmem
    exact h.query 35 hmem (by decide)
  rw [target, setUri_parts (fun hc => h.path 63 hc (by decide)) (fun hc => h.path 35 hc (by decide)) hquery hq hf,
    optional_getD,
    optional_getD]

theorem parseRequestLine_firstLine (h : r.Admitted) (hm : r.method ≠ .msearch) :
    request.parseFirstLine r.firstLine request.fresh =
      ({ r with close := true, websocket := false, headers := [], body := [] }, true) := by
  obtain ⟨hmethod, hvisible⟩ := charsToHttpMethod_name h.method hm
  rw [← httpMethodToString_eq_name h.method hm] at hmethod hvisible
  have hblank : 32 ∉ httpMethodToString r.method := not_mem_of_visible hvisible (by decide)
  rw [firstLine_eq, request_parseFirstLine]
  simp only [parseRequestLine, cut_append hblank, cut_append (not_mem_target h (.inl rfl)), hmethod,
    parseHttpVersion_dump r.version]
  rw [setUri_target h rfl rfl]
  rfl

theorem parseRequestLine_msearch (hm : r.method = .msearch) :
    ∃ d, request.parseFirstLine r.firstLine request.fresh = (d, true) ∧ d.method = .invalidMethod ∧ d.headers = [] := by
  rw [firstLine_eq, hm]
  exact ⟨_, rfl, rfl, rfl⟩

theorem firstLine_no_feed (h : r.Admitted) : 10 ∉ r.firstLine := by
  have h1 := httpMethodToString_no_feed h.method
  have h2 := not_mem_target h (.inr rfl)
  have h3 := dumpVersion_no_feed r.version
  rw [firstLine_eq]
  simp [h1, h2, h3]

end HttpRequest

namespace HttpResponse

variable {r : HttpResponse}

/-- what stands for the reason on the line -/
def text (r : HttpResponse) : List UInt8 := if r.reason = [] then httpStatusToString r.status else r.reason

theorem firstLine_eq (h : r.Admitted) :
    r.firstLine = dumpVersion r.version ++ 32 :: (digits r.status.toNat ++ 32 :: r.text) := by
  have hone : lit " " = [32] := by decide
  have hstatus : (BitVec.ofInt 32 r.status).toNat = r.status.toNat := by
    rw [BitVec.toNat_ofInt, Int.emod_eq_of_lt h.status.1 (h.status.2.trans (by norm_num))]
  simp [firstLine, text, hone, hstatus]

theorem parseStatusLine_firstLine (h : r.Admitted) :
    response.parseFirstLine r.firstLine response.fresh =
      ({ version := r.version, status := r.status, reason := r.text }, true) := by
  have hcast : (r.status.toNat : ℤ) = r.status := Int.toNat_of_nonneg h.status.1
  have hlt : r.status.toNat < 2 ^ 31 := by
    have hint := h.status.2
    rw [← hcast] at hint
    exact_mod_cast hint
  have hdigits : 32 ∉ digits r.status.toNat := not_mem_digits rfl _
  have hstoi : stoi (digits r.status.toNat) = some r.status := by
    rw [stoi_digits (digits_ne_nil _) (isDigit_digits _) (by rw [decimal_digits]; exact hlt), decimal_digits, hcast]
  rw [firstLine_eq h, response_parseFirstLine]
  simp only [parseStatusLine, cut_append (dumpVersion_no_blank r.version), cut_append hdigits, hstoi,
    parseHttpVersion_dump r.version]
  rfl

theorem firstLine_no_feed (h : r.Admitted) : 10 ∉ r.firstLine := by
  have h1 := dumpVersion_no_feed r.version
  have h2 : 10 ∉ digits r.status.toNat := not_mem_digits rfl _
  have h3 : 10 ∉ r.text := by
    unfold text
    split_ifs
    · exact httpStatusToString_no_feed r.status
    · exact fun hc => h.reason 10 hc (by decide)
  rw [firstLine_eq h]
  simp [h1, h2, h3]

end HttpResponse

/-! ## Round trips -/

/-- the bytes of `dump` are taken whole and give the request back, with the headers `dump` adds -/
def HttpRequest.RoundTrips (r : HttpRequest) : Prop :=
  ∃ p, execute request request.parser r.dump = (p, r.dump.length) ∧ p.finished = true ∧ p.hasError = false ∧
    p.data.method = r.method ∧ p.data.version = r.version ∧ p.data.path = r.path ∧ p.data.query = r.query ∧
    p.data.fragment = r.fragment ∧ p.data.body = r.body ∧
    HasHeaders r.headers (addedHeaders r.websocket r.close r.body) p.data.headers

theorem HttpRequest.dump_eq {r : HttpRequest} (h : r.Admitted) :
    r.dump = r.firstLine ++ crlf ++
      (headerLines (connectionHeaders r.websocket r.close ++ r.headers.map entryHeader ++ lengthHeaders r.body) ++
        (crlf ++ r.body)) := by
  rw [dump, lit_crlf, dumpConnection_eq, dumpHeaders_eq h.headers.connection, dumpBody_eq]
  simp

theorem dumped_perm (m : HeaderMap) (websocket close : Bool) (body : List UInt8) :
    (connectionHeaders websocket close ++ m.map entryHeader ++ lengthHeaders body).Perm
    (dumpedHeaders m websocket close body) := by
  rw [dumpedHeaders, addedHeaders, ← append_assoc]
  exact perm_append_comm.append_right _

/-- **The request round trip.** -/
theorem dump_round_trip_iff (r : HttpRequest) (h : r.Admitted) : r.RoundTrips ↔ r.method ≠ .msearch := by
  have hperm := dumped_perm r.headers r.websocket r.close r.body
  constructor
  · rintro ⟨p, hexec, -, -, hmethod, -⟩ hm
    obtain ⟨d, hline, hinvalid, hd⟩ := parseRequestLine_msearch hm
    obtain ⟨headers, -, p', hexec', -, -, hdata⟩ := execute_dump (M := request) hline (firstLine_no_feed h) h.line hd
      h.headers h.body hperm
    rw [← dump_eq h] at hexec'
    obtain rfl : p = p' := (Prod.ext_iff.1 (hexec.symm.trans hexec')).1
    -- neither headers nor a body change the method
    have hkept : p.data.method = .invalidMethod := by
      rw [hdata, withBody]
      split_ifs
      all_goals exact hinvalid
    rw [hkept] at hmethod
    exact h.method hmethod.symm
  · intro hm
    obtain ⟨headers, hheaders, p, hexec, hfin, herr, hdata⟩ := execute_dump (M := request)
      (parseRequestLine_firstLine h hm) (firstLine_no_feed h) h.line rfl h.headers h.body hperm
    rw [← dump_eq h] at hexec
    refine ⟨p, hexec, hfin, herr, ?_⟩
    rw [hdata, withBody]
    split_ifs with hbody
    · exact ⟨rfl, rfl, rfl, rfl, rfl, hbody.symm, hheaders⟩
    · exact ⟨rfl, rfl, rfl, rfl, rfl, rfl, hheaders⟩

/-- a request with all its parts -/
def uploadRequest : HttpRequest where
  method := .post
  close := false
  path := lit "/a"
  query := lit "x=1?"
  fragment := lit "f#"
  body := [0, 13, 10]
  headers := [(lit "Host", lit "h: 1"), (lit "x", [])]

/-- one with the method the table spells with blanks -/
def searchRequest : HttpRequest := { uploadRequest with method := .msearch }

theorem not_mem_of_all {l t : List UInt8} (h : (l.all fun c => !t.contains c) = true) : ∀ c ∈ l, c ∉ t := by
  intro c hc hmem
  have hnot := all_eq_true.1 h c hc
  simp [hmem] at hnot

theorem uploadRequest_admitted : uploadRequest.Admitted where
  method := by decide
  path_ne := by decide
  path := not_mem_of_all (by decide)
  query := not_mem_of_all (by decide)
  fragment := not_mem_of_all (by decide)
  headers :=
    { sorted := by unfold OrderedSet.Sorted; decide
      connection := by decide
      content_length := by decide
      name_ne := by decide
      name := by
        intro e he
        rcases mem_pair.1 he with rfl | rfl
        all_goals exact not_mem_of_all (by decide)
      value := by
        intro e he
        rcases mem_pair.1 he with rfl | rfl
        all_goals exact not_mem_of_all (by decide)
      first := by
        intro e he c hc
        rcases mem_pair.1 he with rfl | rfl
        · cases hc
          rfl
        · cases hc
      line := by decide }
  line := by decide
  body := by decide

theorem searchRequest_admitted : searchRequest.Admitted :=
  { uploadRequest_admitted with method := by decide, line := by decide }

theorem upload_round_trip : uploadRequest.RoundTrips :=
  (dump_round_trip_iff uploadRequest uploadRequest_admitted).2 (by decide)

theorem search_not_parsed_back :
    searchRequest.Admitted ∧ (execute request request.parser searchRequest.dump).1.finished = true ∧
      (execute request request.parser searchRequest.dump).1.data.method = .invalidMethod ∧
      (execute request request.parser searchRequest.dump).1.data.path = lit "-" ∧
      (execute request request.parser searchRequest.dump).1.data.version = 0 ∧ ¬ searchRequest.RoundTrips := by
  have hparsed : ∀ p, (execute request request.parser searchRequest.dump).1 = p → p.finished = true ∧
    p.data.method = .invalidMethod ∧
      p.data.path = lit "-" ∧ p.data.version = 0 := by
    rintro p rfl
    decide
  obtain ⟨hfin, hmethod, hpath, hversion⟩ := hparsed _ rfl
  refine ⟨searchRequest_admitted, hfin, hmethod, hpath, hversion, ?_⟩
  rintro ⟨p, hexec, -, -, hp, -⟩
  rw [hexec] at hmethod
  rw [hmethod] at hp
  exact absurd hp (by decide)

/-- **The response round trip.** -/
theorem response_round_trip (r : HttpResponse) (h : r.Admitted) :
    ∃ p, execute response response.parser r.dump = (p, r.dump.length) ∧ p.finished = true ∧ p.hasError = false ∧
      p.data.version = r.version ∧ p.data.status = r.status ∧ p.data.body = r.body ∧
      (r.reason ≠ [] → p.data.reason = r.reason) ∧
      HasHeaders r.headers (addedHeaders r.websocket r.close r.body) p.data.headers := by
  have hdump : r.dump = r.firstLine ++ crlf ++
      (headerLines (dumpedHeaders r.headers r.websocket r.close r.body) ++ (crlf ++ r.body)) := by
    rw [HttpResponse.dump, lit_crlf, dumpConnection_eq, dumpHeaders_eq h.headers.connection, dumpBody_eq, h.cookies]
    simp [dumpedHeaders, addedHeaders]
  obtain ⟨headers, hheaders, p, hexec, hfin, herr, hdata⟩ := execute_dump (M := response)
    (HttpResponse.parseStatusLine_firstLine h) (HttpResponse.firstLine_no_feed h) h.line rfl h.headers h.body
    (Perm.refl _)
  rw [← hdump] at hexec
  have htext : r.reason ≠ [] → r.text = r.reason := fun hne => if_neg hne
  refine ⟨p, hexec, hfin, herr, ?_⟩
  rw [hdata, withBody]
  split_ifs with hbody
  · exact ⟨rfl, rfl, hbody.symm, htext, hheaders⟩
  · exact ⟨rfl, rfl, rfl, htext, hheaders⟩

def teapotResponse : HttpResponse where
  status := 418
  version := 0xFF
  close := false
  body := [10, 10]
  reason := lit "I'm a teapot"
  headers := uploadRequest.headers

theorem teapot_round_trip : teapotResponse.Admitted ∧
    ∃ p, execute response response.parser teapotResponse.dump = (p, teapotResponse.dump.length) ∧ p.finished = true ∧
      p.hasError = false ∧ p.data.version = teapotResponse.version ∧ p.data.status = teapotResponse.status ∧
      p.data.body = teapotResponse.body ∧ (teapotResponse.reason ≠ [] → p.data.reason = teapotResponse.reason) ∧
      HasHeaders teapotResponse.headers (addedHeaders teapotResponse.websocket teapotResponse.close teapotResponse.body)
        p.data.headers := by
  have hadmitted : teapotResponse.Admitted :=
    ⟨rfl, by decide, not_mem_of_all (by decide), uploadRequest_admitted.headers, by decide, by decide⟩
  exact ⟨hadmitted, response_round_trip teapotResponse hadmitted⟩

end CoServer.Http
