/-
The incremental HTTP parsers (src/http/http_parser.cpp).

`HttpRequestParser` and `HttpResponseParser` are the same machine but for their first line and the object they fill.
Here it is written once, over a `Message`: how the first line is parsed, and the accessors the machine uses. `execute`
is the loop over the bytes of one call; its body branch copies as much as there is of the body, and the loop ends.

Results:
- `execute_append`: a call on two strings in a row is a call on the first, and one on the second if all of the first was
  taken.
- `chunk_invariance`: however a string is cut into pieces, the calls on the pieces leave a fresh parser in the same
  state (line, message, bytes left of the body and flags included) as one call on the whole string, and consume as many
  bytes.
-/
import CoServer.Http.Message

namespace CoServer.Http

open CoServer.Core CString List

variable {δ : Type}

/-! ## The code -/

/-- `MAX_LINE_SIZE` -/
def maxLineSize : ℕ := 8192

/-- `parseHttpVersion`: 0x11 for "HTTP/1.1", 0 for what is none -/
def parseHttpVersion (version : List UInt8) : UInt8 :=
  if (lit "HTTP/").isPrefixOf version then
    match strtol (version.drop 5) with
    | some (major, 46 :: rest) =>
      match strtol rest with
      | some (minor, []) => UInt8.ofBitVec ((BitVec.ofInt 64 major <<< 4 ||| BitVec.ofInt 64 minor).setWidth 8)
      | _ => 0
    | _ => 0
  else 0

def trimLeft (s : List UInt8) : List UInt8 := s.dropWhile fun c => c == 32 || c == 9

/-- `State`; the first line is the request line of one parser and the status line of the other -/
inductive State where
  | firstLine
  | headers
  | body
  | done
deriving DecidableEq

structure Parser (δ : Type) where
  state : State := .firstLine
  line : List UInt8 := []
  data : δ
  bodyRemaining : ℕ := 0
  finished : Bool := false
  error : ℤ := 0
deriving DecidableEq

def Parser.setError (p : Parser δ) (error : ℤ) : Parser δ := { p with error := error }

def Parser.hasError (p : Parser δ) : Bool := p.error != 0

/-- what a parser fills: its initial value, its headers and its body, and how its first line is parsed: what is filled
in, and whether the line is accepted -/
structure Message (δ : Type) where
  fresh : δ
  parseFirstLine : List UInt8 → δ → δ × Bool
  headers : δ → HeaderMap
  setHeaders : δ → HeaderMap → δ
  addBody : δ → List UInt8 → δ
  setHeaders_headers : ∀ d, setHeaders d (headers d) = d
  headers_setHeaders : ∀ d m, headers (setHeaders d m) = m
  setHeaders_setHeaders : ∀ d m n, setHeaders (setHeaders d m) n = setHeaders d n
  addBody_append : ∀ d a b, addBody (addBody d a) b = addBody d (a ++ b)

/-- the parser a constructor makes -/
def Message.parser (M : Message δ) : Parser δ := { data := M.fresh }

section

variable (M : Message δ)

/-- `getContentLength` -/
def getContentLength (d : δ) : ℕ :=
  let v := (M.headers d).getHeader (lit "content-length")
  if v = [] then 0 else (stoull v).getD 0

variable (line : List UInt8)

variable (p : Parser δ)

def parseHeaderLine : Parser δ :=
  if line = [] then
    let bodyLen := getContentLength M p.data
    if 0 < bodyLen then { p with bodyRemaining := bodyLen, state := .body }
      else { p with finished := true, state := .done }
  else
    match cut 58 line with
    | none => p.setError (-1)
    | some (name, rest) => { p with data := M.setHeaders p.data ((M.headers p.data).assign name (trimLeft rest)) }

/-- the end of `parseRequestLine` and `parseStatusLine`: the next state, or the error -/
def parseFirstLine : Parser δ :=
  let (data, ok) := M.parseFirstLine line p.data
  if ok then { p with data := data, state := .headers } else { p with data := data }.setError (-1)

def processLine : Parser δ :=
  match p.state with
  | .firstLine => parseFirstLine M line p
  | .headers => parseHeaderLine M line p
  | .body | .done => p

/-- the end of a line: a trailing CR is dropped -/
def endLine : Parser δ :=
  { processLine M (if p.line.getLast? = some 13 then p.line.dropLast else p.line) p with line := [] }

/-- a byte of a line -/
def pushChar (c : UInt8) (p : Parser δ) : Parser δ :=
  let p := { p with line := p.line ++ [c] }
  if maxLineSize < p.line.length then p.setError (-1) else p

/-- one turn of the loop outside the body -/
def takeChar (c : UInt8) (p : Parser δ) : Parser δ := if c = 10 then endLine M p else pushChar c p

/-- one turn of the loop in the body -/
def takeBody (bs : List UInt8) (p : Parser δ) : Parser δ :=
  let p := { p with data := M.addBody p.data bs, bodyRemaining := p.bodyRemaining - bs.length }
  if p.bodyRemaining = 0 then { p with finished := true, state := .done } else p

/-- the loop's condition on the parser -/
def Parser.stopped : Bool := p.finished || p.hasError

/-- `execute`: the parser after it and the number of bytes consumed -/
def execute (p : Parser δ) : List UInt8 → Parser δ × ℕ
  | [] => (p, 0)
  | c :: data =>
    if p.stopped then (p, 0)
    else if p.state = .body then
      let toCopy := min p.bodyRemaining (data.length + 1)
      -- here the loop ends: what is left of the data or of the body is empty
      (takeBody M ((c :: data).take toCopy) p, toCopy)
    else ((execute (takeChar M c p) data).1, (execute (takeChar M c p) data).2 + 1)

/-- calls on the pieces of a string, until one consumes less than its piece -/
def executeAll (p : Parser δ) : List (List UInt8) → Parser δ × ℕ
  | [] => (p, 0)
  | piece :: pieces =>
    let r := execute M p piece
    if r.2 < piece.length then r else ((executeAll r.1 pieces).1, r.2 + (executeAll r.1 pieces).2)

end

/-! ## The two parsers -/

/-- the last statements of `parseRequestLine`: the part of `uri` from the first '?' is the query -/
def HttpRequest.setPathAndQuery (r : HttpRequest) (uri : List UInt8) : HttpRequest :=
  match cut 63 uri with
  | some (path, query) => { r with query := query, path := path }
  | none => { r with path := uri }

/-- and that from the first '#' the fragment -/
def HttpRequest.setUri (r : HttpRequest) (uri : List UInt8) : HttpRequest :=
  match cut 35 uri with
  | some (uri, fragment) => { r with fragment := fragment }.setPathAndQuery uri
  | none => r.setPathAndQuery uri

/-- `parseRequestLine` -/
def parseRequestLine (line : List UInt8) (r : HttpRequest) : HttpRequest × Bool :=
  match cut 32 line with
  | none => (r, false)
  | some (method, rest) =>
    let r := { r with method := charsToHttpMethod method }
    match cut 32 rest with
    | none => (r, false)
    | some (uri, version) => ({ r with version := parseHttpVersion version }.setUri uri, true)

/-- `parseStatusLine` -/
def parseStatusLine (line : List UInt8) (r : HttpResponse) : HttpResponse × Bool :=
  match cut 32 line with
  | none => (r, false)
  | some (version, rest) =>
    let r := { r with version := parseHttpVersion version }
    let codeStr := match cut 32 rest with
      | some (code, _) => code
      | none => rest
    match stoi codeStr with
    | none => (r, false)
    | some code =>
      let r := { r with status := code }
      match cut 32 rest with
      | some (_, reason) => ({ r with reason := reason }, true)
      | none => (r, true)

/-- `HttpRequestParser` -/
def request : Message HttpRequest where
  fresh := {}
  parseFirstLine := parseRequestLine
  headers := HttpRequest.headers
  setHeaders d m := { d with headers := m }
  addBody d bs := { d with body := d.body ++ bs }
  setHeaders_headers _ := rfl
  headers_setHeaders _ _ := rfl
  setHeaders_setHeaders _ _ _ := rfl
  addBody_append d a b := by rw [append_assoc]

/-- `HttpResponseParser` -/
def response : Message HttpResponse where
  fresh := {}
  parseFirstLine := parseStatusLine
  headers := HttpResponse.headers
  setHeaders d m := { d with headers := m }
  addBody d bs := { d with body := d.body ++ bs }
  setHeaders_headers _ := rfl
  headers_setHeaders _ _ := rfl
  setHeaders_setHeaders _ _ _ := rfl
  addBody_append d a b := by rw [append_assoc]

theorem request_parseFirstLine : request.parseFirstLine = parseRequestLine := rfl

theorem response_parseFirstLine : response.parseFirstLine = parseStatusLine := rfl

/-! ## Two strings in a row -/

variable {M : Message δ} {p : Parser δ}

theorem execute_stopped (h : p.stopped = true) (data : List UInt8) : execute M p data = (p, 0) := by
  cases data with
  | nil => rfl
  | cons c data => rw [execute, if_pos h]

theorem execute_body (h : p.stopped = false) (hb : p.state = .body) {data : List UInt8} (hne : data ≠ []) :
    execute M p data =
      (takeBody M (data.take (min p.bodyRemaining data.length)) p, min p.bodyRemaining data.length) := by
  cases data with
  | nil => exact absurd rfl hne
  | cons c data => rw [execute, if_neg (by rw [h]; decide), if_pos hb, length_cons]

theorem execute_char (h : p.stopped = false) (hb : p.state ≠ .body) (c : UInt8) (data : List UInt8) :
    execute M p (c :: data) = ((execute M (takeChar M c p) data).1, (execute M (takeChar M c p) data).2 + 1) := by
  rw [execute, if_neg (by rw [h]; decide), if_neg hb]

theorem takeBody_last {bs : List UInt8} (h : p.bodyRemaining ≤ bs.length) : (takeBody M bs p).stopped = true := by
  have hzero : p.bodyRemaining - bs.length = 0 := by omega
  simp [takeBody, hzero, Parser.stopped]

theorem takeBody_part {bs : List UInt8} (h : bs.length < p.bodyRemaining) :
    takeBody M bs p = { p with data := M.addBody p.data bs, bodyRemaining := p.bodyRemaining - bs.length } := by
  have hpos : p.bodyRemaining - bs.length ≠ 0 := by omega
  simp [takeBody, hpos]

theorem takeBody_takeBody {a b : List UInt8} (h : a.length < p.bodyRemaining) :
    takeBody M b (takeBody M a p) = takeBody M (a ++ b) p := by
  rw [takeBody_part h]
  simp only [takeBody, M.addBody_append, length_append, Nat.sub_sub]

theorem execute_append_body (hs : p.stopped = false) (hb : p.state = .body) {a : List UInt8} (hne : a ≠ [])
    (b : List UInt8) :
    execute M p (a ++ b) =
      if (execute M p a).2 < a.length then execute M p a
      else ((execute M (execute M p a).1 b).1, (execute M p a).2 + (execute M (execute M p a).1 b).2) := by
  rw [execute_body hs hb hne, execute_body hs hb (by simp [hne]), length_append]
  rcases lt_trichotomy p.bodyRemaining a.length with hlt | heq | hgt
  · rw [Nat.min_eq_left hlt.le, Nat.min_eq_left (by omega), if_pos hlt, take_append_of_le_length hlt.le]
  · rw [heq, Nat.min_self, if_neg (lt_irrefl _), Nat.min_eq_left (by omega), take_left, take_length,
      execute_stopped (takeBody_last heq.le), Nat.add_zero]
  rw [Nat.min_eq_right hgt.le, if_neg (lt_irrefl _), take_length]
  cases b with
  | nil =>
    rw [append_nil, length_nil, Nat.add_zero, Nat.min_eq_right hgt.le, take_length]
    rfl
  | cons c b =>
    have hpart := takeBody_part (M := M) hgt
    have hs' : (takeBody M a p).stopped = false := by rw [hpart]; exact hs
    have hb' : (takeBody M a p).state = .body := by rw [hpart]; exact hb
    have hrem : (takeBody M a p).bodyRemaining = p.bodyRemaining - a.length := by rw [hpart]
    have hmin : min p.bodyRemaining (a.length + (c :: b).length) =
        a.length + min (p.bodyRemaining - a.length) (c :: b).length := by omega
    rw [execute_body hs' hb' (cons_ne_nil c b), hrem, takeBody_takeBody hgt, hmin, take_length_add_append]

theorem execute_append (p : Parser δ) (a b : List UInt8) :
    execute M p (a ++ b) =
      if (execute M p a).2 < a.length then execute M p a
      else ((execute M (execute M p a).1 b).1, (execute M p a).2 + (execute M (execute M p a).1 b).2) := by
  induction a generalizing p with
  | nil => rw [execute, nil_append, if_neg (by simp), Nat.zero_add]
  | cons c a ih =>
    cases hs : p.stopped with
    | true => rw [execute_stopped hs, execute_stopped hs, if_pos (by simp)]
    | false =>
      by_cases hb : p.state = .body
      · exact execute_append_body hs hb (cons_ne_nil c a) b
      rw [cons_append, execute_char hs hb, execute_char hs hb, ih]
      split_ifs with h1 h2 h2
      · rfl
      · rw [length_cons] at h2
        omega
      · rw [length_cons] at h2
        omega
      · rw [Nat.add_right_comm]

theorem execute_le (p : Parser δ) (data : List UInt8) : (execute M p data).2 ≤ data.length := by
  induction data generalizing p with
  | nil => exact le_rfl
  | cons c data ih =>
    rw [execute]
    split_ifs
    · exact Nat.zero_le _
    · exact Nat.min_le_right _ _
    · exact Nat.succ_le_succ (ih _)

theorem execute_running (p : Parser δ) (data : List UInt8) (h : (execute M p data).1.stopped = false) :
    (execute M p data).2 = data.length := by
  induction data generalizing p with
  | nil => rfl
  | cons c data ih =>
    cases hs : p.stopped with
    | true =>
      rw [execute_stopped hs, hs] at h
      cases h
    | false =>
      by_cases hb : p.state = .body
      · rw [execute_body hs hb (cons_ne_nil c data)] at h ⊢
        refine Nat.min_eq_right (le_of_not_gt fun hlt => ?_)
        rw [takeBody_last (by rw [length_take]; omega)] at h
        cases h
      · rw [execute_char hs hb] at h ⊢
        rw [ih _ h, length_cons]

theorem execute_prefix {a b : List UInt8} (hb : b ≠ []) (h : (execute M p (a ++ b)).2 = (a ++ b).length) :
    (execute M p a).1.stopped = false ∧ execute M (execute M p a).1 b = ((execute M p (a ++ b)).1, b.length) := by
  have hpos : 0 < b.length := length_pos_iff.2 hb
  rw [length_append] at h
  rw [execute_append] at h ⊢
  by_cases hlt : (execute M p a).2 < a.length
  · rw [if_pos hlt] at h
    omega
  rw [if_neg hlt] at h ⊢
  have hle : (execute M p a).2 ≤ a.length := execute_le p a
  cases hs : (execute M p a).1.stopped with
  | true =>
    rw [execute_stopped hs] at h
    omega
  | false => exact ⟨rfl, Prod.ext rfl (by dsimp only at h; omega)⟩

theorem executeAll_eq (p : Parser δ) (pieces : List (List UInt8)) :
    executeAll M p pieces = execute M p pieces.flatten := by
  induction pieces generalizing p with
  | nil => rfl
  | cons piece pieces ih => rw [executeAll, flatten_cons, execute_append, ih]

/-- **Chunk invariance.** -/
theorem chunk_invariance (data : List UInt8) (pieces : List (List UInt8)) (hcut : pieces.flatten = data) :
    executeAll request request.parser pieces = execute request request.parser data ∧
      executeAll response response.parser pieces = execute response response.parser data := by
  subst hcut
  exact ⟨executeAll_eq _ pieces, executeAll_eq _ pieces⟩

/-- the line end cut in two, and the body -/
theorem chunk_invariance_two :
    let pieces := [lit "PUT /a HTTP/1.1\r", lit "\nContent-Length: 2\r\n\r", lit "\nx", lit "yGET"]
    (executeAll request request.parser pieces).2 = 40 ∧
      (executeAll request request.parser pieces).1.data =
        { method := .put, path := lit "/a", headers := [(lit "Content-Length", lit "2")], body := lit "xy" } := by
  intro pieces
  rw [(chunk_invariance _ pieces rfl).1]
  decide

end CoServer.Http
