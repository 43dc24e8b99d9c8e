/-
`HttpSession::recvRequest` (src/http/http_session.cpp) on a socket, call after call.

A call makes a parser and a buffer of its own, reads into the buffer and hands it to the parser until a request is
complete. `Net` says how many bytes a read returns at most, so that every cut of the stream into reads is one of its
behaviours. After `close` a read fails.

Results:
- `recvLoop_ends`: the loop on one request: if the parser takes all of the rest of it and finishes, and a read of the
  stream ends where it ends, the stream is left there.
- `receives_iff`: requests the parser supports, sent one after another on an open connection on which no read fails:
  successive calls return exactly them, in order and with their bodies, and leave the stream at the next request each
  time, iff every request ends where a read of the stream ends.
- `pipelined_request_lost`: of two requests in one read the second is gone with the buffer of the first call.
-/
import CoServer.Http.Wire
import CoServer.Stream.FixSize

namespace CoServer.Http

open CoServer.Core CString Function List Request
open CoServer.Stream (Net Socket recv_cases)

/-! ## The code -/

/-- `REQUEST_BUFFER_SIZE` -/
def requestBufferSize : ℕ := 4096

structure Session where
  socket : Socket
  closed : Bool
deriving DecidableEq

def Session.close (s : Session) : Session := { s with closed := true }

variable (net : Net)

def Session.read (length : ℕ) (s : Session) : ℤ × List UInt8 × Session :=
  if s.closed then (-1, [], s)
  else
    let (rt, bs, socket) := Stream.read net length s.socket
    (rt, bs, { s with socket := socket })

/-- the loop of `recvRequest`, with the buffer and the offset at which the next read stores -/
def recvLoop : ℕ → Parser HttpRequest → List UInt8 → ℕ → Session → Option HttpRequest × Session
  | 0, _, _, _, s => (none, s)
  | fuel + 1, parser, data, offset, s =>
    let (rt, bs, s) := s.read net (requestBufferSize - offset)
    if rt ≤ 0 then (none, s.close)
    else
      let len := rt.toNat + offset
      let data := data.take offset ++ bs ++ data.drop len
      let (parser, nparse) := execute request parser (data.take len)
      if parser.hasError then (none, s.close)
      else
        let offset := len - nparse
        if offset = requestBufferSize then (none, s.close)
        else if parser.finished then (some parser.data.init, s)
        else recvLoop fuel parser data offset s

/-- `recvRequest`: a read that does not end it takes a byte at least -/
def recvRequest (s : Session) : Option HttpRequest × Session :=
  recvLoop net (s.socket.incoming.length + 1) request.parser (replicate requestBufferSize 0) 0 s

/-- successive calls and what they return -/
def receive : ℕ → Session → List (Option HttpRequest) × Session
  | 0, s => ([], s)
  | n + 1, s => ((recvRequest net s).1 :: (receive n (recvRequest net s).2).1, (receive n (recvRequest net s).2).2)

/-! ## Where requests end -/

/-- the socket after a read with an empty buffer -/
def readOnce (s : Socket) : Socket := (Stream.read net requestBufferSize s).2.2

/-- every request ends where a read ends, if the socket is read on and on -/
def EndsAtReads (s : Socket) (rs : List Request) : Prop :=
  ∀ n ≤ rs.length, ∃ j, ((readOnce net)^[j] s).incoming = (rs.drop n).flatMap bytes

/-- the calls return the requests one by one, and after each of them the rest of the stream is there -/
def Receives (s : Session) (rs : List Request) : Prop :=
  ∀ n ≤ rs.length, ∃ s', receive net n s = ((rs.take n).map fun r => some r.data, s') ∧
    s'.socket.incoming = (rs.drop n).flatMap bytes

/-! ## Reads -/

variable {net}

theorem read_cases (net : Net) (s : Socket) :
    ∃ rt bs, Stream.read net requestBufferSize s = (rt, bs, readOnce net s) ∧
      s.incoming = bs ++ (readOnce net s).incoming ∧
      (rt ≤ 0 ∧ (net.Fails ∨ s.incoming = []) ∨ rt = bs.length ∧ 0 < bs.length) := by
  obtain ⟨rt, bs, s', hread, hin, -, hcase⟩ := Stream.read_cases net (n := requestBufferSize) (by decide) s
  obtain rfl : readOnce net s = s' := congrArg (fun r => r.2.2) hread
  refine ⟨rt, bs, hread, hin, ?_⟩
  rcases hcase with ⟨hrt, -, hwhy⟩ | hpos
  · exact .inl ⟨hrt, hwhy⟩
  · exact .inr hpos

theorem readOnce_suffix (net : Net) (s : Socket) : (readOnce net s).incoming <:+ s.incoming := by
  obtain ⟨rt, bs, -, hin, -⟩ := read_cases net s
  exact ⟨bs, hin.symm⟩

theorem iterate_suffix (net : Net) (s : Socket) (j : ℕ) : ((readOnce net)^[j] s).incoming <:+ s.incoming := by
  induction j generalizing s with
  | zero => exact suffix_refl _
  | succ j ih => exact (ih _).trans (readOnce_suffix net s)

/-! ## One turn of the loop -/

variable {s : Session}

theorem recvLoop_read {s' : Session} {bs : List UInt8}
    (hread : s.read net requestBufferSize = ((bs.length : ℤ), bs, s'))
    (hpos : 0 < bs.length) (fuel : ℕ) (p : Parser HttpRequest) (data : List UInt8) :
    recvLoop net (fuel + 1) p data 0 s =
      let r := execute request p bs
      if r.1.hasError then (none, s'.close)
      else if bs.length - r.2 = requestBufferSize then (none, s'.close)
      else if r.1.finished then (some r.1.data.init, s')
      else recvLoop net fuel r.1 (bs ++ data.drop bs.length) (bs.length - r.2) s' := by
  have hnot : ¬ (bs.length : ℤ) ≤ 0 := by omega
  have hlen : (bs.length : ℤ).toNat + 0 = bs.length := by omega
  simp only [recvLoop, Nat.sub_zero, hread, hnot, if_false, hlen, take_zero, nil_append, take_left']

theorem recvLoop_fail {s' : Session} {rt : ℤ} {bs : List UInt8} (hread : s.read net requestBufferSize = (rt, bs, s'))
    (hrt : rt ≤ 0) (fuel : ℕ) (p : Parser HttpRequest) (data : List UInt8) :
    recvLoop net (fuel + 1) p data 0 s = (none, s'.close) := by
  simp [recvLoop, hread, hrt]

/-- the session after a read -/
def Session.after (net : Net) (s : Session) : Session := { s with socket := readOnce net s.socket }

theorem session_read (hopen : s.closed = false) {rt : ℤ} {bs : List UInt8}
    (hread : Stream.read net requestBufferSize s.socket = (rt, bs, readOnce net s.socket)) :
    s.read net requestBufferSize = (rt, bs, s.after net) := by
  rw [Session.read, if_neg (by rw [hopen]; decide), hread]
  rfl

theorem recvLoop_socket (net : Net) (fuel : ℕ) (p : Parser HttpRequest) (data : List UInt8) (s : Session) :
    ∃ j, (recvLoop net fuel p data 0 s).2.socket = (readOnce net)^[j] s.socket := by
  induction fuel generalizing p data s with
  | zero => exact ⟨0, rfl⟩
  | succ fuel ih =>
    cases hclosed : s.closed with
    | true =>
      have hread : s.read net requestBufferSize = (-1, [], s) := by rw [Session.read, if_pos hclosed]
      rw [recvLoop_fail hread (by norm_num)]
      exact ⟨0, rfl⟩
    | false =>
      obtain ⟨rt, bs, hsock, -, ⟨hrt, -⟩ | ⟨rfl, hpos⟩⟩ := read_cases net s.socket
      · rw [recvLoop_fail (session_read hclosed hsock) hrt]
        exact ⟨1, rfl⟩
      rw [recvLoop_read (session_read hclosed hsock) hpos]
      dsimp only
      split_ifs with herr hfull hfin
      · exact ⟨1, rfl⟩
      · exact ⟨1, rfl⟩
      · exact ⟨1, rfl⟩
      -- the parser goes on, so that it has consumed the buffer
      have hrun : (execute request p bs).1.stopped = false := by simp [Parser.stopped, herr, hfin]
      rw [execute_running p bs hrun, Nat.sub_self]
      obtain ⟨j, hj⟩ := ih (execute request p bs).1 (bs ++ data.drop bs.length) (s.after net)
      exact ⟨j + 1, hj⟩

/-! ## Requests that end where a read ends -/

/-- **The loop on one request.** -/
theorem recvLoop_ends (hnet : ¬ net.Fails) {fuel : ℕ} {p q : Parser HttpRequest} (data : List UInt8)
    {b rest : List UInt8} (hopen : s.closed = false) (hb : b ≠ []) (hin : s.socket.incoming = b ++ rest)
    (hfuel : b.length < fuel) (hexec : execute request p b = (q, b.length)) (hfin : q.finished = true)
    (herr : q.hasError = false) (hend : ∃ j, ((readOnce net)^[j] s.socket).incoming = rest) :
    ∃ s', recvLoop net fuel p data 0 s = (some q.data.init, s') ∧ s'.closed = false ∧ s'.socket.incoming = rest := by
  induction fuel generalizing p data b s with
  | zero => omega
  | succ fuel ih =>
    obtain ⟨rt, bs, hsock, hsplit, ⟨-, hf | hempty⟩ | ⟨rfl, hpos⟩⟩ := read_cases net s.socket
    · exact absurd hf hnet
    · rw [hin, append_eq_nil_iff] at hempty
      exact absurd hempty.1 hb
    obtain ⟨j, hj⟩ : ∃ j, ((readOnce net)^[j] (s.after net).socket).incoming = rest := by
      obtain ⟨j, hj⟩ := hend
      cases j with
      | zero =>
        rw [iterate_zero_apply, hin] at hj
        exact absurd (by simpa using hj) hb
      | succ j => exact ⟨j, hj⟩
    -- the end of the request is not inside the bytes read: it would not be reached by the following reads
    obtain ⟨b', rfl, hin'⟩ : ∃ b', b = bs ++ b' ∧ (s.after net).socket.incoming = b' ++ rest := by
      obtain ⟨b', hb'⟩ := iterate_suffix net (s.after net).socket j
      rw [hj] at hb'
      refine ⟨b', ?_, hb'.symm⟩
      have hsplit' : b ++ rest = bs ++ (b' ++ rest) := by rw [← hin, hsplit, hb']; rfl
      rw [← append_assoc] at hsplit'
      exact append_cancel_right hsplit'
    rw [recvLoop_read (session_read hopen hsock) hpos]
    by_cases hlast : b' = []
    · subst hlast
      rw [append_nil] at hexec
      refine ⟨s.after net, ?_, hopen, hin'⟩
      have hsize : ¬ bs.length - bs.length = requestBufferSize := by
        rw [Nat.sub_self]
        decide
      simp only [hexec, herr, hsize, hfin, if_true, if_false, Bool.false_eq_true]
    · obtain ⟨hrun, hrest⟩ := execute_prefix (M := request) (p := p) (a := bs) hlast (by rw [hexec])
      obtain ⟨hnofin, hnoerr⟩ : (execute request p bs).1.finished = false ∧
          (execute request p bs).1.hasError = false := by
        simpa [Parser.stopped] using hrun
      have hsize : ¬ 0 = requestBufferSize := by decide
      rw [hexec] at hrest
      rw [length_append] at hfuel
      obtain ⟨s', hloop, hs', hin''⟩ :=
        ih (bs ++ data.drop bs.length) (s := s.after net) hopen hlast hin' (by omega) hrest
        ⟨j, hj⟩
      refine ⟨s', ?_, hs', hin''⟩
      simp [execute_running p bs hrun, hnoerr, hnofin, hsize, hloop]

theorem bytes_ne_nil (r : Request) : r.bytes ≠ [] := by simp [bytes, crlf]

theorem recvRequest_ends (hnet : ¬ net.Fails) {r : Request} (hw : r.WellFormed) (hr : r.Supported) {rest : List UInt8}
    (hopen : s.closed = false) (hin : s.socket.incoming = r.bytes ++ rest)
    (hend : ∃ j, ((readOnce net)^[j] s.socket).incoming = rest) :
    ∃ s', recvRequest net s = (some r.data, s') ∧ s'.closed = false ∧ s'.socket.incoming = rest := by
  obtain ⟨q, hexec, hfin, herr, hdata⟩ := execute_bytes hw hr []
  rw [append_nil] at hexec
  have hfuel : r.bytes.length < s.socket.incoming.length + 1 := by
    rw [hin, length_append]
    omega
  obtain ⟨s', hloop, hopen', hin'⟩ :=
    recvLoop_ends hnet (replicate requestBufferSize 0) hopen (bytes_ne_nil r) hin hfuel
    hexec hfin herr hend
  exact ⟨s', by rw [recvRequest, hloop, hdata, data], hopen', hin'⟩

theorem recvRequest_socket (net : Net) (s : Session) :
    ∃ j, (recvRequest net s).2.socket = (readOnce net)^[j] s.socket :=
  recvLoop_socket net _ _ _ s

theorem receive_socket (net : Net) (n : ℕ) (s : Session) :
    ∃ j, (receive net n s).2.socket = (readOnce net)^[j] s.socket := by
  induction n generalizing s with
  | zero => exact ⟨0, rfl⟩
  | succ n ih =>
    obtain ⟨i, hi⟩ := recvRequest_socket net s
    obtain ⟨j, hj⟩ := ih (recvRequest net s).2
    refine ⟨j + i, ?_⟩
    rw [iterate_add_apply, ← hi, ← hj]
    rfl

theorem EndsAtReads.tail {s : Socket} {r : Request} {rs : List Request} (h : EndsAtReads net s (r :: rs)) {i : ℕ}
    (hi : ((readOnce net)^[i] s).incoming = rs.flatMap bytes) : EndsAtReads net ((readOnce net)^[i] s) rs := by
  intro n hn
  obtain ⟨j, hj⟩ := h (n + 1) (Nat.succ_le_succ hn)
  rw [drop_succ_cons] at hj
  by_cases hij : i ≤ j
  · refine ⟨j - i, ?_⟩
    rw [← iterate_add_apply, Nat.sub_add_cancel hij, hj]
  -- then nothing was read between the two
  obtain ⟨a, ha⟩ := iterate_suffix net ((readOnce net)^[j] s) (i - j)
  rw [← iterate_add_apply, Nat.sub_add_cancel (by omega), hi, hj] at ha
  have hsplit : rs.flatMap bytes = (rs.take n).flatMap bytes ++ (rs.drop n).flatMap bytes := by
    rw [← flatMap_append, take_append_drop]
  have hlen := congrArg length ha
  rw [hsplit, length_append, length_append] at hlen
  obtain rfl : a = [] := length_eq_zero_iff.1 (by omega)
  refine ⟨0, ?_⟩
  rw [iterate_zero_apply, hi]
  exact ha

theorem receives_of_ends (hnet : ¬ net.Fails) (rs : List Request) (hw : ∀ r ∈ rs, r.WellFormed)
    (hr : ∀ r ∈ rs, r.Supported) (hopen : s.closed = false) (hin : s.socket.incoming = rs.flatMap bytes)
    (h : EndsAtReads net s.socket rs) : Receives net s rs := by
  induction rs generalizing s with
  | nil =>
    intro n hn
    obtain rfl : n = 0 := Nat.le_zero.1 hn
    exact ⟨s, rfl, hin⟩
  | cons r rs ih =>
    have hfirst := h 1 (by simp)
    rw [flatMap_cons] at hin
    obtain ⟨s₁, hreq, hopen₁, hin₁⟩ := recvRequest_ends hnet (hw r mem_cons_self) (hr r mem_cons_self) hopen hin hfirst
    obtain ⟨i, hi⟩ := recvRequest_socket net s
    rw [hreq] at hi
    have htail : EndsAtReads net s₁.socket rs := by
      rw [show s₁.socket = (readOnce net)^[i] s.socket from hi] at hin₁ ⊢
      exact h.tail hin₁
    have hrest :=
      ih (fun x hx => hw x (mem_cons_of_mem _ hx)) (fun x hx => hr x (mem_cons_of_mem _ hx)) hopen₁ hin₁ htail
    intro n hn
    cases n with
    | zero => exact ⟨s, rfl, by rw [drop_zero, flatMap_cons, hin]⟩
    | succ n =>
      obtain ⟨s', hrec, hin'⟩ := hrest n (Nat.le_of_succ_le_succ hn)
      refine ⟨s', ?_, by rw [drop_succ_cons]; exact hin'⟩
      rw [receive, hreq, hrec, take_succ_cons, map_cons]

/-- **Requests back to back.** -/
theorem receives_iff (hnet : ¬ net.Fails) (rs : List Request) (hw : ∀ r ∈ rs, r.WellFormed) (hr : ∀ r ∈ rs, r.Supported)
    {s : Session} (hopen : s.closed = false) (hin : s.socket.incoming = rs.flatMap bytes) :
    Receives net s rs ↔ EndsAtReads net s.socket rs := by
  constructor
  · intro h n hn
    obtain ⟨s', hrec, hin'⟩ := h n hn
    obtain ⟨j, hj⟩ := receive_socket net n s
    rw [hrec] at hj
    exact ⟨j, by rw [← hj]; exact hin'⟩
  · exact receives_of_ends hnet rs hw hr hopen hin

/-- "GET /a HTTP/1.1" -/
def getA : Request := ⟨.get, lit "/a", none, none, 1, 1, [], [], none⟩

theorem getA_wellFormed : getA.WellFormed where
  method := by decide
  path_ne := by decide
  path := by
    have hall : (getA.path.all fun c => decide (isVisible c = true ∧ c ≠ 63 ∧ c ≠ 35)) = true := by decide
    intro c hc
    exact of_decide_eq_true (all_eq_true.1 hall c hc)
  query := nofun
  fragment := nofun
  major := by decide
  minor := by decide
  headers := nofun
  distinct := by decide
  framed := by decide
  length := nofun
  chunked := nofun
  unchunked := by decide

theorem getA_supported : getA.Supported where
  method := by decide
  line := by decide
  headers := nofun
  chunks := rfl
  body := by decide

/-- two requests of 19 bytes, in reads of 19 bytes -/
theorem receives_iff_two : Receives ⟨fun _ => true, fun _ => 19⟩ ⟨⟨getA.bytes ++ getA.bytes, [], 0⟩, false⟩
    [getA, getA] := by
  have hnet : ¬ (⟨fun _ => true, fun _ => 19⟩ : Net).Fails := by
    rintro ⟨i, hi | hi⟩
    · cases hi
    · norm_num at hi
  refine (receives_iff hnet [getA, getA] ?_ ?_ rfl ?_).2 ?_
  · simp [getA_wellFormed]
  · simp [getA_supported]
  · decide +kernel
  intro n hn
  have hn' : n = 0 ∨ n = 1 ∨ n = 2 := by simp at hn; omega
  rcases hn' with rfl | rfl | rfl
  · exact ⟨0, by decide +kernel⟩
  · exact ⟨1, by decide +kernel⟩
  · exact ⟨2, by decide +kernel⟩

/-- **Two requests in one read.** -/
theorem pipelined_request_lost :
    let r := receive ⟨fun _ => true, fun _ => 4096⟩ 2 ⟨⟨getA.bytes ++ getA.bytes, [], 0⟩, false⟩
    getA.WellFormed ∧ r.1 = [some getA.data, none] ∧ r.2.socket.incoming = [] := by
  refine ⟨getA_wellFormed, ?_⟩
  decide +kernel

end CoServer.Http
