/-
WebSocket frames on an HTTP session (src/http/ws_session.cpp): `wsRecvMessage`, `wsSendMessage`, `wsPing` and `wsPong`.

The host is little-endian, so the bit fields of `WSFrameHead` lie in its two bytes from the lowest bit on, and
`byteswapOnLittleEndian` puts the highest byte of a length first. A signed overflow of `currentLength` is undefined and
ends a run (`none`). What `rand` returns is an argument of `wsSendMessage`.
-/
import CoServer.Core.Bytes
import CoServer.Http.Session

namespace CoServer.Http

open CoServer.Core List
open CoServer.Stream (Net Socket castInt fixSize)
open CoServer.ByteArray (Fault)

/-! ## Frame heads -/

structure WSFrameHead where
  opcode : BitVec 4 := 0
  rsv3 : Bool := false
  rsv2 : Bool := false
  rsv1 : Bool := false
  fin : Bool := false
  payload : BitVec 7 := 0
  mask : Bool := false
deriving DecidableEq

open WSFrameHead

namespace WSFrameHead

/-- `Continue`, `TextFrame`, `BinFrame`, `Ping` and `Pong` of `Opcode` -/
def continueFrame : BitVec 4 := 0
def textFrame : BitVec 4 := 1
def binFrame : BitVec 4 := 2
def ping : BitVec 4 := 9
def pong : BitVec 4 := 10

/-- the structure in memory -/
def bytes (h : WSFrameHead) : List UInt8 :=
  [UInt8.ofBitVec
    (BitVec.ofBool h.fin ++ BitVec.ofBool h.rsv1 ++ BitVec.ofBool h.rsv2 ++ BitVec.ofBool h.rsv3 ++ h.opcode),
    UInt8.ofBitVec (BitVec.ofBool h.mask ++ h.payload)]

@[simp] theorem length_bytes (h : WSFrameHead) : h.bytes.length = 2 := rfl

theorem bytes_ne_nil (h : WSFrameHead) : h.bytes ≠ [] := cons_ne_nil _ _

def ofBytes (bs : List UInt8) : WSFrameHead where
  opcode := (bs.getD 0 0).toBitVec.extractLsb' 0 4
  rsv3 := (bs.getD 0 0).toBitVec.getLsbD 4
  rsv2 := (bs.getD 0 0).toBitVec.getLsbD 5
  rsv1 := (bs.getD 0 0).toBitVec.getLsbD 6
  fin := (bs.getD 0 0).toBitVec.getLsbD 7
  payload := (bs.getD 1 0).toBitVec.extractLsb' 0 7
  mask := (bs.getD 1 0).toBitVec.getLsbD 7

theorem ofBytes_bytes (h : WSFrameHead) : ofBytes h.bytes = h := by
  obtain ⟨opcode, rsv3, rsv2, rsv1, fin, payload, mask⟩ := h
  have hfirst : ∀ (a b c d : Bool) (o : BitVec 4) (x : BitVec 8),
      x = BitVec.ofBool a ++ BitVec.ofBool b ++ BitVec.ofBool c ++ BitVec.ofBool d ++ o →
      x.extractLsb' 0 4 = o ∧ x.getLsbD 4 = d ∧ x.getLsbD 5 = c ∧ x.getLsbD 6 = b ∧ x.getLsbD 7 = a := by
    rintro a b c d o x rfl
    revert a b c d o
    decide +kernel
  have hsecond : ∀ (a : Bool) (p : BitVec 7) (x : BitVec 8), x = BitVec.ofBool a ++ p →
      x.extractLsb' 0 7 = p ∧ x.getLsbD 7 = a := by
    rintro a p x rfl
    revert a p
    decide +kernel
  obtain ⟨h1, h2, h3, h4, h5⟩ := hfirst fin rsv1 rsv2 rsv3 opcode _ rfl
  obtain ⟨h6, h7⟩ := hsecond mask payload _ rfl
  exact congr (congr (congr (congr (congr (congr (congrArg mk h1) h2) h3) h4) h5) h6) h7

end WSFrameHead

/-- an unsigned integer of `k` bytes after `byteswapOnLittleEndian`, in memory -/
def swapped (k v : ℕ) : List UInt8 := (leBytes k v).reverse

def ofSwapped (bs : List UInt8) : ℕ := ofLeBytes bs.reverse

theorem ofSwapped_swapped {k v : ℕ} (h : v < 256 ^ k) : ofSwapped (swapped k v) = v := by
  rw [ofSwapped, swapped, reverse_reverse, ofLeBytes_leBytes h]

variable (mask bs : List UInt8)

/-- the loop that masks a payload, and that unmasks it -/
def applyMask : List UInt8 := bs.mapIdx fun i b => b ^^^ mask.getD (i % 4) 0

@[simp] theorem length_applyMask : (applyMask mask bs).length = bs.length := length_mapIdx

theorem applyMask_applyMask : applyMask mask (applyMask mask bs) = bs := by
  have hxor : ∀ b m : UInt8, (b ^^^ m) ^^^ m = b := by
    intro b m
    rw [UInt8.xor_assoc, UInt8.xor_self, UInt8.xor_zero]
  rw [applyMask, applyMask, mapIdx_mapIdx]
  simp only [Function.comp_def, hxor]
  exact mapIdx_eq_iff.2 fun i => by simp

/-! ## The session as a stream -/

variable (net : Net)

def Session.readMore (left : ℕ) (st : List UInt8 × Session) : Except Fault (ℤ × List UInt8 × Session) :=
  let (len, bs, s) := st.2.read net left
  .ok (len, st.1 ++ bs, s)

/-- `readFixSize(void* buffer, size_t length)` -/
def Session.readFixSize (length : ℕ) (s : Session) : Except Fault (ℤ × List UInt8 × Session) :=
  fixSize (Session.readMore net) length ([], s)

def Session.write (bs : List UInt8) (s : Session) : ℤ × Session :=
  if s.closed then (-1, s)
  else
    let (rt, socket) := Stream.write net bs s.socket
    (rt, { s with socket := socket })

def Session.writeMore (left : ℕ) (st : List UInt8 × Session) : Except Fault (ℤ × List UInt8 × Session) :=
  let (len, s) := st.2.write net (st.1.take left)
  .ok (len, st.1.drop len.toNat, s)

/-- `writeFixSize(const void* buffer, size_t length)` -/
def Session.writeFixSize (buffer : List UInt8) (s : Session) : Except Fault (ℤ × List UInt8 × Session) :=
  fixSize (Session.writeMore net) buffer.length (buffer, s)

/-! ## `wsPing` and `wsPong` -/

/-- a head without a payload; the stream is closed if it cannot be written -/
def wsControl (opcode : BitVec 4) (s : Session) : Option (ℤ × Session) :=
  match s.writeFixSize net (bytes { fin := true, opcode := opcode }) with
  | .error _ => none
  | .ok (v, _, s) => some (v, if v ≤ 0 then s.close else s)

def wsPing (s : Session) : Option (ℤ × Session) := wsControl net ping s

def wsPong (s : Session) : Option (ℤ × Session) := wsControl net pong s

/-! ## `wsRecvMessage` -/

structure WSFrameMessage where
  opcode : ℕ
  data : List UInt8
deriving DecidableEq

/-- the variables of the loop -/
structure Partial where
  opcode : ℕ := 0
  data : List UInt8 := []
  currentLength : ℕ := 0
deriving DecidableEq

/-- how a turn of the loop ends -/
inductive Turn where
  | again (st : Partial)
  | returned (msg : WSFrameMessage)
  | broke
deriving DecidableEq

/-- `if(stream->readFixSize(…) <= 0) break;` -/
def Session.readOr (length : ℕ) (s : Session) (next : List UInt8 → Session → Option (Turn × Session)) :
    Option (Turn × Session) :=
  match s.readFixSize net length with
  | .error _ => none
  | .ok (rt, bs, s) => if rt ≤ 0 then some (.broke, s) else next bs s

section

variable (client : Bool) (maxSize : ℕ) (head : WSFrameHead)

/-- the payload is read and unmasked, and the message returned if it is complete -/
def recvBytes (length : ℕ) (mask : List UInt8) (st : Partial) (s : Session) : Option (Turn × Session) :=
  s.readOr net length fun bs s =>
    let data := st.data.take st.currentLength ++ if head.mask then applyMask mask bs else bs
    let currentLength := st.currentLength + (castInt length).toNat
    -- an `int`
    if 2 ^ 31 ≤ currentLength then none
    else
      let opcode := if st.opcode = 0 ∧ head.opcode ≠ continueFrame then head.opcode.toNat else st.opcode
      some (if head.fin then .returned ⟨opcode, data⟩ else .again ⟨opcode, data, currentLength⟩, s)

/-- the length is checked, and the mask read if there is one -/
def recvPayload (length : ℕ) (st : Partial) (s : Session) : Option (Turn × Session) :=
  if maxSize ≤ (st.currentLength + length) % 2 ^ 64 then some (.broke, s)
  else if head.mask then s.readOr net 4 fun mask s => recvBytes net head length mask st s
  else recvBytes net head length [0, 0, 0, 0] st s

/-- the branch of `Continue`, `TextFrame` and `BinFrame` -/
def recvData (st : Partial) (s : Session) : Option (Turn × Session) :=
  if !client && !head.mask then some (.broke, s)
  else if head.payload = 126 then s.readOr net 2 fun len s => recvPayload net maxSize head (ofSwapped len) st s
  else if head.payload = 127 then s.readOr net 8 fun len s => recvPayload net maxSize head (ofSwapped len) st s
  else recvPayload net maxSize head head.payload.toNat st s

def isData (opcode : BitVec 4) : Bool :=
  opcode = continueFrame || opcode = textFrame || opcode = binFrame

/-- the branches on the opcode -/
def recvFrame (st : Partial) (s : Session) : Option (Turn × Session) :=
  if head.opcode = ping then
    match wsPong net s with
    | none => none
    | some (v, s) => some (if v ≤ 0 then .broke else .again st, s)
  else if head.opcode = pong then some (.again st, s)
  else if isData head.opcode then recvData net client maxSize head st s
  else some (.again st, s)

/-- one turn of the loop -/
def recvTurn (st : Partial) (s : Session) : Option (Turn × Session) :=
  s.readOr net 2 fun bs s => recvFrame net client maxSize (ofBytes bs) st s

def recvTurns : ℕ → Partial → Session → Option (Option WSFrameMessage × Session)
  | 0, _, _ => none
  | fuel + 1, st, s =>
    match recvTurn net client maxSize st s with
    | none => none
    | some (.again st, s) => recvTurns fuel st s
    | some (.returned msg, s) => some (some msg, s)
    | some (.broke, s) => some (none, s.close)

/-- `wsRecvMessage`: a turn that goes on takes a head from the stream -/
def wsRecvMessage (s : Session) : Option (Option WSFrameMessage × Session) :=
  recvTurns net client maxSize (s.socket.incoming.length + 1) {} s

/-- successive calls and what they return -/
def wsReceive : ℕ → Session → Option (List (Option WSFrameMessage) × Session)
  | 0, s => some ([], s)
  | n + 1, s =>
    match wsRecvMessage net client maxSize s with
    | none => none
    | some (msg, s) => (wsReceive n s).map fun r => (msg :: r.1, r.2)

end

/-! ## `wsSendMessage` -/

/-- `if(stream->writeFixSize(…) <= 0) break;` before the stream is closed -/
def Session.writeOr (bs : List UInt8) (msg : WSFrameMessage) (s : Session)
    (next : Session → Option (ℤ × WSFrameMessage × Session)) : Option (ℤ × WSFrameMessage × Session) :=
  match s.writeFixSize net bs with
  | .error _ => none
  | .ok (rt, _, s) => if rt ≤ 0 then some (-1, msg, s.close) else next s

/-- the payload bits of a head -/
def payloadField (size : ℕ) : BitVec 7 := if size < 126 then BitVec.ofNat 7 size else if size < 65536 then 126 else 127

section

variable (client fin : Bool) (randValue : BitVec 32) (msg : WSFrameMessage)

def sendPayload (s : Session) : Option (ℤ × WSFrameMessage × Session) :=
  s.writeOr net msg.data msg fun s => some (castInt (msg.data.length + 2), msg, s)

/-- a client masks the message in place -/
def sendMasked (s : Session) : Option (ℤ × WSFrameMessage × Session) :=
  if client then
    let mask := leBytes 4 randValue.toNat
    let msg := { msg with data := applyMask mask msg.data }
    s.writeOr net mask msg fun s => sendPayload net msg s
  else sendPayload net msg s

/-- `wsSendMessage`: the result, the message as it is left and the stream -/
def wsSendMessage (s : Session) : Option (ℤ × WSFrameMessage × Session) :=
  let size := msg.data.length
  let head : WSFrameHead :=
    { fin := fin, opcode := BitVec.ofNat 4 msg.opcode, mask := client, payload := payloadField size }
  s.writeOr net head.bytes msg fun s =>
    if head.payload = 126 then s.writeOr net (swapped 2 size) msg fun s => sendMasked net client randValue msg s
    else if head.payload = 127 then s.writeOr net (swapped 8 size) msg fun s => sendMasked net client randValue msg s
    else sendMasked net client randValue msg s

end

/-! ## One read and one write -/

/-- a session that is open and has these bytes before it -/
structure Session.At (s : Session) (bytes : List UInt8) : Prop where
  isOpen : s.closed = false
  incoming : s.socket.incoming = bytes

variable {net} {s : Session}

theorem Session.fixSize_eq {call : ℕ → List UInt8 × Socket → Except Fault (ℤ × List UInt8 × Socket)}
    {more : ℕ → List UInt8 × Session → Except Fault (ℤ × List UInt8 × Session)}
    (hcall : ∀ left st, more left (st.1, ⟨st.2, false⟩) = (call left st).map fun r => (r.1, r.2.1, ⟨r.2.2, false⟩))
    (h : s.closed = false) (length : ℕ) (buffer : List UInt8) :
    fixSize more length (buffer, s) = (fixSize call length (buffer, s.socket)).map fun r =>
    (r.1, r.2.1, { s with socket := r.2.2 }) := by
  obtain ⟨socket, closed⟩ := s
  obtain rfl : closed = false := h
  exact transfer_map (fun st : List UInt8 × Socket => (st.1, (⟨st.2, false⟩ : Session))) hcall _ _ _ (buffer, socket)

theorem Session.readFixSize_eq (h : s.closed = false) (length : ℕ) :
    s.readFixSize net length = (Stream.readFixSize net length s.socket).map fun r =>
    (r.1, r.2.1, { s with socket := r.2.2 }) :=
  fixSize_eq (fun _ _ => rfl) h length []

theorem Session.writeFixSize_eq (h : s.closed = false) (buffer : List UInt8) :
    s.writeFixSize net buffer = (Stream.writeFixSize net buffer s.socket).map fun r =>
    (r.1, r.2.1, { s with socket := r.2.2 }) :=
  fixSize_eq (fun _ _ => rfl) h buffer.length buffer

theorem Session.read_delivers (hnet : ¬ net.Fails) {bs rest : List UInt8} (hne : bs ≠ []) (hlen : bs.length < 2 ^ 31)
    (hs : s.At (bs ++ rest)) : ∃ s' : Session, s'.At rest ∧ ∀ next, s.readOr net bs.length next = next bs s' := by
  have hle : bs.length ≤ s.socket.incoming.length := by
    rw [hs.incoming, length_append]
    exact Nat.le_add_right _ _
  obtain ⟨t, hread, ht⟩ := Stream.readFixSize_delivers hnet hlen hle
  rw [hs.incoming, take_left] at hread
  rw [hs.incoming, drop_left] at ht
  refine ⟨{ s with socket := t }, ⟨hs.isOpen, ht⟩, ?_⟩
  intro next
  have hpos : ¬ (bs.length : ℤ) ≤ 0 := by
    have := length_pos_of_ne_nil hne
    omega
  simp only [readOr, readFixSize_eq hs.isOpen, hread, Except.map, hpos, if_false]

theorem Session.readOr_nonpos {length : ℕ} (h : castInt length ≤ 0) (s : Session)
    (next : List UInt8 → Session → Option (Turn × Session)) : ∃ s', s.readOr net length next = some (.broke, s') := by
  obtain ⟨⟨rt, bs, s'⟩, hread⟩ : ∃ r, s.readFixSize net length = .ok r := transfer_ok (fun left st => ⟨_, rfl⟩) _ _ _ _
  have hrt : rt ≤ 0 := by
    rcases transfer_ret hread with hret | hret
    · rw [hret]
      exact h
    · exact hret
  refine ⟨s', ?_⟩
  rw [readOr, hread]
  exact if_pos hrt

theorem Session.write_delivers (hnet : ¬ net.Fails) {bs : List UInt8} (hne : bs ≠ []) (hlen : bs.length < 2 ^ 31)
    (hs : s.closed = false) : ∃ (rest : List UInt8) (s' : Session), s.writeFixSize net bs = .ok
    ((bs.length : ℤ), rest, s') ∧
      ¬ (bs.length : ℤ) ≤ 0 ∧ s'.closed = false ∧ s'.socket.sent = s.socket.sent ++ bs ∧
      s'.socket.incoming = s.socket.incoming := by
  obtain ⟨rest, t, hwrite, hsent, hin⟩ := Stream.writeFixSize_delivers hnet hlen s.socket
  refine ⟨rest, { s with socket := t }, ?_, ?_, hs, hsent, hin⟩
  · rw [writeFixSize_eq hs, hwrite]
    rfl
  · have := length_pos_of_ne_nil hne
    omega

end CoServer.Http
