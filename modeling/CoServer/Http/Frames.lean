/-
WebSocket frames on the wire, and what `wsRecvMessage` makes of them.

`Frame` is a frame as the protocol means it and `Frame.bytes` its bytes, with the shortest form of the length and the
payload masked if there is a key. `messages` are the data messages of a sequence of frames. A control frame moves the
stream by its head only, so it is skipped in full iff it has neither payload nor key (`control_skipped_iff`).

Results:
- `wsReceive_frames`: over a stream that does not fail, for a sequence of frames from either side whose control frames
  are bare heads and whose messages fit, the calls return the messages of its data frames, and the stream is left at the
  beginning of a frame.
- `masked_ping_closes`: the server takes the key of a masked ping for the head of a frame that is not masked, and closes
  the stream.
-/
import CoServer.Http.WebSocket

namespace CoServer.Http

open CoServer.Core List Session WSFrameHead
open CoServer.Stream (Net Socket castInt castInt_eq)

/-! ## Frames -/

structure Frame where
  fin : Bool
  opcode : BitVec 4
  /-- the masking key -/
  key : Option (BitVec 32)
  payload : List UInt8
deriving DecidableEq

/-- the length after the head, if it does not fit there -/
def lengthBytes (size : ℕ) : List UInt8 :=
  if size < 126 then [] else if size < 65536 then swapped 2 size else swapped 8 size

namespace Frame

variable (f : Frame)

def head : WSFrameHead :=
  { fin := f.fin, opcode := f.opcode, mask := f.key.isSome, payload := payloadField f.payload.length }

def keyBytes : List UInt8 := f.key.elim [] fun k => leBytes 4 k.toNat

def masked : List UInt8 := f.key.elim f.payload fun k => applyMask (leBytes 4 k.toNat) f.payload

/-- what follows the head -/
def tail : List UInt8 := lengthBytes f.payload.length ++ f.keyBytes ++ f.masked

def bytes : List UInt8 := f.head.bytes ++ f.tail

def isData : Bool := Http.isData f.opcode

end Frame

/-- the variables of the loop after a data frame -/
def Partial.next (st : Partial) (f : Frame) : Partial where
  opcode := if st.opcode = 0 ∧ f.opcode ≠ continueFrame then f.opcode.toNat else st.opcode
  data := st.data ++ f.payload
  currentLength := st.currentLength + f.payload.length

/-- what a data frame makes of the turn -/
def Partial.accept (st : Partial) (f : Frame) : Turn :=
  if f.fin then .returned ⟨(st.next f).opcode, (st.next f).data⟩ else .again (st.next f)

/-! ## One turn -/

variable {net : Net} {client : Bool} {maxSize : ℕ} {f : Frame} {st : Partial} {s : Session} {rest : List UInt8}

theorem Frame.length_masked (f : Frame) : f.masked.length = f.payload.length := by
  unfold Frame.masked
  cases f.key with
  | none => rfl
  | some k => exact length_applyMask _ _

/-- a data frame the receiver takes: it is masked for a server, and the message fits with it -/
structure Accepted (client : Bool) (maxSize : ℕ) (st : Partial) (f : Frame) : Prop where
  data : f.isData = true
  masked : client = true ∨ f.key.isSome = true
  nonempty : f.payload ≠ []
  below : st.currentLength + f.payload.length < maxSize
  int : st.currentLength + f.payload.length < 2 ^ 31

theorem recvBytes_frame (hnet : ¬ net.Fails) (hf : Accepted client maxSize st f)
    (hst : st.data.length = st.currentLength)
    {mask : List UInt8} (hmask : ∀ k, f.key = some k → mask = leBytes 4 k.toNat) (hs : s.At (f.masked ++ rest)) :
    ∃ s' : Session, s'.At rest ∧ recvBytes net f.head f.payload.length mask st s = some (st.accept f, s') := by
  have hlen := f.length_masked
  have hlt := hf.int
  have hne : f.masked ≠ [] := by
    intro hnil
    rw [hnil] at hlen
    exact hf.nonempty (length_eq_zero_iff.1 hlen.symm)
  obtain ⟨s', hs', hread⟩ := read_delivers hnet hne (by omega) hs
  have hdata : (if f.head.mask then applyMask mask f.masked else f.masked) = f.payload := by
    unfold Frame.head Frame.masked
    cases hk : f.key with
    | none => rfl
    | some k =>
      rw [hmask k hk]
      exact applyMask_applyMask _ _
  have hint : ¬ 2 ^ 31 ≤ st.currentLength + f.payload.length := by omega
  have htake : st.data.take st.currentLength = st.data := by rw [← hst, take_length]
  refine ⟨s', hs', ?_⟩
  rw [recvBytes, ← hlen, hread]
  simp only [hdata, hlen, castInt_eq (show f.payload.length < 2 ^ 31 by omega), Int.toNat_natCast, hint,
    if_false, htake]
  rfl

theorem recvPayload_frame (hnet : ¬ net.Fails) (hf : Accepted client maxSize st f)
    (hst : st.data.length = st.currentLength) (hs : s.At (f.keyBytes ++ (f.masked ++ rest))) :
    ∃ s' : Session, s'.At rest ∧ recvPayload net maxSize f.head f.payload.length st s = some (st.accept f, s') := by
  have hlt := hf.int
  have hmod : (st.currentLength + f.payload.length) % 2 ^ 64 = st.currentLength + f.payload.length :=
    Nat.mod_eq_of_lt (by omega)
  have hfits : ¬ maxSize ≤ st.currentLength + f.payload.length := Nat.not_le_of_lt hf.below
  unfold recvPayload
  rw [hmod, if_neg hfits]
  cases hk : f.key with
  | none =>
    have hmask : f.head.mask = false := by rw [Frame.head, hk]; rfl
    rw [Frame.keyBytes, hk] at hs
    rw [hmask]
    refine recvBytes_frame hnet hf hst ?_ hs
    intro k hsome
    rw [hk] at hsome
    cases hsome
  | some k =>
    have hmask : f.head.mask = true := by rw [Frame.head, hk]; rfl
    rw [Frame.keyBytes, hk] at hs
    have hkey : leBytes 4 k.toNat ≠ [] := by
      intro hnil
      have := length_leBytes 4 k.toNat
      rw [hnil] at this
      cases this
    obtain ⟨s₁, hs₁, hread⟩ := read_delivers hnet hkey (by rw [length_leBytes]; norm_num) hs
    rw [length_leBytes] at hread
    rw [hmask, hread]
    refine recvBytes_frame hnet hf hst ?_ hs₁
    intro k' hsome
    rw [hk] at hsome
    cases hsome
    rfl

theorem payloadField_cases (size : ℕ) :
    ((payloadField size).toNat = size ∧ payloadField size ≠ 126 ∧ payloadField size ≠ 127 ∧ lengthBytes size = []) ∨
      (payloadField size = 126 ∧ size < 65536 ∧ lengthBytes size = swapped 2 size) ∨
      (payloadField size = 127 ∧ lengthBytes size = swapped 8 size) := by
  unfold payloadField lengthBytes
  split_ifs with hshort hmiddle
  · have htoNat : (BitVec.ofNat 7 size).toNat = size := by
      rw [BitVec.toNat_ofNat]
      omega
    refine .inl ⟨htoNat, ?_, ?_, rfl⟩
    · intro heq
      have hval : (126 : BitVec 7).toNat = 126 := rfl
      rw [heq] at htoNat
      omega
    · intro heq
      have hval : (127 : BitVec 7).toNat = 127 := rfl
      rw [heq] at htoNat
      omega
  · exact .inr (.inl ⟨rfl, hmiddle, rfl⟩)
  · exact .inr (.inr ⟨rfl, rfl⟩)

theorem length_swapped (k size : ℕ) : (swapped k size).length = k := by rw [swapped, length_reverse, length_leBytes]

theorem swapped_ne_nil {k : ℕ} (hk : 0 < k) (size : ℕ) : swapped k size ≠ [] := by
  intro hnil
  have hlen := length_swapped k size
  rw [hnil, length_nil] at hlen
  omega

section

variable (hnet : ¬ net.Fails)
include hnet

theorem read_length {k size : ℕ} (hk : 0 < k) (hk' : k < 2 ^ 31) (hsize : size < 256 ^ k)
    (hs : s.At (swapped k size ++ rest)) (next : ℕ → Session → Option (Turn × Session)) :
    ∃ s' : Session, s'.At rest ∧ s.readOr net k (fun len s => next (ofSwapped len) s) = next size s' := by
  obtain ⟨s', hs', hread⟩ := read_delivers hnet (swapped_ne_nil hk size) (by rw [length_swapped]; exact hk') hs
  rw [length_swapped] at hread
  exact ⟨s', hs', by rw [hread, ofSwapped_swapped hsize]⟩

theorem recvData_frame (hf : Accepted client maxSize st f) (hst : st.data.length = st.currentLength)
    (hs : s.At (f.tail ++ rest)) :
    ∃ s' : Session, s'.At rest ∧ recvData net client maxSize f.head st s = some (st.accept f, s') := by
  have hlt := hf.int
  have hmasked : (!client && !f.head.mask) = false := by
    rcases hf.masked with hc | hk
    · rw [hc]
      rfl
    · rw [Frame.head, hk, Bool.not_true, Bool.and_false]
  have hpayload : f.head.payload = payloadField f.payload.length := rfl
  unfold recvData
  rw [hmasked, hpayload]
  rw [Frame.tail, append_assoc, append_assoc] at hs
  rcases payloadField_cases f.payload.length with ⟨htoNat, h126, h127, hbytes⟩ | ⟨h126, hsize, hbytes⟩ | ⟨h127, hbytes⟩
  · rw [hbytes] at hs
    rw [if_neg h126, if_neg h127, htoNat]
    exact recvPayload_frame hnet hf hst hs
  · rw [hbytes] at hs
    obtain ⟨s₁, hs₁, hread⟩ := read_length hnet (by decide) (by norm_num) (by omega) hs fun len s =>
      recvPayload net maxSize f.head len st s
    rw [if_pos h126, hread]
    exact recvPayload_frame hnet hf hst hs₁
  · rw [hbytes] at hs
    obtain ⟨s₁, hs₁, hread⟩ := read_length hnet (by decide) (by norm_num) (by omega) hs fun len s =>
      recvPayload net maxSize f.head len st s
    rw [h127, hread]
    exact recvPayload_frame hnet hf hst hs₁

theorem recvTurn_head (h : WSFrameHead) (hs : s.At (h.bytes ++ rest)) :
    ∃ s' : Session, s'.At rest ∧
      ∀ client maxSize st, recvTurn net client maxSize st s = recvFrame net client maxSize h st s' := by
  obtain ⟨s', hs', hread⟩ := read_delivers hnet h.bytes_ne_nil (by rw [h.length_bytes]; norm_num) hs
  refine ⟨s', hs', ?_⟩
  intro client maxSize st
  rw [recvTurn, ← h.length_bytes, hread, ofBytes_bytes]

theorem recvTurn_data (hf : Accepted client maxSize st f) (hst : st.data.length = st.currentLength)
    (hs : s.At (f.bytes ++ rest)) :
    ∃ s' : Session, s'.At rest ∧ recvTurn net client maxSize st s = some (st.accept f, s') := by
  obtain ⟨s₁, hs₁, hread⟩ := recvTurn_head hnet f.head hs
  obtain ⟨s₂, hs₂, hdata⟩ := recvData_frame hnet hf hst hs₁
  have hkinds : ∀ o : BitVec 4, isData o = true → o ≠ ping ∧ o ≠ pong := by decide
  have hop : f.head.opcode = f.opcode := rfl
  obtain ⟨hping, hpong⟩ := hkinds f.opcode hf.data
  refine ⟨s₂, hs₂, ?_⟩
  rw [hread, recvFrame, hop, if_neg hping, if_neg hpong, show isData f.opcode = true from hf.data, if_pos rfl, hdata]

theorem wsControl_sends (opcode : BitVec 4) (hs : s.closed = false) :
    ∃ (v : ℤ) (s' : Session), wsControl net opcode s = some (v, s') ∧ ¬ v ≤ 0 ∧ s'.closed = false ∧
      s'.socket.sent = s.socket.sent ++ bytes { fin := true, opcode := opcode } ∧
      s'.socket.incoming = s.socket.incoming := by
  obtain ⟨left, s', hwrite, hpos, hopen, hsent, hin⟩ := write_delivers hnet
    (WSFrameHead.bytes_ne_nil { fin := true, opcode := opcode }) (by rw [WSFrameHead.length_bytes]; norm_num) hs
  refine ⟨_, s', ?_, hpos, hopen, hsent, hin⟩
  rw [wsControl, hwrite]
  simp

theorem recvTurn_control (hf : f.isData = false) (hs : s.At (f.head.bytes ++ rest)) :
    ∃ s' : Session, s'.At rest ∧ ∀ client maxSize st, recvTurn net client maxSize st s = some (.again st, s') := by
  obtain ⟨s₁, hs₁, hread⟩ := recvTurn_head hnet f.head hs
  have hop : f.head.opcode = f.opcode := rfl
  by_cases hping : f.opcode = ping
  · obtain ⟨v, s₂, hpong, hpos, hopen, -, hin⟩ := wsControl_sends hnet pong hs₁.isOpen
    refine ⟨s₂, ⟨hopen, hin.trans hs₁.incoming⟩, ?_⟩
    intro client maxSize st
    rw [hread, recvFrame, hop, if_pos hping, wsPong, hpong]
    simp [hpos]
  · have hdata : ¬ isData f.opcode = true := Bool.eq_false_iff.1 hf
    refine ⟨s₁, hs₁, ?_⟩
    intro client maxSize st
    rw [hread, recvFrame, hop]
    split_ifs with hpong
    · rfl
    · rfl

end

theorem Frame.tail_eq_nil (h : f.payload.length < 126) : f.tail = [] ↔ f.payload = [] ∧ f.key = none := by
  unfold Frame.tail lengthBytes Frame.keyBytes Frame.masked
  rw [if_pos h]
  cases f.key with
  | none => simp
  | some k => simp [leBytes]

theorem control_skipped_iff (hnet : ¬ net.Fails) (hf : f.isData = false) (hlen : f.payload.length < 126)
    (hs : s.At (f.bytes ++ rest)) :
    (∃ s' : Session, s'.At rest ∧ recvTurn net client maxSize st s = some (.again st, s')) ↔
      f.payload = [] ∧ f.key = none := by
  obtain ⟨s₁, hs₁, hturn⟩ := recvTurn_control hnet hf hs
  rw [← Frame.tail_eq_nil hlen]
  constructor
  · rintro ⟨s', hs', hturn'⟩
    rw [hturn] at hturn'
    obtain rfl : s₁ = s' := (Prod.ext_iff.1 (Option.some.inj hturn')).2
    have hsame : f.tail ++ rest = rest := hs₁.incoming.symm.trans hs'.incoming
    exact append_left_eq_self.1 hsame
  · intro hnil
    rw [hnil] at hs₁
    exact ⟨s₁, hs₁, hturn client maxSize st⟩

/-! ## Sequences of frames -/

variable (fs : List Frame)

/-- the bytes of frames in a row -/
def stream : List UInt8 := fs.flatMap Frame.bytes

/-- the messages of a sequence of data frames: each ends with a frame that has `fin` and has the opcode of its first
one -/
def messages (first : Option (BitVec 4)) (data : List UInt8) : List Frame → List WSFrameMessage
  | [] => []
  | f :: fs =>
    if f.fin then ⟨(first.getD f.opcode).toNat, data ++ f.payload⟩ :: messages none [] fs
    else messages (some (first.getD f.opcode)) (data ++ f.payload) fs

/-- a frame the protocol allows a client or a server to send -/
structure Frame.Conforming (client : Bool) (f : Frame) : Prop where
  length : f.payload.length < 2 ^ 63
  data : f.isData = true → f.key.isSome = client
  control : f.isData = false → 8 ≤ f.opcode.toNat ∧ f.fin = true ∧ f.payload.length ≤ 125 ∧
    (f.key.isSome = true → client = true)

/-- a message is a Text or Binary frame and then Continue frames up to one with `fin`; `inside` tells whether one has
begun -/
def Ordered : Bool → List Frame → Prop
  | _, [] => True
  | inside, f :: fs => if f.isData then (f.opcode = continueFrame ↔ inside = true) ∧
      Ordered (!f.fin) fs else Ordered inside fs

/-- control frames are heads without key or payload; data frames have a payload, and their message fits -/
def Readable (maxSize : ℕ) : ℕ → List Frame → Prop
  | _, [] => True
  | length, f :: fs =>
    if f.isData then
      f.payload ≠ [] ∧ length + f.payload.length < maxSize ∧ length + f.payload.length < 2 ^ 31 ∧
        Readable maxSize (if f.fin then 0 else length + f.payload.length) fs
    else f.payload = [] ∧ f.key = none ∧ Readable maxSize length fs

/-- what follows the first complete message -/
def afterMessage : List Frame → List Frame
  | [] => []
  | f :: fs => if f.isData && f.fin then fs else afterMessage fs

theorem afterMessage_suffix : afterMessage fs <:+ fs := by
  induction fs with
  | nil => exact suffix_rfl
  | cons f fs ih =>
    unfold afterMessage
    split_ifs
    · exact suffix_cons f fs
    · exact ih.trans (suffix_cons f fs)

theorem length_le_stream : fs.length ≤ (stream fs).length := by
  induction fs with
  | nil => exact le_rfl
  | cons f fs ih =>
    have hcons : stream (f :: fs) = f.head.bytes ++ (f.tail ++ stream fs) := by rfl
    rw [hcons, length_cons, length_append, length_append, WSFrameHead.length_bytes]
    omega

/-- the variables of the loop inside a message with this first opcode -/
structure Partial.Inside (st : Partial) (first : Option (BitVec 4)) : Prop where
  opcode : st.opcode = first.elim 0 BitVec.toNat
  length : st.data.length = st.currentLength

theorem Partial.Inside.next {first : Option (BitVec 4)} (h : st.Inside first)
    (hf : f.opcode = continueFrame ↔ first.isSome = true) : (st.next f).Inside (some (first.getD f.opcode)) := by
  refine ⟨?_, ?_⟩
  · cases first with
    | none =>
      have hne : f.opcode ≠ continueFrame := fun heq => absurd (hf.1 heq) (by decide)
      exact if_pos ⟨h.opcode, hne⟩
    | some o =>
      have heq : f.opcode = continueFrame := hf.2 rfl
      exact (if_neg fun hc => hc.2 heq).trans h.opcode
  · unfold Partial.next
    rw [length_append, h.length]

section

variable {sender : Bool}

theorem accepted_of_readable {fs : List Frame} (hdata : f.isData = true) (hconf : f.Conforming sender)
    (hread : Readable maxSize st.currentLength (f :: fs)) : Accepted (!sender) maxSize st f := by
  rw [Readable, if_pos hdata] at hread
  obtain ⟨hne, hmax, hint, -⟩ := hread
  refine ⟨hdata, ?_, hne, hmax, hint⟩
  rw [hconf.data hdata]
  cases sender with
  | false => exact .inl rfl
  | true => exact .inr rfl

theorem recvTurns_frames (hnet : ¬ net.Fails) {first : Option (BitVec 4)} (hst : st.Inside first) {fs : List Frame}
    {fuel : ℕ} (hfuel : fs.length ≤ fuel) (hconf : ∀ f ∈ fs, f.Conforming sender) (hord : Ordered first.isSome fs)
    (hread : Readable maxSize st.currentLength fs) (hs : s.At (stream fs ++ rest)) {m : WSFrameMessage}
    {ms : List WSFrameMessage} (hm : messages first st.data (fs.filter Frame.isData) = m :: ms) :
    ∃ s' : Session, recvTurns net (!sender) maxSize fuel st s = some (some m, s') ∧
      s'.At (stream (afterMessage fs) ++ rest) ∧
      messages none [] ((afterMessage fs).filter Frame.isData) = ms ∧ Ordered false (afterMessage fs) ∧
      Readable maxSize 0 (afterMessage fs) := by
  induction fs generalizing st s first fuel with
  | nil => cases hm
  | cons f fs ih =>
    cases fuel with
    | zero => exact absurd hfuel (Nat.not_succ_le_zero _)
    | succ fuel =>
      have hfuel' : fs.length ≤ fuel := Nat.le_of_succ_le_succ hfuel
      have hconf' : ∀ g ∈ fs, g.Conforming sender := fun g hg => hconf g (mem_cons_of_mem _ hg)
      have hbytes : stream (f :: fs) ++ rest = f.bytes ++ (stream fs ++ rest) := by
        rw [stream, flatMap_cons, append_assoc]
        rfl
      rw [hbytes] at hs
      cases hdata : f.isData with
      | true =>
        have hacc := accepted_of_readable hdata (hconf f mem_cons_self) hread
        obtain ⟨s₁, hs₁, hturn⟩ := recvTurn_data hnet hacc hst.length hs
        rw [Ordered, if_pos hdata] at hord
        rw [Readable, if_pos hdata] at hread
        obtain ⟨hopcode, hord⟩ := hord
        obtain ⟨-, -, -, hread⟩ := hread
        have hnext := hst.next hopcode
        rw [filter_cons_of_pos hdata, messages] at hm
        rw [recvTurns, hturn, afterMessage, hdata]
        cases hfin : f.fin with
        | true =>
          rw [hfin] at hm hread
          rw [hfin] at hord
          obtain ⟨rfl, rfl⟩ := List.cons.inj hm
          refine ⟨s₁, ?_, hs₁, rfl, hord, hread⟩
          simp only [Partial.accept, hfin, if_true, hnext.opcode, Option.elim_some]
          rfl
        | false =>
          rw [hfin] at hm hread
          rw [hfin] at hord
          have hrest := ih hnext hfuel' hconf' hord hread hs₁ hm
          simp only [Partial.accept, hfin, Bool.false_eq_true, if_false, Bool.and_false]
          exact hrest
      | false =>
        rw [Ordered, hdata] at hord
        rw [Readable, hdata] at hread
        obtain ⟨hpayload, hkey, hread⟩ := hread
        rw [filter_cons_of_neg (by rw [hdata]; decide)] at hm
        have htail : f.tail = [] := (Frame.tail_eq_nil (by rw [hpayload]; decide)).2 ⟨hpayload, hkey⟩
        rw [Frame.bytes, htail] at hs
        obtain ⟨s₁, hs₁, hturn⟩ := recvTurn_control hnet hdata hs
        rw [recvTurns, hturn, afterMessage, hdata]
        exact ih hst hfuel' hconf' hord hread hs₁ hm

/-- **A sequence of frames.** -/
theorem wsReceive_frames (net : Net) (hnet : ¬ net.Fails) (sender : Bool) (maxSize : ℕ) (fs : List Frame)
    (hconf : ∀ f ∈ fs, f.Conforming sender) (hord : Ordered false fs) (hread : Readable maxSize 0 fs) (s : Session)
    (rest : List UInt8) (hs : s.At (stream fs ++ rest)) :
    ∃ (s' : Session) (tail : List Frame),
      wsReceive net (!sender) maxSize (messages none [] (fs.filter Frame.isData)).length s =
        some ((messages none [] (fs.filter Frame.isData)).map some, s') ∧
      tail <:+ fs ∧ messages none [] (tail.filter Frame.isData) = [] ∧ s'.At (stream tail ++ rest) := by
  generalize hms : messages none [] (fs.filter Frame.isData) = ms
  induction ms generalizing fs s with
  | nil => exact ⟨s, fs, rfl, suffix_rfl, hms, hs⟩
  | cons m ms ih =>
    have hfuel : fs.length ≤ s.socket.incoming.length + 1 := by
      have := length_le_stream fs
      rw [hs.incoming, length_append]
      omega
    obtain ⟨s₁, hcall, hs₁, hms₁, hord₁, hread₁⟩ :=
      recvTurns_frames hnet (⟨rfl, rfl⟩ : Partial.Inside {} none) hfuel hconf
      hord hread hs hms
    have hsuffix := afterMessage_suffix fs
    obtain ⟨s', tail, hcalls, htail, hnone, hs'⟩ :=
      ih (afterMessage fs) (fun f hf => hconf f (hsuffix.subset hf)) hord₁ hread₁ s₁
      hs₁ hms₁
    refine ⟨s', tail, ?_, htail.trans hsuffix, hnone, hs'⟩
    rw [length_cons, wsReceive, wsRecvMessage, hcall]
    simp [hcalls]

end

/-- a socket that takes and gives three bytes a call -/
def byThrees : Net := ⟨fun _ => true, fun _ => 3⟩

theorem byThrees_not_fails : ¬ byThrees.Fails := by
  rintro ⟨i, hconn | hanswer⟩
  · cases hconn
  · exact absurd hanswer (show ¬ (3 : ℤ) ≤ 0 by decide)

/-- a message of a server in two frames, with a ping between them -/
def greeting : List Frame :=
  [⟨false, textFrame, none, [104]⟩, ⟨true, ping, none, []⟩, ⟨true, continueFrame, none, [105]⟩]

theorem greeting_received :
    ∃ (s' : Session) (tail : List Frame),
      wsReceive byThrees (!false) 100 (messages none [] (greeting.filter Frame.isData)).length
        ⟨⟨stream greeting ++ [7], [], 0⟩, false⟩ =
        some ((messages none [] (greeting.filter Frame.isData)).map some, s') ∧
      tail <:+ greeting ∧ messages none [] (tail.filter Frame.isData) = [] ∧ s'.At (stream tail ++ [7]) := by
  refine wsReceive_frames byThrees byThrees_not_fails false 100 greeting ?_ ⟨by decide, by decide, trivial⟩
    ⟨by decide, by decide, by decide, rfl, rfl, by decide, by decide, by decide, trivial⟩ _ [7] ⟨rfl, rfl⟩
  intro f hf
  simp only [greeting, mem_cons, not_mem_nil, or_false] at hf
  rcases hf with rfl | rfl | rfl
  all_goals exact ⟨by decide, by decide, by decide⟩

/-- a ping of a client, which has a masking key, and a message after it -/
def pinged : List Frame := [⟨true, ping, some 0x04030201, []⟩, ⟨true, textFrame, some 0x04030201, [104]⟩]

theorem masked_ping_closes :
    (∀ f ∈ pinged, f.Conforming true) ∧ Ordered false pinged ∧
      messages none [] (pinged.filter Frame.isData) = [⟨1, [104]⟩] ∧
      (wsReceive byThrees false 100 1 ⟨⟨stream pinged, [], 0⟩, false⟩).map Prod.fst = some [none] ∧
      (wsReceive byThrees false 100 1 ⟨⟨stream pinged, [], 0⟩, false⟩).map (fun r => r.2.closed) = some true := by
  refine ⟨?_, ⟨by decide, trivial⟩, by decide, by decide +kernel, by decide +kernel⟩
  intro f hf
  simp only [pinged, mem_cons, not_mem_nil, or_false] at hf
  rcases hf with rfl | rfl
  all_goals exact ⟨by decide, by decide, by decide⟩

end CoServer.Http
