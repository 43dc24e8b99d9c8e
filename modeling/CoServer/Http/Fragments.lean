/-
Messages that `wsSendMessage` sends in fragments, and their reassembly by `wsRecvMessage`.

`SendOp` is a call of a sender: a ping, a pong or a fragment with the number `rand` returns for it. `Fragments` says
which calls send one message. The bytes they put on the stream are those of frames (`Http.Frames`), so that what is
received follows from the frames.

Results:
- `Fragments.completes`: the fragments of a message are frames that complete it.
- `fragments_reassembled`: sent in either role among pings and pongs, over streams that do not fail, they are received
  in the other role as one message, if it is shorter than the maximum and 2^31, and the stream is left after them.
- `recvTurn_long`: a frame whose length is no positive `int` ends the call, whatever the maximum.
- `long_fragment_refused`: a maximum of 2^31 + 1, which a `uint32_t` can hold, does not help.
-/
import CoServer.Http.Frames

namespace CoServer.Http

open CoServer.Core List
open CoServer.Stream (Net Socket castInt)

variable {net : Net} {client : Bool} {maxSize : ℕ} {f : Frame} {s : Session}

/-! ## What is sent -/

/-- a call that succeeds and adds these bytes to the stream -/
def Sends (call : Session → Option (ℤ × WSFrameMessage × Session)) (bytes : List UInt8) : Prop :=
  ∀ s : Session, s.closed = false → ∃ (v : ℤ) (msg : WSFrameMessage) (s' : Session),
    call s = some (v, msg, s') ∧ s'.closed = false ∧ s'.socket.sent = s.socket.sent ++ bytes

theorem sends_write (hnet : ¬ net.Fails) {bs bytes : List UInt8} (hne : bs ≠ []) (hlen : bs.length < 2 ^ 31)
    (msg : WSFrameMessage) {next : Session → Option (ℤ × WSFrameMessage × Session)} (hnext : Sends next bytes) :
    Sends (fun s => s.writeOr net bs msg next) (bs ++ bytes) := by
  intro s hs
  obtain ⟨left, s₁, hwrite, hpos, hopen, hsent, -⟩ := Session.write_delivers hnet hne hlen hs
  obtain ⟨v, msg', s₂, hcall, hopen₂, hsent₂⟩ := hnext s₁ hopen
  refine ⟨v, msg', s₂, ?_, hopen₂, ?_⟩
  · simp only [Session.writeOr, hwrite, hpos, if_false]
    exact hcall
  · rw [hsent₂, hsent, append_assoc]

/-- the frame a message is sent in -/
def WSFrameMessage.frame (msg : WSFrameMessage) (client fin : Bool) (randValue : BitVec 32) : Frame :=
  ⟨fin, BitVec.ofNat 4 msg.opcode, if client then some randValue else none, msg.data⟩

section

variable (client fin : Bool) (randValue : BitVec 32) {msg : WSFrameMessage}

theorem sendPayload_sends (hnet : ¬ net.Fails) (hne : msg.data ≠ []) (hlen : msg.data.length < 2 ^ 31) :
    Sends (sendPayload net msg) msg.data := by
  have hdone : Sends (fun s => some (castInt (msg.data.length + 2), msg, s)) [] := by
    intro s hs
    exact ⟨_, _, s, rfl, hs, (append_nil _).symm⟩
  have hsend := sends_write hnet hne hlen msg hdone
  rwa [append_nil] at hsend

theorem sendMasked_sends (hnet : ¬ net.Fails) (hne : msg.data ≠ []) (hlen : msg.data.length < 2 ^ 31) :
    Sends (sendMasked net client randValue msg)
      ((msg.frame client fin randValue).keyBytes ++ (msg.frame client fin randValue).masked) := by
  cases client with
  | false => exact sendPayload_sends hnet hne hlen
  | true =>
    have hne' : applyMask (leBytes 4 randValue.toNat) msg.data ≠ [] := by
      intro hnil
      have hzero := length_applyMask (leBytes 4 randValue.toNat) msg.data
      rw [hnil] at hzero
      exact hne (length_eq_zero_iff.1 hzero.symm)
    have hkey : leBytes 4 randValue.toNat ≠ [] := cons_ne_nil _ _
    refine sends_write hnet hkey (by rw [length_leBytes]; norm_num) _ ?_
    exact sendPayload_sends hnet hne' (by rw [length_applyMask]; exact hlen)

theorem wsSendMessage_sends (hnet : ¬ net.Fails) (hne : msg.data ≠ []) (hlen : msg.data.length < 2 ^ 31) :
    Sends (wsSendMessage net client fin randValue msg) (msg.frame client fin randValue).bytes := by
  have hmasked := sendMasked_sends client fin randValue hnet hne hlen
  have hhead : (msg.frame client fin randValue).head =
      { fin := fin, opcode := BitVec.ofNat 4 msg.opcode, mask := client, payload := payloadField msg.data.length } := by
    cases client with
    | false | true => rfl
  have htail : (msg.frame client fin randValue).tail = lengthBytes msg.data.length ++
      ((msg.frame client fin randValue).keyBytes ++ (msg.frame client fin randValue).masked) := append_assoc _ _ _
  rw [Frame.bytes, hhead, htail]
  refine sends_write hnet (WSFrameHead.bytes_ne_nil _) (by rw [WSFrameHead.length_bytes]; norm_num) msg ?_
  rcases payloadField_cases msg.data.length with ⟨-, h126, h127, hbytes⟩ | ⟨h126, -, hbytes⟩ | ⟨h127, hbytes⟩
  · simp only [if_neg h126, if_neg h127, hbytes, nil_append]
    exact hmasked
  · simp only [if_pos h126, hbytes]
    exact sends_write hnet (swapped_ne_nil (by decide) _) (by rw [length_swapped]; norm_num) msg hmasked
  · simp only [h127, hbytes]
    exact sends_write hnet (swapped_ne_nil (by decide) _) (by rw [length_swapped]; norm_num) msg hmasked

end

/-! ## Fragments -/

/-- a call of a sender -/
inductive SendOp where
  | ping
  | pong
  | message (msg : WSFrameMessage) (fin : Bool) (randValue : BitVec 32)
deriving DecidableEq

open SendOp

namespace SendOp

def call (net : Net) (client : Bool) (s : Session) : SendOp → Option Session
  | .ping => (wsPing net s).map Prod.snd
  | .pong => (wsPong net s).map Prod.snd
  | .message msg fin randValue => (wsSendMessage net client fin randValue msg s).map fun r => r.2.2

def frame (client : Bool) : SendOp → Frame
  | .ping => ⟨true, WSFrameHead.ping, none, []⟩
  | .pong => ⟨true, WSFrameHead.pong, none, []⟩
  | .message msg fin randValue => msg.frame client fin randValue

def data : SendOp → List UInt8
  | .ping | .pong => []
  | .message msg _ _ => msg.data

end SendOp

/-- calls in a row -/
def sendAll (net : Net) (client : Bool) : List SendOp → Session → Option Session
  | [], s => some s
  | o :: ops, s => (o.call net client s).bind fun s => sendAll net client ops s

/-- one message in fragments that are not empty, the last one with `fin`, among pings and pongs -/
def Fragments : Bool → List SendOp → Prop
  | _, [] => False
  | inside, .ping :: ops => Fragments inside ops
  | inside, .pong :: ops => Fragments inside ops
  | inside, .message msg fin _ :: ops =>
    msg.data ≠ [] ∧ (if inside then msg.opcode = 0 else msg.opcode = 1 ∨ msg.opcode = 2) ∧
      if fin then ops = [] else Fragments true ops

/-- the fragments' data in a row -/
def allData (ops : List SendOp) : List UInt8 := ops.flatMap data

/-- the opcode of the first fragment -/
def firstOpcode : List SendOp → ℕ
  | [] => 0
  | .ping :: ops => firstOpcode ops
  | .pong :: ops => firstOpcode ops
  | .message msg _ _ :: _ => msg.opcode

theorem call_sends (hnet : ¬ net.Fails) (client : Bool) {o : SendOp}
    (ho : ∀ msg fin randValue, o = .message msg fin randValue →
    msg.data ≠ [] ∧ msg.data.length < 2 ^ 31) (hs : s.closed = false) :
    ∃ s' : Session, o.call net client s = some s' ∧ s'.closed = false ∧
      s'.socket.sent = s.socket.sent ++ (o.frame client).bytes := by
  cases o with
  | ping =>
    obtain ⟨v, s', hcall, -, hopen, hsent, -⟩ := wsControl_sends hnet WSFrameHead.ping hs
    exact ⟨s', by rw [call, wsPing, hcall]; rfl, hopen, hsent⟩
  | pong =>
    obtain ⟨v, s', hcall, -, hopen, hsent, -⟩ := wsControl_sends hnet WSFrameHead.pong hs
    exact ⟨s', by rw [call, wsPong, hcall]; rfl, hopen, hsent⟩
  | message msg fin randValue =>
    obtain ⟨hne, hlen⟩ := ho msg fin randValue rfl
    obtain ⟨v, msg', s', hcall, hopen, hsent⟩ := wsSendMessage_sends client fin randValue hnet hne hlen s hs
    exact ⟨s', by rw [call, hcall]; rfl, hopen, hsent⟩

variable {ops : List SendOp}

theorem sendAll_sends (hnet : ¬ net.Fails) (client : Bool) (hops : ∀ msg fin randValue,
    message msg fin randValue ∈ ops → msg.data ≠ [] ∧ msg.data.length < 2 ^ 31) (hs : s.closed = false) :
    ∃ s' : Session, sendAll net client ops s = some s' ∧ s'.closed = false ∧
      s'.socket.sent = s.socket.sent ++ stream (ops.map (frame client)) := by
  induction ops generalizing s with
  | nil => exact ⟨s, rfl, hs, (append_nil _).symm⟩
  | cons o ops ih =>
    have ho : ∀ msg fin randValue, o = .message msg fin randValue → msg.data ≠ [] ∧ msg.data.length < 2 ^ 31 := by
      intro msg fin randValue heq
      exact hops msg fin randValue (heq ▸ mem_cons_self)
    obtain ⟨s₁, hcall, hopen, hsent⟩ := call_sends hnet client ho hs
    obtain ⟨s₂, hrest, hopen₂, hsent₂⟩ :=
      ih (fun msg fin randValue hmem => hops msg fin randValue (mem_cons_of_mem _ hmem)) hopen
    refine ⟨s₂, ?_, hopen₂, ?_⟩
    · rw [sendAll, hcall, Option.bind_some, hrest]
    · rw [hsent₂, hsent, map_cons, stream, stream, flatMap_cons, append_assoc]

/-- frames that are the rest of one message, which is `m`, with `length` bytes of it before them -/
structure Completes (client : Bool) (maxSize length : ℕ) (first : Option (BitVec 4)) (data : List UInt8)
    (fs : List Frame)
    (m : WSFrameMessage) : Prop where
  conforming : ∀ f ∈ fs, f.Conforming client
  ordered : Ordered first.isSome fs
  readable : Readable maxSize length fs
  messages : messages first data (fs.filter Frame.isData) = [m]
  after : afterMessage fs = []

section

variable {length : ℕ} {first : Option (BitVec 4)} {data : List UInt8} {fs : List Frame} {m : WSFrameMessage}

theorem Completes.control (h : Completes client maxSize length first data fs m) (hf : f.isData = false)
    (hconf : f.Conforming client)
    (hpayload : f.payload = []) (hkey : f.key = none) : Completes client maxSize length first data (f :: fs) m where
  conforming := forall_mem_cons.2 ⟨hconf, h.conforming⟩
  ordered := by
    rw [Ordered, if_neg (Bool.eq_false_iff.1 hf)]
    exact h.ordered
  readable := by
    rw [Readable, if_neg (Bool.eq_false_iff.1 hf)]
    exact ⟨hpayload, hkey, h.readable⟩
  messages := by
    rw [filter_cons_of_neg (Bool.eq_false_iff.1 hf)]
    exact h.messages
  after := by
    rw [afterMessage, hf]
    exact h.after

variable (hf : f.isData = true) (hconf : f.Conforming client)
  (hopcode : f.opcode = WSFrameHead.continueFrame ↔ first.isSome = true)
  (hne : f.payload ≠ []) (hmax : length + f.payload.length < maxSize) (hint : length + f.payload.length < 2 ^ 31)
include hf hconf hopcode hne hmax hint

theorem Completes.last (hfin : f.fin = true) :
    Completes client maxSize length first data [f] ⟨(first.getD f.opcode).toNat, data ++ f.payload⟩ where
  conforming := forall_mem_cons.2 ⟨hconf, fun x hx => absurd hx not_mem_nil⟩
  ordered := by
    rw [Ordered, if_pos hf]
    exact ⟨hopcode, trivial⟩
  readable := by
    rw [Readable, if_pos hf]
    exact ⟨hne, hmax, hint, trivial⟩
  messages := by
    rw [filter_cons_of_pos hf, Http.messages, if_pos hfin]
    rfl
  after := by
    rw [afterMessage, hf, hfin]
    rfl

theorem Completes.more (hfin : f.fin = false)
    (h : Completes client maxSize (length + f.payload.length) (some (first.getD f.opcode)) (data ++ f.payload) fs m) :
    Completes client maxSize length first data (f :: fs) m where
  conforming := forall_mem_cons.2 ⟨hconf, h.conforming⟩
  ordered := by
    rw [Ordered, if_pos hf, hfin]
    exact ⟨hopcode, h.ordered⟩
  readable := by
    rw [Readable, if_pos hf, hfin]
    exact ⟨hne, hmax, hint, h.readable⟩
  messages := by
    rw [filter_cons_of_pos hf, Http.messages, hfin]
    exact h.messages
  after := by
    rw [afterMessage, hf, hfin]
    exact h.after

end

theorem conforming_bare (client : Bool) {opcode : BitVec 4} (h : 8 ≤ opcode.toNat) (hdata : isData opcode = false) :
    Frame.Conforming client ⟨true, opcode, none, []⟩ where
  length := by norm_num
  data hd := absurd hd (Bool.eq_false_iff.1 hdata)
  control _ := ⟨h, rfl, Nat.zero_le _, nofun⟩

theorem Fragments.completes (client : Bool) {first : Option (BitVec 4)} {length : ℕ}
    (h : Fragments first.isSome ops) (hmax : length + (allData ops).length < maxSize)
    (hint : length + (allData ops).length < 2 ^ 31) (data : List UInt8) :
    Completes client maxSize length first data (ops.map (frame client))
      ⟨first.elim (firstOpcode ops) BitVec.toNat, data ++ allData ops⟩ := by
  induction ops generalizing first length data with
  | nil => exact h.elim
  | cons o ops ih =>
    cases o with
    | ping | pong => exact (ih h hmax hint data).control rfl (conforming_bare client (by decide) (by decide)) rfl rfl
    | message msg fin randValue =>
      obtain ⟨hne, hopcode, hrest⟩ := h
      -- one of the three opcodes, and `Continue` inside a message only
      have hop : isData (BitVec.ofNat 4 msg.opcode) = true ∧ (BitVec.ofNat 4 msg.opcode).toNat = msg.opcode ∧
          (BitVec.ofNat 4 msg.opcode = WSFrameHead.continueFrame ↔ first.isSome = true) := by
        split_ifs at hopcode with hinside
        · rw [hopcode, hinside]
          decide
        rw [Bool.eq_false_iff.2 hinside]
        rcases hopcode with hopcode | hopcode
        all_goals
          rw [hopcode]
          decide
      have hopcode' : (first.getD (BitVec.ofNat 4 msg.opcode)).toNat = first.elim msg.opcode BitVec.toNat := by
        cases first with
        | none => exact hop.2.1
        | some o => rfl
      have hdata : (msg.frame client fin randValue).isData = true := hop.1
      have hall : allData (message msg fin randValue :: ops) = msg.data ++ allData ops := rfl
      rw [hall, length_append] at hmax hint
      have hconf : (msg.frame client fin randValue).Conforming client := by
        refine ⟨show msg.data.length < 2 ^ 63 by omega, ?_, fun hd => absurd hdata (Bool.eq_false_iff.1 hd)⟩
        intro _
        cases client with
        | false => rfl
        | true => rfl
      have hfits : length + msg.data.length < maxSize ∧ length + msg.data.length < 2 ^ 31 := by omega
      cases fin with
      | true =>
        obtain rfl : ops = [] := hrest
        have hlast : Completes client maxSize length first data [msg.frame client true randValue] _ :=
          Completes.last hdata hconf hop.2.2 hne hfits.1 hfits.2 rfl
        rw [hall, firstOpcode, ← hopcode', show allData [] = [] from rfl, append_nil]
        exact hlast
      | false =>
        have hinside : Fragments (some (first.getD (BitVec.ofNat 4 msg.opcode))).isSome ops := hrest
        have hmore :=
          ih hinside (by rw [Nat.add_assoc]; exact hmax) (by rw [Nat.add_assoc]; exact hint) (data ++ msg.data)
        rw [hall, firstOpcode, ← hopcode', ← append_assoc]
        exact hmore.more hdata hconf hop.2.2 hne hfits.1 hfits.2 rfl

theorem length_data_le {o : SendOp} (h : o ∈ ops) : o.data.length ≤ (allData ops).length := by
  induction ops with
  | nil => cases h
  | cons x ops ih =>
    rw [allData, flatMap_cons, length_append]
    rcases mem_cons.1 h with rfl | h
    · exact Nat.le_add_right _ _
    · exact (ih h).trans (Nat.le_add_left _ _)

theorem Fragments.nonempty {inside : Bool} (h : Fragments inside ops) {msg : WSFrameMessage} {fin : Bool}
    {randValue : BitVec 32} (hmem : message msg fin randValue ∈ ops) : msg.data ≠ [] := by
  induction ops generalizing inside with
  | nil => exact h.elim
  | cons o ops ih =>
    rcases mem_cons.1 hmem with rfl | hlater
    · exact h.1
    cases o with
    | ping | pong => exact ih h hlater
    | message msg' fin' randValue' =>
      obtain ⟨-, -, hrest⟩ := h
      cases fin' with
      | true =>
        obtain rfl : ops = [] := hrest
        cases hlater
      | false => exact ih hrest hlater

theorem Fragments.received (hnet : ¬ net.Fails) (hops : Fragments false ops) (hmax : (allData ops).length < maxSize)
    (hint : (allData ops).length < 2 ^ 31) {r : Session} {rest : List UInt8}
    (hr : r.At (stream (ops.map (frame client)) ++ rest)) :
    ∃ r' : Session, wsRecvMessage net (!client) maxSize r = some (some ⟨firstOpcode ops, allData ops⟩, r') ∧
      r'.At rest := by
  have hinside : Fragments (none : Option (BitVec 4)).isSome ops := hops
  have hcomp : Completes client maxSize 0 none [] (ops.map (frame client)) _ :=
    Fragments.completes client hinside (by rw [Nat.zero_add]; exact hmax) (by rw [Nat.zero_add]; exact hint) []
  have hfuel : (ops.map (frame client)).length ≤ r.socket.incoming.length + 1 := by
    have := length_le_stream (ops.map (frame client))
    rw [hr.incoming, length_append]
    omega
  obtain ⟨r', hcall, hr', -⟩ :=
    recvTurns_frames hnet (⟨rfl, rfl⟩ : Partial.Inside {} none) hfuel hcomp.conforming hcomp.ordered
    hcomp.readable hr hcomp.messages
  rw [hcomp.after] at hr'
  exact ⟨r', hcall, hr'⟩

/-- **Reassembly.** -/
theorem fragments_reassembled (sendNet recvNet : Net) (hsend : ¬ sendNet.Fails) (hrecv : ¬ recvNet.Fails)
    (client : Bool) (maxSize : ℕ)
    (ops : List SendOp) (hops : Fragments false ops) (hmax : (allData ops).length < maxSize)
    (hint : (allData ops).length < 2 ^ 31)
    (s : Session) (hs : s.closed = false) :
    ∃ (s' : Session) (bytes : List UInt8), sendAll sendNet client ops s = some s' ∧ s'.closed = false ∧
      s'.socket.sent = s.socket.sent ++ bytes ∧
      ∀ (r : Session) (rest : List UInt8), r.At (bytes ++ rest) →
        ∃ r' : Session, wsRecvMessage recvNet (!client) maxSize r = some (some ⟨firstOpcode ops, allData ops⟩, r') ∧
        r'.At rest := by
  obtain ⟨s', hcalls, hopen, hsent⟩ := sendAll_sends hsend client
    (fun msg fin randValue hmem => ⟨hops.nonempty hmem, (length_data_le hmem).trans_lt hint⟩) hs
  exact ⟨s', _, hcalls, hopen, hsent, fun r rest hr => hops.received hrecv hmax hint hr⟩

/-- a client's message in two fragments with a ping before the first and a pong between them -/
def clientGreeting : List SendOp :=
  [.ping, .message ⟨2, [104]⟩ false 0x01020304, .pong, .message ⟨0, [105]⟩ true 0x0A0B0C0D]

theorem clientGreeting_reassembled :
    ∃ (s' : Session) (bytes : List UInt8), sendAll byThrees true clientGreeting ⟨⟨[], [], 0⟩, false⟩ = some s' ∧
      s'.closed = false ∧
      s'.socket.sent = [] ++ bytes ∧
      ∀ (r : Session) (rest : List UInt8), r.At (bytes ++ rest) →
        ∃ r' : Session, wsRecvMessage byThrees (!true) 100 r = some
    (some ⟨firstOpcode clientGreeting, allData clientGreeting⟩, r') ∧
          r'.At rest :=
  fragments_reassembled byThrees byThrees byThrees_not_fails byThrees_not_fails true 100 clientGreeting
    ⟨by decide, Or.inr rfl, by decide, rfl, rfl⟩ (by decide) (by decide) ⟨⟨[], [], 0⟩, false⟩ rfl

theorem recvTurn_long (hnet : ¬ net.Fails) (hdata : f.isData = true) (hkey : f.key = none)
    (hlen : castInt f.payload.length ≤ 0) (hsize : 128 ≤ f.payload.length) (hlt : f.payload.length < 2 ^ 64)
    (hs : s.At f.bytes) (maxSize : ℕ) : ∃ s', recvTurn net true maxSize {} s = some (.broke, s') := by
  have hmask : f.head.mask = false := by rw [Frame.head, hkey]; rfl
  have hpayload : f.head.payload = payloadField f.payload.length := rfl
  have hpart : ∀ s₁ : Session, ∃ s', recvPayload net maxSize f.head f.payload.length {} s₁ = some (.broke, s') := by
    intro s₁
    unfold recvPayload
    split_ifs with hmax hm
    · exact ⟨s₁, rfl⟩
    · rw [hmask] at hm
      cases hm
    · exact Session.readOr_nonpos hlen s₁ _
  obtain ⟨s₁, hs₁, hread⟩ := recvTurn_head hnet f.head hs
  have hkinds : ∀ o : BitVec 4, isData o = true → o ≠ WSFrameHead.ping ∧ o ≠ WSFrameHead.pong := by decide
  have hop : f.head.opcode = f.opcode := rfl
  obtain ⟨hping, hpong⟩ := hkinds f.opcode hdata
  rw [hread, recvFrame, hop, if_neg hping, if_neg hpong, show isData f.opcode = true from hdata, recvData,
    Bool.not_true, hpayload]
  have htail : f.tail = lengthBytes f.payload.length ++ (f.keyBytes ++ f.masked) := append_assoc _ _ _
  rw [htail] at hs₁
  rcases payloadField_cases f.payload.length with ⟨htoNat, -⟩ | ⟨h126, hshort, hbytes⟩ | ⟨h127, hbytes⟩
  · omega
  · rw [hbytes] at hs₁
    obtain ⟨s₂, -, hnext⟩ := read_length hnet (by decide) (by norm_num) (by omega) hs₁ fun len s =>
      recvPayload net maxSize f.head len {} s
    rw [if_pos h126, hnext]
    exact hpart s₂
  · rw [hbytes] at hs₁
    obtain ⟨s₂, -, hnext⟩ := read_length hnet (by decide) (by norm_num) (by omega) hs₁ fun len s =>
      recvPayload net maxSize f.head len {} s
    rw [h127, hnext]
    exact hpart s₂

theorem wsRecvMessage_long {msg : WSFrameMessage} (hopcode : msg.opcode = 1) (hlen : msg.data.length = 2 ^ 31)
    (maxSize : ℕ) :
    ∃ s' : Session, wsRecvMessage byThrees (!false) maxSize ⟨⟨stream [msg.frame false true 0], [], 0⟩, false⟩ = some
    (none, s') ∧
      s'.closed = true := by
  have hbytes : stream [msg.frame false true 0] = (msg.frame false true 0).bytes := append_nil _
  have hpayload : (msg.frame false true 0).payload.length = 2 ^ 31 := hlen
  have hdata : (msg.frame false true 0).isData = true := by
    rw [WSFrameMessage.frame, hopcode]
    rfl
  have hat : Session.At ⟨⟨stream [msg.frame false true 0], [], 0⟩, false⟩ (msg.frame false true 0).bytes :=
    ⟨rfl, hbytes⟩
  obtain ⟨s₁, hturn⟩ :=
    recvTurn_long byThrees_not_fails hdata rfl (by rw [hpayload]; decide) (by rw [hpayload]; norm_num)
    (by rw [hpayload]; norm_num) hat maxSize
  refine ⟨s₁.close, ?_, rfl⟩
  rw [wsRecvMessage, recvTurns, Bool.not_false, hturn]

def zeros (n : ℕ) : WSFrameMessage := ⟨1, List.replicate n 0⟩

theorem long_fragment_refused :
    Fragments false [.message (zeros (2 ^ 31)) true 0] ∧
      (allData [.message (zeros (2 ^ 31)) true 0]).length < 2 ^ 31 + 1 ∧
      2 ^ 31 + 1 < 2 ^ 32 ∧
      ∃ s' : Session, wsRecvMessage byThrees (!false) (2 ^ 31 + 1)
        ⟨⟨stream [(zeros (2 ^ 31)).frame false true 0], [], 0⟩, false⟩ =
        some (none, s') ∧ s'.closed = true := by
  have hlen : (zeros (2 ^ 31)).data.length = 2 ^ 31 := length_replicate
  have hall : allData [.message (zeros (2 ^ 31)) true 0] = (zeros (2 ^ 31)).data := append_nil _
  have hne : (zeros (2 ^ 31)).data ≠ [] := by
    intro hnil
    rw [hnil] at hlen
    norm_num at hlen
  refine ⟨⟨hne, Or.inl rfl, rfl⟩, ?_, by norm_num, wsRecvMessage_long rfl hlen _⟩
  rw [hall, hlen]
  norm_num

end CoServer.Http
