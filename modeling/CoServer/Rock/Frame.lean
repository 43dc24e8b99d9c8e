/-
Frames of messages that are not compressed: what `serializeTo` sends, and what `parseFrom` makes of it. A frame is sent
and received as the same bytes on hosts of any byte order, whatever the fragmentation. The type of a message that is
parsed is the first byte of its encoding, which is no type but the highest byte of its serial number or notification
number (`parseMessage_type`).

Results:
- `frame_roundtrip_iff`: for every message whose encoding is shorter than `gzip_min_length`, hosts of any byte order and
  streams of any fragmentation that do not fail, what `serializeTo` sends is parsed by `parseFrom` to the same message,
  and exactly those bytes are consumed, iff the highest byte of the serial number, or of the notification number, is the
  type of the message, and the encoding is shorter than `max_length` and than `2 ^ 31` bytes.
- `messages_in_order`: messages that each come back are received in the order they were sent in.
- `request_lost`: the second request of a connection; its first byte is 0, which is no type.
-/
import CoServer.ByteArray.RoundTrip
import CoServer.Rock.Protocol
import CoServer.Stream.FixSize

namespace CoServer.Rock

open List Nat
open CoServer.ByteArray
open CoServer.Stream

/-! ## Encodings -/

/-- the length of a string, seven bits a byte -/
def lenBytes (n : ℕ) : List UInt8 := (varuintBytes 10 n).getD []

def stringBytes (s : List UInt8) : List UInt8 := lenBytes s.length ++ s

/-- an integer, highest byte first -/
def wordBytes (v : BitVec 32) : List UInt8 := memory .big 4 v.toNat

def encode : Message → List UInt8
  | .request sn cmd body => wordBytes sn ++ (wordBytes cmd ++ stringBytes body)
  | .response sn cmd result resultStr body =>
    wordBytes sn ++ (wordBytes cmd ++ (wordBytes result ++ (stringBytes resultStr ++ stringBytes body)))
  | .notify notify body => wordBytes notify ++ stringBytes body

theorem varuintBytes_ten {n : ℕ} (h : n < 2 ^ 64) : varuintBytes 10 n = some (lenBytes n) := by
  obtain ⟨bs, hbs⟩ :=
    varuintBytes_isSome (show n < 2 ^ (7 * (9 + 1)) from h.trans_le (Nat.pow_le_pow_right (by norm_num) (by norm_num)))
  rw [lenBytes, hbs, Option.getD_some]

theorem toNat_ofNat64 {n : ℕ} (h : n < 2 ^ 64) : ((BitVec.ofNat 64 n).setWidth 64).toNat = n := by
  rw [BitVec.setWidth_eq, BitVec.toNat_ofNat, mod_eq_of_lt h]

variable {msg : Message} {b b' : ByteArray} {e host : Endian} {rest : List UInt8}

section

variable (host : Endian) (v : BitVec 32) (flag : UInt8)

theorem writes_string_varint {s : List UInt8} (h : s.length < 2 ^ 53) :
    Writes e (writeString host .varint s) (stringBytes s) := by
  have hlt : s.length < 2 ^ 64 := by omega
  have hlen : writeLen host .varint s.length = writeVaruint 10 s.length :=
    congrArg (writeVaruint 10) (toNat_ofNat64 hlt)
  refine writes_string ?_ h
  rw [hlen]
  exact writes_varuint le_rfl (varuintBytes_ten hlt)

theorem reads_string_varint {s : List UInt8} (h : s.length < 2 ^ 64) :
    Reads e (readString host .varint) (stringBytes s) s := by
  refine reads_string ?_
  have hbs := varuintBytes_ten h
  rw [← toNat_ofNat64 h] at hbs
  have hr := ((reads_varuint_all (e := e) (w := 64) hbs).map fun u => u.setWidth Width.w64.bits).map BitVec.toNat
  have hval : (((BitVec.ofNat 64 s.length).setWidth 64).setWidth Width.w64.bits).toNat = s.length := toNat_ofNat64 h
  rw [hval, toNat_ofNat64 h] at hr
  exact hr

theorem length_stringBytes (s : List UInt8) : s.length ≤ (stringBytes s).length := by
  rw [stringBytes, length_append]
  omega

theorem writes_word : Writes e (writeInt host .w32 v) (memory e 4 v.toNat) := writes_int e host .w32 v

theorem reads_word : Reads .big (readInt host .w32) (wordBytes v) v := reads_int .big host .w32 v

section

variable (h : (encode msg).length < 2 ^ 53)
include h

theorem fields_codec : Writes .big (serializeFields host msg) (encode msg) ∧
    ∃ m, parseFields host msg.getType = (seek 0 >>= fun _ => m) ∧ Reads .big m (encode msg) msg := by
  cases msg with
  | request sn cmd body =>
    simp only [encode, length_append] at h
    have hbody := length_stringBytes body
    refine ⟨(writes_word host sn).append ((writes_word host cmd).append (writes_string_varint host (by omega))), _,
      rfl, ?_⟩
    refine (reads_word host sn).bind ((reads_word host cmd).bind ?_)
    exact (reads_string_varint host (s := body) (by omega)).map (Message.request sn cmd)
  | response sn cmd result resultStr body =>
    simp only [encode, length_append] at h
    have hstr := length_stringBytes resultStr
    have hbody := length_stringBytes body
    refine ⟨(writes_word host sn).append ((writes_word host cmd).append ((writes_word host result).append
      ((writes_string_varint host (by omega)).append (writes_string_varint host (by omega))))), _, rfl, ?_⟩
    refine (reads_word host sn).bind ((reads_word host cmd).bind ((reads_word host result).bind
      ((reads_string_varint host (by omega)).bind ?_)))
    exact (reads_string_varint host (s := body) (by omega)).map (Message.response sn cmd result resultStr)
  | notify notify body =>
    simp only [encode, length_append] at h
    have hbody := length_stringBytes body
    refine ⟨(writes_word host notify).append (writes_string_varint host (by omega)), _, rfl, ?_⟩
    exact (reads_word host notify).bind ((reads_string_varint host (s := body) (by omega)).map (Message.notify notify))

theorem toByteArray_holds :
    ∃ ba, toByteArray host msg = .ok (some ba) ∧ Holds .big ba (encode msg) [] := by
  obtain ⟨ba, h1, hb⟩ := (fields_codec host h).1 (make 4096) [] (holds_make (by norm_num))
  exact ⟨ba, by simp only [toByteArray, serializeToByteArray, attempt, h1], hb⟩

theorem parseFields_reads {past : List UInt8} (hb : Holds .big b past rest)
    (hbytes : past ++ rest = encode msg) : ∃ b', parseFields host msg.getType b = .ok (msg, b') := by
  obtain ⟨b0, h0, hb0⟩ := hb.rewind
  rw [hbytes] at hb0
  obtain ⟨m, hm, hreads⟩ := (fields_codec host h).2
  obtain ⟨b', h1, -⟩ := hreads b0 [] [] (by rwa [append_nil])
  refine ⟨b', ?_⟩
  calc parseFields host msg.getType b = (seek 0 b >>= fun r => m r.2) := congrFun hm b
    _ = .ok (msg, b') := by simp only [seek, h0]; exact h1

end

/-! ## Headers -/

/-- the header of a frame, with the length of what follows -/
def headerBytes (n : ℕ) : List UInt8 := [0xab, 0xcd, 1, flag] ++ memory .big 4 n

@[simp] theorem length_headerBytes (n : ℕ) : (headerBytes flag n).length = 8 := by simp [headerBytes]

theorem memory_byteswapOnLittleEndian :
    memory host 4 (byteswapOnLittleEndian host v).toNat = memory .big 4 v.toNat := by
  cases host with
  | big => rfl
  | little =>
    have hlt : byteswap 4 v.toNat < 2 ^ 32 := byteswap_lt 4 v.toNat
    rw [byteswapOnLittleEndian, BitVec.toNat_ofNat, mod_eq_of_lt hlt]
    exact memory_byteswap (by decide) 4 v.toNat

theorem byteswapOnLittleEndian_load :
    byteswapOnLittleEndian host (BitVec.ofNat 32 (load host (memory .big 4 v.toNat))) = v := by
  have hv : v.toNat < 256 ^ 4 := v.isLt
  apply BitVec.eq_of_toNat_eq
  cases host with
  | big => rw [byteswapOnLittleEndian, load_memory .big hv, BitVec.toNat_ofNat, mod_eq_of_lt v.isLt]
  | little =>
    have hlt : byteswap 4 v.toNat < 256 ^ 4 := byteswap_lt 4 v.toNat
    have hload : load .little (memory .big 4 v.toNat) = byteswap 4 v.toNat := by
      rw [← memory_byteswap (show Endian.big ≠ Endian.little by decide), load_memory .little hlt]
    rw [byteswapOnLittleEndian, hload, BitVec.toNat_ofNat, BitVec.toNat_ofNat, mod_eq_of_lt (show _ < 2 ^ 32 from hlt),
      byteswap_byteswap hv, mod_eq_of_lt v.isLt]

theorem bytes_header (v : BitVec 32) :
    ({ Header.make with flag := flag, length := byteswapOnLittleEndian host v } : Header).bytes host =
      headerBytes flag v.toNat := by
  simp only [Header.bytes, Header.make, headerBytes, memory_byteswapOnLittleEndian]

theorem ofBytes_header (v : BitVec 32) :
    ∃ length, Header.ofBytes host (headerBytes flag v.toNat) = ⟨(0xab, 0xcd), 1, flag, length⟩ ∧
      byteswapOnLittleEndian host length = v :=
  ⟨_, rfl, byteswapOnLittleEndian_load host v⟩

end

/-! ## Frames on a stream -/

section Frames

variable (cfg : Config) {net : Net} (gz : Gzip) (host : Endian)

theorem sendFrame_delivers (hnet : ¬ net.Fails) {ba : ByteArray} {past : List UInt8}
    (h : Holds e ba past rest) (hlen : rest.length < 2 ^ 63) (flag : UInt8) (s : Socket) :
    ∃ s', sendFrame host net flag ba s =
        .ok (if castInt rest.length ≤ 0 then -4 else castInt (8 + (past.length + rest.length)), s') ∧
      s'.sent = s.sent ++ (headerBytes flag (BitVec.ofNat 32 (past.length + rest.length)).toNat ++ rest) := by
  obtain ⟨left, s1, hw, hs1, -⟩ := writeFixSize_delivers hnet
    (show (headerBytes flag (BitVec.ofNat 32 (past.length + rest.length)).toNat).length <
      2 ^ 31 by rw [length_headerBytes]; norm_num) s
  obtain ⟨b2, s2, hw2, hb2, hs2⟩ := writeFixSizeArray_delivers hnet h hlen s1
  have hsize : b2.size = past.length + rest.length := by rw [hb2.size]; simp
  have h8 : ¬ (((headerBytes flag (BitVec.ofNat 32 (past.length + rest.length)).toNat).length : ℤ) ≤ 0) := by norm_num
  refine ⟨s2, ?_, ?_⟩
  · simp only [sendFrame, bytes_header, h.size, h.getReadSize, hw, hw2, bind, Except.bind, if_neg h8]
    split_ifs with hneg
    · rfl
    · rw [hsize]
      rfl
  · rw [hs2, hs1, append_assoc]

theorem castInt_signExtend (v : BitVec 32) : castInt (v.signExtend 64).toNat = v.toInt := by
  rw [castInt, BitVec.ofNat_toNat, setWidth_signExtend (by norm_num)]

theorem castInt64_signExtend (v : BitVec 32) : castInt64 (v.signExtend 64).toNat = v.toInt.toNat := by
  rw [castInt64, BitVec.ofNat_toNat, BitVec.setWidth_eq, BitVec.toInt_signExtend_of_le (by norm_num)]

theorem receiveBody_header (hnet : ¬ net.Fails) {flag : UInt8} {v : BitVec 32} {bs : List UInt8} {s : Socket}
    (hin : s.incoming = headerBytes flag v.toNat ++ bs) :
    ∃ s1, s1.incoming = bs ∧ receiveBody cfg host net gz s =
      if v.toNat ≥ cfg.maxLength.toNat then .ok (none, s1)
      else do
        let (ret, ba, s) ← readFixSizeArray net (v.signExtend 64).toNat (make 4096) s1
        if ret ≤ 0 then return (none, s)
        let ba ← ba.setPosition 0
        if flag &&& 1 ≠ 0 then return (← gunzip gz ba, s)
        return (some ba, s) := by
  have h8 := length_headerBytes flag v.toNat
  obtain ⟨s1, hread, hs1⟩ :=
    readFixSize_delivers hnet (show 8 < 2 ^ 31 by norm_num) (s := s) (by rw [hin, length_append]; omega)
  obtain ⟨length, hheader, hlength⟩ := ofBytes_header host flag v
  have htake : s.incoming.take 8 = headerBytes flag v.toNat := by rw [hin, ← h8, take_left]
  have hdrop : s.incoming.drop 8 = bs := by rw [hin, ← h8, drop_left]
  refine ⟨s1, by rw [hs1, hdrop], ?_⟩
  simp only [receiveBody, hread, htake, hheader, hlength, bind, Except.bind]
  rfl

theorem receiveBody_frame (hnet : ¬ net.Fails) {flag : UInt8} {bs : List UInt8} (hpos : 0 < bs.length)
    (hlen : bs.length < 2 ^ 31) (hmax : bs.length < cfg.maxLength.toNat) {s : Socket}
    (hin : s.incoming = headerBytes flag (BitVec.ofNat 32 bs.length).toNat ++ (bs ++ rest)) :
    ∃ ba s', Holds .big ba [] bs ∧ s'.incoming = rest ∧ receiveBody cfg host net gz s =
      if flag &&& 1 ≠ 0 then (gunzip gz ba).map fun r => (r, s') else .ok (some ba, s') := by
  have hv : (BitVec.ofNat 32 bs.length).toNat = bs.length := by rw [BitVec.toNat_ofNat, mod_eq_of_lt (by omega)]
  have hsize : ((BitVec.ofNat 32 bs.length).signExtend 64).toNat = bs.length := by
    rw [BitVec.signExtend_eq_setWidth_of_msb_false (by rw [BitVec.msb_eq_decide, hv]; simpa using hlen),
      BitVec.toNat_setWidth, hv,
      mod_eq_of_lt (by omega)]
  obtain ⟨s1, hs1, hrun⟩ := receiveBody_header cfg gz host hnet hin
  obtain ⟨ba, s2, hread, hba, hs2⟩ :=
    readFixSizeArray_delivers hnet (show 0 < 4096 by norm_num) (show bs.length < 2 ^ 53 by omega)
    (s := s1) (by rw [hs1, length_append]; omega)
  rw [hs1, take_left] at hba
  rw [hs1, drop_left] at hs2
  obtain ⟨ba0, hset, hba0⟩ := hba.rewind
  rw [append_nil] at hba0
  have hret : ¬ castInt bs.length ≤ 0 := by rw [castInt_eq hlen]; omega
  refine ⟨ba0, s2, hba0, hs2, ?_⟩
  rw [hrun, if_neg (by omega), hsize, hread]
  simp only [bind, Except.bind, if_neg hret, hset]
  split_ifs
  · cases gunzip gz ba0 <;> rfl
  · rfl

theorem receiveBody_rejects (hnet : ¬ net.Fails) {flag : UInt8} {v : BitVec 32} {bs : List UInt8}
    (hlong : cfg.maxLength.toNat ≤ v.toNat ∨ 2 ^ 31 ≤ v.toNat) {s : Socket}
    (hin : s.incoming = headerBytes flag v.toNat ++ bs) : ∃ s', receiveBody cfg host net gz s = .ok (none, s') := by
  obtain ⟨s1, -, hrun⟩ := receiveBody_header cfg gz host hnet hin
  by_cases hmax : v.toNat ≥ cfg.maxLength.toNat
  · exact ⟨s1, by rw [hrun, if_pos hmax]⟩
  -- the length is negative: nothing is read
  have hneg : v.toInt < 0 := by
    rw [BitVec.toInt_eq_toNat_cond]
    omega
  have hread : readFixSizeArray net (v.signExtend 64).toNat (make 4096) s1 = .ok (v.toInt, make 4096, s1) := by
    rw [readFixSizeArray, fixSize, castInt_signExtend, castInt64_signExtend, Int.toNat_of_nonpos hneg.le]
    rfl
  refine ⟨s1, ?_⟩
  rw [hrun, if_neg hmax, hread]
  simp only [bind, Except.bind, if_pos hneg.le]
  rfl

end Frames

/-! ## The type of a message -/

theorem bind_ok {α β : Type} {m : Action α} {k : α → Action β} {r : β × ByteArray} (h : (m >>= k) b = .ok r) :
    ∃ a b1, m b = .ok (a, b1) ∧ k a b1 = .ok r := by
  cases hm : m b with
  | error e =>
    rw [bind_of_error hm] at h
    cases h
  | ok r1 =>
    refine ⟨r1.1, r1.2, rfl, ?_⟩
    calc k r1.1 r1.2 = (m b >>= fun r => k r.1 r.2) := by rw [hm]; rfl
      _ = .ok r := h

theorem pure_ok {α : Type} {a a' : α} (h : (pure a : Action α) b = .ok (a', b')) : a = a' :=
  congrArg Prod.fst (Except.ok.inj h)

/-- what every value of an action has -/
def Ensures {α : Type} (m : Action α) (P : α → Prop) : Prop := ∀ b b' a, m b = .ok (a, b') → P a

theorem ensures_bind {α β : Type} {m : Action α} {k : α → Action β} {P : β → Prop} (h : ∀ a, Ensures (k a) P) :
    Ensures (m >>= k) P :=
  fun _ _ _ hr => by
    obtain ⟨a, b1, -, hk⟩ := bind_ok hr
    exact h a _ _ _ hk

theorem ensures_pure {α : Type} {a : α} {P : α → Prop} (h : P a) : Ensures (pure a) P := fun _ _ _ hr => pure_ok hr ▸ h

theorem parseFields_type (host : Endian) (t : MessageType) :
    Ensures (parseFields host t) fun msg => msg.getType = t := by
  cases t with
  | request | response | notify =>
    repeat refine ensures_bind fun _ => ?_
    exact ensures_pure rfl

theorem parseFromByteArray_type {t : MessageType} (h : parseFromByteArray host t b = .ok (some msg, b')) :
    msg.getType = t := by
  unfold parseFromByteArray attempt at h
  split at h
  · next a b1 hfields =>
    cases h
    exact parseFields_type host t _ _ _ hfields
  · cases h
  · cases h

theorem parseMessage_type (h : parseMessage host b = .ok (some msg, b')) :
    ∃ t b1, readInt host .w8 b = .ok (t, b1) ∧ t.toNat = msg.getType.code := by
  obtain ⟨t, b1, hread, h⟩ := bind_ok h
  refine ⟨t, b1, hread, ?_⟩
  split_ifs at h with h1 h2 h3
  · rw [h1, parseFromByteArray_type h]
  · rw [h2, parseFromByteArray_type h]
  · rw [h3, parseFromByteArray_type h]
  · cases pure_ok h

theorem parseMessage_eq {t : BitVec Width.w8.bits} {u : MessageType} {b1 : ByteArray}
    (hread : readInt host .w8 b = .ok (t, b1)) (ht : t.toNat = u.code) :
    parseMessage host b = parseFromByteArray host u b1 := by
  rw [parseMessage, bind_of_ok hread, ht]
  cases u <;> rfl

/-- the first field: the serial number or the notification number -/
def Message.first : Message → BitVec 32
  | .request sn .. => sn
  | .response sn .. => sn
  | .notify id _ => id

section

variable (msg : Message)

/-- its highest byte, which `parseFrom` takes for the type -/
def Message.lead : ℕ := msg.first.toNat / 2 ^ 24

theorem lead_lt : msg.lead < 256 := by
  unfold Message.lead
  omega

theorem encode_lead : ∃ tail, encode msg = memory .big 1 msg.lead ++ tail := by
  have hword : ∀ v : BitVec 32, ∃ tail, wordBytes v = memory .big 1 (v.toNat / 2 ^ 24) ++ tail := by
    intro v
    have hdiv : v.toNat / 256 / 256 / 256 = v.toNat / 2 ^ 24 := by omega
    refine ⟨[UInt8.ofNat (v.toNat / 256 / 256), UInt8.ofNat (v.toNat / 256), UInt8.ofNat v.toNat], ?_⟩
    rw [← hdiv]
    rfl
  obtain ⟨tail, htail⟩ := hword msg.first
  have hfirst : ∃ more, encode msg = wordBytes msg.first ++ more := by
    cases msg with
    | request sn cmd body | response sn cmd result resultStr body | notify notify body => exact ⟨_, rfl⟩
  obtain ⟨more, hmore⟩ := hfirst
  exact ⟨tail ++ more, by rw [hmore, htail]; rfl⟩

theorem encode_pos : 0 < (encode msg).length := by
  obtain ⟨tail, h⟩ := encode_lead msg
  rw [h, length_append, length_memory]
  omega

end

theorem readInt_lead (host : Endian) (h : Holds .big b [] (encode msg)) :
    ∃ t b1 past rest, readInt host .w8 b = .ok (t, b1) ∧ t.toNat = msg.lead ∧ Holds .big b1 past rest ∧
      past ++ rest = encode msg := by
  obtain ⟨tail, htail⟩ := encode_lead msg
  have hlt : msg.lead < 2 ^ Width.w8.bits := lead_lt msg
  have ht : (BitVec.ofNat Width.w8.bits msg.lead).toNat = msg.lead := by rw [BitVec.toNat_ofNat, mod_eq_of_lt hlt]
  have hr := reads_int .big host .w8 (BitVec.ofNat Width.w8.bits msg.lead)
  rw [ht] at hr
  rw [htail] at h ⊢
  obtain ⟨b1, h1, hb1⟩ := hr b [] tail h
  exact ⟨_, b1, _, tail, h1, ht, hb1, rfl⟩

/-! ## Round trips -/

section RoundTrip

variable (cfg : Config) (host host' : Endian) (net net' : Net) (gz : Gzip)

/-- the bytes that `serializeTo` sends, with `rest` behind them on the stream of the receiver, are parsed to the same
message, and `rest` is left -/
def ComesBack (msg : Message) (s t : Socket) (rest : List UInt8) : Prop :=
  ∃ ret s' frame t', serializeTo cfg host net gz msg s = .ok (ret, s') ∧ s'.sent = s.sent ++ frame ∧
    parseFrom cfg host' net' gz { t with incoming := frame ++ rest } = .ok (some msg, t') ∧ t'.incoming = rest

/-- `serializeTo` for one message after the other; what it returns is not looked at -/
def sendAll : List Message → Socket → Except Fault Socket
  | [], s => .ok s
  | msg :: msgs, s => do sendAll msgs (← serializeTo cfg host net gz msg s).2

/-- `parseFrom`, `n` times -/
def receiveAll : ℕ → Socket → Except Fault (List (Option Message) × Socket)
  | 0, s => .ok ([], s)
  | n + 1, s => do
    let (msg, s) ← parseFrom cfg host net gz s
    let (msgs, s) ← receiveAll n s
    return (msg :: msgs, s)

/-- what is sent for the messages is received as these messages, in their order and with nothing of the rest -/
def InOrder (msgs : List Message) (s : Socket) : Prop :=
  ∃ s' bytes, sendAll cfg host net gz msgs s = .ok s' ∧ s'.sent = s.sent ++ bytes ∧
  ∀ t rest, t.incoming = bytes ++ rest →
    ∃ t', receiveAll cfg host' net' gz msgs.length t = .ok (msgs.map some, t') ∧ t'.incoming = rest

variable {cfg} {net} {net'}

/-- the frame of a message that is not compressed -/
def frame (msg : Message) : List UInt8 := headerBytes 0 (BitVec.ofNat 32 (encode msg).length).toNat ++ encode msg

theorem serializeTo_plain (hnet : ¬ net.Fails) (hsmall : (encode msg).length < cfg.gzipMinLength.toNat) (s : Socket) :
    ∃ ret s', serializeTo cfg host net gz msg s = .ok (ret, s') ∧ s'.sent = s.sent ++ frame msg := by
  obtain ⟨ba, hto, hba⟩ := toByteArray_holds host (show (encode msg).length < 2 ^ 53 by omega)
  obtain ⟨ba0, hset, hba0⟩ := hba.rewind
  rw [append_nil] at hba0
  obtain ⟨s', hsend, hsent⟩ := sendFrame_delivers host hnet hba0 (by omega) 0 s
  have hsize : ba0.size = (encode msg).length := by rw [hba0.size]; simp
  have hv : (BitVec.ofNat 32 ba0.size).toNat = (encode msg).length := by
    rw [hsize, BitVec.toNat_ofNat, mod_eq_of_lt (by omega)]
  rw [length_nil, Nat.zero_add] at hsend hsent
  refine ⟨if castInt (encode msg).length ≤ 0 then -4 else castInt (8 + (encode msg).length), s', ?_, hsent⟩
  simp only [serializeTo, hto, hset, bind, Except.bind, hv, if_neg (not_le.2 hsmall)]
  exact hsend

theorem parseFrom_eq {s s' : Socket} {ba : ByteArray} (h : receiveBody cfg host net gz s = .ok (some ba, s')) :
    parseFrom cfg host net gz s =
      match parseMessage host ba with
      | .ok (msg, _) => .ok (msg, s')
      | .error .outOfRange => .ok (none, s')
      | .error e => .error e := by
  simp only [parseFrom, h, bind, Except.bind]
  rfl

theorem lead_of_comesBack (hnet : ¬ net.Fails) (hnet' : ¬ net'.Fails)
    (hsmall : (encode msg).length < cfg.gzipMinLength.toNat) {s t : Socket}
    (h : ComesBack cfg host host' net net' gz msg s t rest) :
    msg.lead = msg.getType.code ∧ (encode msg).length < cfg.maxLength.toNat ∧ (encode msg).length < 2 ^ 31 := by
  have hv : (BitVec.ofNat 32 (encode msg).length).toNat = (encode msg).length := by
    rw [BitVec.toNat_ofNat, mod_eq_of_lt (by omega)]
  obtain ⟨ret, s', hser, hsent⟩ := serializeTo_plain host gz hnet hsmall s
  obtain ⟨ret', s'', bs, t', hser', hsent', hparse, -⟩ := h
  cases hser.symm.trans hser'
  obtain rfl : frame msg = bs := append_cancel_left (hsent.symm.trans hsent')
  by_cases hlong : cfg.maxLength.toNat ≤ (encode msg).length ∨ 2 ^ 31 ≤ (encode msg).length
  · -- the receiver gives up before the body
    obtain ⟨t1, hrecv⟩ := receiveBody_rejects cfg gz host' hnet' (by rw [hv]; exact hlong)
      (s := { t with incoming := frame msg ++ rest }) (append_assoc _ _ _)
    simp only [parseFrom, hrecv, bind, Except.bind] at hparse
    cases hparse
  · refine ⟨?_, by omega, by omega⟩
    obtain ⟨ba, t1, hba, -, hrecv⟩ := receiveBody_frame cfg gz host' hnet' (encode_pos msg) (by omega) (by omega)
      (s := { t with incoming := frame msg ++ rest }) (append_assoc _ _ _)
    rw [parseFrom_eq host' gz hrecv] at hparse
    obtain ⟨u, b1, past, rest', hlead, hu, -⟩ := readInt_lead host' hba
    split at hparse
    · next msg' b' hmsg =>
      cases hparse
      obtain ⟨u', b1', hread, hcode⟩ := parseMessage_type hmsg
      cases hlead.symm.trans hread
      rw [← hu, hcode]
    · cases hparse
    · cases hparse

theorem comesBack_of_lead (hnet : ¬ net.Fails) (hnet' : ¬ net'.Fails)
    (hsmall : (encode msg).length < cfg.gzipMinLength.toNat) (hlead : msg.lead = msg.getType.code)
    (hmax : (encode msg).length < cfg.maxLength.toNat) (h31 : (encode msg).length < 2 ^ 31) (s t : Socket)
    (rest : List UInt8) : ComesBack cfg host host' net net' gz msg s t rest := by
  obtain ⟨ret, s', hser, hsent⟩ := serializeTo_plain host gz hnet hsmall s
  obtain ⟨ba, t', hba, hrest, hrecv⟩ := receiveBody_frame cfg gz host' hnet' (encode_pos msg) h31 hmax
    (s := { t with incoming := frame msg ++ rest }) (append_assoc _ _ _)
  obtain ⟨u, b1, past, rest', hread, hu, hb1, hbytes⟩ := readInt_lead host' hba
  obtain ⟨b2, hfields⟩ := parseFields_reads host' (by omega) hb1 hbytes
  refine ⟨ret, s', _, t', hser, hsent, ?_, hrest⟩
  rw [parseFrom_eq host' gz hrecv, parseMessage_eq hread (hu.trans hlead)]
  simp only [parseFromByteArray, attempt, hfields]

/-- **A message comes back exactly when the highest byte of its first field is its type.** -/
theorem frame_roundtrip_iff (hnet : ¬ net.Fails) (hnet' : ¬ net'.Fails) (msg : Message)
    (hsmall : (encode msg).length < cfg.gzipMinLength.toNat) (s t : Socket) (rest : List UInt8) :
    ComesBack cfg host host' net net' gz msg s t rest ↔
      msg.lead = msg.getType.code ∧ (encode msg).length < cfg.maxLength.toNat ∧ (encode msg).length < 2 ^ 31 := by
  constructor
  · intro h
    exact lead_of_comesBack host host' gz hnet hnet' hsmall h
  · rintro ⟨hlead, hmax, h31⟩
    exact comesBack_of_lead host host' gz hnet hnet' hsmall hlead hmax h31 s t rest

/-- **Messages in order.** -/
theorem messages_in_order (hnet : ¬ net.Fails) (hnet' : ¬ net'.Fails) (msgs : List Message)
    (hmsgs : ∀ msg ∈ msgs, msg.lead = msg.getType.code ∧ (encode msg).length < cfg.gzipMinLength.toNat ∧
      (encode msg).length < cfg.maxLength.toNat ∧ (encode msg).length < 2 ^ 31) (s : Socket) :
    InOrder cfg host host' net net' gz msgs s := by
  induction msgs generalizing s with
  | nil => exact ⟨s, [], rfl, by simp, fun t rest ht => ⟨t, rfl, ht⟩⟩
  | cons msg msgs ih =>
    obtain ⟨⟨hlead, hsmall, hmax, h31⟩, hmsgs⟩ := forall_mem_cons.1 hmsgs
    obtain ⟨ret, s₁, hser, hsent⟩ := serializeTo_plain host gz hnet hsmall s
    obtain ⟨s', bytes, hall, hsent', hreceive⟩ := ih hmsgs s₁
    refine ⟨s', frame msg ++ bytes, ?_, by rw [hsent', hsent, append_assoc], fun t rest ht => ?_⟩
    · simp only [sendAll, hser, bind, Except.bind, hall]
    -- the first frame with the other frames and the rest behind it
    obtain ⟨ret', s₂, bs, t₁, hser', hsent₂, hparse, hrest⟩ :=
      comesBack_of_lead host host' gz hnet hnet' hsmall hlead hmax h31 s t (bytes ++ rest)
    cases hser.symm.trans hser'
    obtain rfl : frame msg = bs := append_cancel_left (hsent.symm.trans hsent₂)
    obtain ⟨t', hmore, hdone⟩ := hreceive t₁ rest hrest
    rw [← append_assoc, ← ht] at hparse
    refine ⟨t', ?_, hdone⟩
    simp only [receiveAll, length_cons, map_cons, hparse, bind, Except.bind, hmore]
    rfl

end RoundTrip

/-- three bytes a call -/
def threeBytes : Net := ⟨fun _ => true, fun _ => 3⟩

theorem threeBytes_works : ¬ threeBytes.Fails := by
  rintro ⟨i, h | h⟩
  · cases h
  · exact absurd h (show ¬ (3 : ℤ) ≤ 0 by decide)

/-- no compression -/
def noGzip : Gzip := ⟨⟨Unit, (), fun _ _ _ => none⟩, ⟨Unit, (), fun _ _ _ => none⟩⟩

theorem frame_roundtrip_lead_one : ComesBack Config.default .little .big threeBytes threeBytes noGzip
    (.request 0x01000007#32 3#32 [104, 105]) ⟨[], [], 0⟩ ⟨[], [], 0⟩ [1, 2] :=
  (frame_roundtrip_iff .little .big noGzip threeBytes_works threeBytes_works _ (by decide) _ _ _).2 (by decide)

theorem messages_in_order_two : InOrder Config.default .little .big threeBytes threeBytes noGzip
    [.request 0x01000007#32 3#32 [104, 105], .notify 0x03000001#32 []] ⟨[], [], 0⟩ :=
  messages_in_order .little .big noGzip threeBytes_works threeBytes_works _ (by decide) _

theorem request_lost : (encode (.request 2#32 3#32 [104, 105])).length < Config.default.gzipMinLength.toNat ∧
    ¬ ComesBack Config.default .little .little threeBytes threeBytes noGzip (.request 2#32 3#32 [104, 105])
      ⟨[], [], 0⟩ ⟨[], [], 0⟩ [] := by
  refine ⟨by decide, fun h => ?_⟩
  have := (lead_of_comesBack .little .little noGzip threeBytes_works threeBytes_works (by decide) h).1
  exact absurd this (by decide)

end CoServer.Rock
