/-
The rock protocol (`rock_protocol.cpp`, `protocol.cpp`): requests, responses and notifications as bytes, and their
frames on a stream.

The frame is a header of eight bytes with the length of what follows. Encodings of at least `gzip_min_length` bytes are
compressed. `RockRequest`, `RockResponse` and `RockNotify` are the constructors of `Message`. An exception is
`std::out_of_range` (`Fault.outOfRange`), and `catch(...)` turns it into a failure; the other faults are not caught.
-/
import CoServer.ByteArray.Typed
import CoServer.Stream.SocketStream
import CoServer.Stream.ZlibStream

namespace CoServer.Rock

open CoServer.ByteArray
open CoServer.Stream

inductive Message where
  | request (sn cmd : BitVec 32) (body : List UInt8)
  | response (sn cmd result : BitVec 32) (resultStr body : List UInt8)
  | notify (notify : BitVec 32) (body : List UInt8)
deriving DecidableEq

/-- `Message::MessageType` -/
inductive MessageType where
  | request
  | response
  | notify
deriving DecidableEq

def MessageType.code : MessageType → ℕ
  | .request => 1
  | .response => 2
  | .notify => 3

def Message.getType : Message → MessageType
  | .request .. => .request
  | .response .. => .response
  | .notify .. => .notify

/-- the configuration variables of the protocol -/
structure Config where
  maxLength : BitVec 32
  gzipMinLength : BitVec 32

def Config.default : Config := ⟨BitVec.ofNat 32 (1024 * 1024 * 64), BitVec.ofNat 32 (1024 * 4)⟩

/-! ## Messages -/

/-- `try { … return true; } catch(...) { return false; }`; what the buffer is then is not used -/
def attempt {α : Type} (m : Action α) : Action (Option α) := fun b =>
  match m b with
  | .ok (a, b') => .ok (some a, b')
  | .error .outOfRange => .ok (none, b)
  | .error e => .error e

def seek (v : ℕ) : Action Unit := fun b =>
  match b.setPosition v with
  | .ok b' => .ok ((), b')
  | .error e => .error e

section

variable (host : Endian)

/-- the fields of the base class, then `RockBody` -/
def serializeFields : Message → Action Unit
  | .request sn cmd body => do
    writeInt host .w32 sn
    writeInt host .w32 cmd
    writeString host .varint body
  | .response sn cmd result resultStr body => do
    writeInt host .w32 sn
    writeInt host .w32 cmd
    writeInt host .w32 result
    writeString host .varint resultStr
    writeString host .varint body
  | .notify notify body => do
    writeInt host .w32 notify
    writeString host .varint body

def serializeToByteArray (msg : Message) : Action (Option Unit) := attempt (serializeFields host msg)

/-- `parseFromByteArray` of the base class starts over at 0 -/
def parseFields : MessageType → Action Message
  | .request => do
    seek 0
    let sn ← readInt host .w32
    let cmd ← readInt host .w32
    let body ← readString host .varint
    return .request sn cmd body
  | .response => do
    seek 0
    let sn ← readInt host .w32
    let cmd ← readInt host .w32
    let result ← readInt host .w32
    let resultStr ← readString host .varint
    let body ← readString host .varint
    return .response sn cmd result resultStr body
  | .notify => do
    seek 0
    let notify ← readInt host .w32
    let body ← readString host .varint
    return .notify notify body

def parseFromByteArray (t : MessageType) : Action (Option Message) := attempt (parseFields host t)

/-- `new ByteArray` has chunks of 4096 bytes; none for `nullptr` -/
def toByteArray (msg : Message) : Except Fault (Option ByteArray) :=
  match serializeToByteArray host msg (make 4096) with
  | .error e => .error e
  | .ok (none, _) => .ok none
  | .ok (some (), ba) => .ok (some ba)

/-! ## Headers -/

/-- `RockMsgHeader`; the length as it is in memory -/
structure Header where
  magic : UInt8 × UInt8
  version : UInt8
  flag : UInt8
  length : BitVec 32
deriving DecidableEq

def Header.make : Header := ⟨(0xab, 0xcd), 1, 0, 0⟩

/-- the eight bytes of the structure in the memory of the host -/
def Header.bytes (h : Header) : List UInt8 := [h.magic.1, h.magic.2, h.version, h.flag] ++ memory host 4 h.length.toNat

def Header.ofBytes (bs : List UInt8) : Header :=
  ⟨(bs.getD 0 0, bs.getD 1 0), bs.getD 2 0, bs.getD 3 0, BitVec.ofNat 32 (load host (bs.drop 4))⟩

def byteswapOnLittleEndian (v : BitVec 32) : BitVec 32 :=
  match host with
  | .little => BitVec.ofNat 32 (byteswap 4 v.toNat)
  | .big => v

end

/-! ## `RockMessageDecoder` -/

/-- `deflate` and `inflate` -/
structure Gzip where
  deflate : Zlib
  inflate : Zlib

variable (cfg : Config) (host : Endian) (net : Net) (gz : Gzip)

/-- `uint8_t type = ba->read<uint8_t>()` and the rest of `parseFrom` -/
def parseMessage : Action (Option Message) := do
  let type ← readInt host .w8
  if type.toNat = MessageType.request.code then parseFromByteArray host .request
  else if type.toNat = MessageType.response.code then parseFromByteArray host .response
  else if type.toNat = MessageType.notify.code then parseFromByteArray host .notify
  else return none

/-- the array after `ba = zstream->getByteArray()`; none where `parseFrom` returns `nullptr` -/
def gunzip (ba : ByteArray) : Except Fault (Option ByteArray) := do
  match ← (ZlibStream.create gz.inflate).write ba with
  | none => return none
  | some zstream =>
    match zstream.flush with
    | none => return none
    | some zstream => return some (← zstream.getByteArray)

/-- `parseFrom` up to the array that is handed to the parsing of the message; none where it returns `nullptr` -/
def receiveBody (s : Socket) : Except Fault (Option ByteArray × Socket) := do
  let (ret, bs, s) ← readFixSize net 8 s
  if ret ≤ 0 then return (none, s)
  let header := Header.ofBytes host bs
  if header.magic ≠ (0xab, 0xcd) then return (none, s)
  if header.version ≠ 1 then return (none, s)
  let length := byteswapOnLittleEndian host header.length
  if length.toNat ≥ cfg.maxLength.toNat then return (none, s)
  let (ret, ba, s) ← readFixSizeArray net (length.signExtend 64).toNat (make 4096) s
  if ret ≤ 0 then return (none, s)
  let ba ← ba.setPosition 0
  if header.flag &&& 1 ≠ 0 then return (← gunzip gz ba, s)
  return (some ba, s)

def parseFrom (s : Socket) : Except Fault (Option Message × Socket) := do
  match ← receiveBody cfg host net gz s with
  | (none, s) => return (none, s)
  | (some ba, s) =>
    match parseMessage host ba with
    | .ok (msg, _) => return (msg, s)
    | .error .outOfRange => return (none, s)
    | .error e => throw e

/-- the header and the array of a compressed encoding, or what `serializeTo` returns -/
def compress (ba : ByteArray) : Except Fault (ℤ ⊕ ByteArray) := do
  match ← (ZlibStream.create gz.deflate).write ba with
  | none => return .inl (-1)
  | some zstream =>
    match zstream.flush with
    | none => return .inl (-2)
    | some zstream => return .inr (← zstream.getByteArray)

/-- the header and the array to the stream -/
def sendFrame (flag : UInt8) (ba : ByteArray) (s : Socket) : Except Fault (ℤ × Socket) := do
  let header := { Header.make with flag := flag, length := byteswapOnLittleEndian host (BitVec.ofNat 32 ba.size) }
  let (ret, _, s) ← writeFixSize net (header.bytes host) s
  if ret ≤ 0 then return (-3, s)
  let (ret, ba, s) ← writeFixSizeArray net ba.getReadSize ba s
  if ret ≤ 0 then return (-4, s)
  return (castInt (8 + ba.size), s)

def serializeTo (msg : Message) (s : Socket) : Except Fault (ℤ × Socket) := do
  match ← toByteArray host msg with
  | none => throw .nullNode
  | some ba =>
    let ba ← ba.setPosition 0
    if (BitVec.ofNat 32 ba.size).toNat ≥ cfg.gzipMinLength.toNat then
      match ← compress gz ba with
      | .inl ret => return (ret, s)
      | .inr ba => sendFrame host net 1 ba s
    else sendFrame host net 0 ba s

end CoServer.Rock
