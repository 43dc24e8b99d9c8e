/-
`SocketStream` (`socket_stream.cpp`) and the loops of `Stream` (`stream.cpp`) over it: reads and writes of a fixed size,
from and to memory or a `ByteArray`.

`Net` says for each system call whether the socket is connected and what the call returns at most. An answer that is not
positive is returned as it is; any other is a short count, cut to what was asked for and to the bytes there are. At the
end of the stream a read returns 0.
-/
import CoServer.ByteArray.Buffers
import CoServer.Core.Transfer

namespace CoServer.Stream

open CoServer.Core
open CoServer.ByteArray (Fault total gather)

/-- what the system does at each call -/
structure Net where
  connected : ℕ → Bool
  answer : ℕ → ℤ

structure Socket where
  /-- sent by the peer and not yet received -/
  incoming : List UInt8
  sent : List UInt8
  calls : ℕ
deriving DecidableEq

variable (net : Net) (length : ℕ)

/-! ## `Socket` -/

def recv (n : ℕ) (s : Socket) : ℤ × List UInt8 × Socket :=
  if net.answer s.calls ≤ 0 then (net.answer s.calls, [], { s with calls := s.calls + 1 })
  else
    let bs := s.incoming.take (min (net.answer s.calls).toNat n)
    (bs.length, bs, { s with incoming := s.incoming.drop bs.length, calls := s.calls + 1 })

def send (bs : List UInt8) (s : Socket) : ℤ × Socket :=
  if net.answer s.calls ≤ 0 then (net.answer s.calls, { s with calls := s.calls + 1 })
  else
    let n := min (net.answer s.calls).toNat bs.length
    (n, { s with sent := s.sent ++ bs.take n, calls := s.calls + 1 })

/-! ## `SocketStream` -/

/-- `read(void* buffer, size_t length)`: what is returned, and the bytes stored -/
def read (s : Socket) : ℤ × List UInt8 × Socket :=
  if net.connected s.calls then recv net length s else (-1, [], { s with calls := s.calls + 1 })

/-- `read(ByteArray::ptr ba, size_t length)` -/
def readArray (st : ByteArray × Socket) : Except Fault (ℤ × ByteArray × Socket) :=
  let (ba, s) := st
  if net.connected s.calls then
    match ba.getWriteBuffers length with
    | .error e => .error e
    | .ok (iovs, ba) =>
      let (rt, bs, s) := recv net (total iovs) s
      let ba := ba.stored iovs bs
      if rt > 0 then
        match ba.setPosition (ba.position + rt.toNat) with
        | .error e => .error e
        | .ok ba => .ok (rt, ba, s)
      else .ok (rt, ba, s)
  else .ok (-1, ba, { s with calls := s.calls + 1 })

/-- `write(const void* buffer, size_t length)` -/
def write (bs : List UInt8) (s : Socket) : ℤ × Socket :=
  if net.connected s.calls then send net bs s else (-1, { s with calls := s.calls + 1 })

/-- `write(ByteArray::ptr ba, size_t length)` -/
def writeArray (st : ByteArray × Socket) : Except Fault (ℤ × ByteArray × Socket) :=
  let (ba, s) := st
  if net.connected s.calls then
    match ba.getReadBuffers length with
    | .error e => .error e
    | .ok iovs =>
      let (rt, s) := send net (gather ba.nodes iovs) s
      if rt > 0 then
        match ba.setPosition (ba.position + rt.toNat) with
        | .error e => .error e
        | .ok ba => .ok (rt, ba, s)
      else .ok (rt, ba, s)
  else .ok (-1, ba, { s with calls := s.calls + 1 })

/-! ## The loops of `Stream` -/

/-- `static_cast<int>(length)` -/
def castInt : ℤ := (BitVec.ofNat 32 length).toInt

/-- `static_cast<int64_t>(length)`, as the number of rounds of a loop that counts it down to 0 -/
def castInt64 : ℕ := (BitVec.ofNat 64 length).toInt.toNat

/-- `left` bytes are asked for until there are `length` or a call fails -/
def fixSize {σ : Type} (call : ℕ → σ → Except Fault (ℤ × σ)) (length : ℕ) (st : σ) : Except Fault (ℤ × σ) :=
  transfer call (castInt length) (castInt64 length) (castInt64 length) st

/-- one round of the loop over memory; the state has the bytes stored so far -/
def readMore (left : ℕ) (st : List UInt8 × Socket) : Except Fault (ℤ × List UInt8 × Socket) :=
  let (len, bs, s) := read net left st.2
  .ok (len, st.1 ++ bs, s)

/-- `readFixSize(void* buffer, size_t length)` -/
def readFixSize (s : Socket) : Except Fault (ℤ × List UInt8 × Socket) := fixSize (readMore net) length ([], s)

/-- `readFixSize(ByteArray::ptr ba, size_t length)` -/
def readFixSizeArray (ba : ByteArray) (s : Socket) : Except Fault (ℤ × ByteArray × Socket) :=
  fixSize (readArray net) length (ba, s)

/-- the state has the bytes not yet written -/
def writeMore (left : ℕ) (st : List UInt8 × Socket) : Except Fault (ℤ × List UInt8 × Socket) :=
  let (len, s) := write net (st.1.take left) st.2
  .ok (len, st.1.drop len.toNat, s)

/-- `writeFixSize(const void* buffer, size_t length)` -/
def writeFixSize (buffer : List UInt8) (s : Socket) : Except Fault (ℤ × List UInt8 × Socket) :=
  fixSize (writeMore net) buffer.length (buffer, s)

/-- `writeFixSize(ByteArray::ptr ba, size_t length)` -/
def writeFixSizeArray (ba : ByteArray) (s : Socket) : Except Fault (ℤ × ByteArray × Socket) :=
  fixSize (writeArray net) length (ba, s)

end CoServer.Stream
