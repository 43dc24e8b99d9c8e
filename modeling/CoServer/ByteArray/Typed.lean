/-
Typed access to a `ByteArray` (the `read` and `write` templates of `bytearray.h`): integers of a fixed width, floats,
variable-length integers and strings behind their length.

The code runs on a host of either byte order (`AZZATO_BYTE_ORDER`). A value of an integral or floating-point type is its
bits. The template arguments are the values of `Ty`, the strings without a length (`ByteSize::Auto`) left out: nothing
separates them from what follows.
-/
import CoServer.ByteArray.Cursor
import CoServer.Core.Bytes

namespace CoServer.ByteArray

open CoServer.Core

/-- code that works on a buffer and may fail -/
abbrev Action := StateT ByteArray (Except Fault)

def put (bs : List UInt8) : Action Unit := fun b =>
  match b.write bs with
  | .ok b' => .ok ((), b')
  | .error e => .error e

def take (n : ℕ) : Action (List UInt8) := fun b => b.read n

def order : Action Endian := fun b => .ok (b.endian, b)

/-! ## Integers of a fixed width -/

inductive Width where
  | w8
  | w16
  | w32
  | w64
deriving DecidableEq

def Width.bytes : Width → ℕ
  | .w8 => 1
  | .w16 => 2
  | .w32 => 4
  | .w64 => 8

def Width.bits (w : Width) : ℕ := 8 * w.bytes

variable (host : Endian)

/-- the `k` bytes of an integer in the memory of the host -/
def memory (k v : ℕ) : List UInt8 :=
  match host with
  | .little => leBytes k v
  | .big => (leBytes k v).reverse

def load (bs : List UInt8) : ℕ :=
  match host with
  | .little => ofLeBytes bs
  | .big => ofLeBytes bs.reverse

/-- `byteswap` of a `k`-byte integer -/
def byteswap (k v : ℕ) : ℕ := ofLeBytes (leBytes k v).reverse

def writeInt (w : Width) (v : BitVec w.bits) : Action Unit := do
  let e ← order
  put (memory host w.bytes (if 1 < w.bytes ∧ e ≠ host then byteswap w.bytes v.toNat else v.toNat))

def readInt (w : Width) : Action (BitVec w.bits) := do
  let e ← order
  let bs ← take w.bytes
  return BitVec.ofNat w.bits (if 1 < w.bytes ∧ e ≠ host then byteswap w.bytes (load host bs) else load host bs)

/-! ## Variable-length integers -/

/-- the loop of `writeVaruint32` and `writeVaruint64`, with so many places left in `tmp` -/
def varuintBytes : ℕ → ℕ → Option (List UInt8)
  | 0, _ => none
  | room + 1, value =>
    if value ≥ 0x80 then
      match varuintBytes room (value >>> 7) with
      | none => none
      | some bs => some (UInt8.ofNat ((value &&& 0x7F) ||| 0x80) :: bs)
    else some [UInt8.ofNat value]

def writeVaruint (room : ℕ) (value : ℕ) : Action Unit :=
  match varuintBytes room value with
  | none => throw .outOfTmp
  | some bs => put bs

def writeVaruint32 (value : BitVec 32) : Action Unit := writeVaruint 5 value.toNat

def writeVaruint64 (value : BitVec 64) : Action Unit := writeVaruint 10 value.toNat

/-- the loop of `readVaruint32` and `readVaruint64` from `i` on, with so many rounds left -/
def readVaruint (w : ℕ) : ℕ → ℕ → BitVec w → Action (BitVec w)
  | 0, _, result => pure result
  | rounds + 1, i, result => do
    let bs ← take 1
    let b := bs.headD 0
    if b < 0x80 then return result ||| (BitVec.ofNat w b.toNat <<< i)
    else readVaruint w rounds (i + 7) (result ||| (BitVec.ofNat w (b &&& 0x7f).toNat <<< i))

-- `for(int i = 0; i < 32; i += 7)`
def readVaruint32 : Action (BitVec 32) := readVaruint 32 5 0 0#32

-- `for(int i = 0; i < 64; i += 7)`
def readVaruint64 : Action (BitVec 64) := readVaruint 64 10 0 0#64

def writeVarint (signed : Bool) (w : Width) (v : BitVec w.bits) : Action Unit :=
  if signed then
    if w.bytes ≤ 4 then writeVaruint32 (zigzagEncode (v.signExtend 32))
      else writeVaruint64 (zigzagEncode (v.signExtend 64))
  else
    if w.bytes ≤ 4 then writeVaruint32 (v.setWidth 32) else writeVaruint64 (v.setWidth 64)

def readVarint (signed : Bool) (w : Width) : Action (BitVec w.bits) :=
  if signed then
    if w.bytes ≤ 4 then do return (zigzagDecode (← readVaruint32)).setWidth w.bits
    else do return (zigzagDecode (← readVaruint64)).setWidth w.bits
  else
    if w.bytes ≤ 4 then do return (← readVaruint32).setWidth w.bits
    else do return (← readVaruint64).setWidth w.bits

/-! ## Strings -/

/-- how the length of a string is written before it -/
inductive Len where
  | u16
  | u32
  | u64
  | varint
deriving DecidableEq

def writeLen (l : Len) (n : ℕ) : Action Unit :=
  match l with
  | .u16 => writeInt host .w16 (BitVec.ofNat 16 n)
  | .u32 => writeInt host .w32 (BitVec.ofNat 32 n)
  | .u64 => writeInt host .w64 (BitVec.ofNat 64 n)
  | .varint => writeVarint false .w64 (BitVec.ofNat 64 n)

def readLen (l : Len) : Action ℕ :=
  match l with
  | .u16 => do return (← readInt host .w16).toNat
  | .u32 => do return (← readInt host .w32).toNat
  | .u64 => do return (← readInt host .w64).toNat
  | .varint => do return (← readVarint false .w64).toNat

def writeString (l : Len) (s : List UInt8) : Action Unit := do
  writeLen host l s.length
  if s ≠ [] then put s

def readString (l : Len) : Action (List UInt8) := do
  let n ← readLen host l
  if n > 0 then take n else return []

/-! ## The templates -/

/-- the arguments of the templates -/
inductive Ty where
  | int (signed : Bool) (w : Width)
  | float (double : Bool)
  | varint (signed : Bool) (w : Width)
  | string (l : Len)
deriving DecidableEq

/-- `std::conditional_t<sizeof(Type) == 4, uint32_t, uint64_t>` -/
def floatWidth (double : Bool) : Width := if double then .w64 else .w32

def Ty.Val : Ty → Type
  | .int _ w => BitVec w.bits
  | .float double => BitVec (floatWidth double).bits
  | .varint _ w => BitVec w.bits
  | .string _ => List UInt8

def writeTy : (t : Ty) → t.Val → Action Unit
  | .int _ w, v => writeInt host w v
  | .float double, v => writeInt host (floatWidth double) v
  | .varint signed w, v => writeVarint signed w v
  | .string l, s => writeString host l s

def readTy : (t : Ty) → Action t.Val
  | .int _ w => readInt host w
  | .float double => readInt host (floatWidth double)
  | .varint signed w => readVarint signed w
  | .string l => readString host l

/-- a value with its type -/
abbrev Typed := (t : Ty) × t.Val

def writeAll (host : Endian) : List Typed → Action Unit
  | [] => pure ()
  | v :: vs => do
    writeTy host v.1 v.2
    writeAll host vs

def readAll (host : Endian) : List Ty → Action (List Typed)
  | [] => pure []
  | t :: ts => do
    let v ← readTy host t
    let vs ← readAll host ts
    return ⟨t, v⟩ :: vs

end CoServer.ByteArray
