/-
`ByteArray` (`bytearray.cpp`): a byte buffer in a linked list of chunks of one size, with a cursor and a pointer to the
chunk of the cursor that is null when the cursor is at the end of the last chunk.

The list of nodes is a list of chunks, and `_cur` an index into it. Sizes are natural numbers; `addCapacity` counts new
chunks in `double` arithmetic, as the source does (`Core.Double`). What a loop would do through a null pointer is
`nullNode`, and a copy beyond the end of a chunk is `outOfChunk`. A throw happens before anything is changed.
-/
import CoServer.Core.Double
import CoServer.Core.Splice

namespace CoServer

open CoServer.Core

inductive Endian where
  | little
  | big
deriving DecidableEq

structure ByteArray where
  baseSize : ℕ
  position : ℕ
  capacity : ℕ
  size : ℕ
  endian : Endian
  nodes : List (List UInt8)
  cur : Option ℕ
deriving DecidableEq

namespace ByteArray

/-- `std::out_of_range`, a division by zero, an access through a null pointer, a copy beyond the end of a chunk, a store
beyond the end of a local array -/
inductive Fault where
  | outOfRange
  | divByZero
  | nullNode
  | outOfChunk
  | outOfTmp
deriving DecidableEq

/-- `new Node(s)` -/
def newNode (s : ℕ) : List UInt8 := List.replicate s 0

def make (baseSize : ℕ) : ByteArray where
  baseSize := baseSize
  position := 0
  capacity := baseSize
  size := 0
  endian := .big
  nodes := [newNode baseSize]
  cur := some 0

variable (b : ByteArray)

def setIsLittleEndian (val : Bool) : ByteArray := { b with endian := if val then .little else .big }

def getReadSize : ℕ := b.size - b.position

def getCapacity : ℕ := b.capacity - b.position

/-- the pointer to the node with this index, null behind the last one -/
def node (i : ℕ) : Option ℕ := if i < b.nodes.length then some i else none

/-- with chunks of no bytes the quotient is infinite and no count is defined; the division that every caller makes next
then fails -/
def addCapacity (size : ℕ) : ByteArray :=
  if size = 0 then b
  else if b.getCapacity ≥ size then b
  else
    let count := Double.ceilDiv (size - b.getCapacity) b.baseSize
    { b with
      nodes := b.nodes ++ List.replicate count (newNode b.baseSize)
      capacity := b.capacity + count * b.baseSize
      cur := if b.getCapacity = 0 then (if count = 0 then none else some b.nodes.length) else b.cur }

/-! ## The loops -/

/-- the loop of `write` from a node on: the nodes afterwards, and how many of them `_cur` has moved on -/
def writeNodes : List (List UInt8) → ℕ → List UInt8 → Except Fault (List (List UInt8) × ℕ)
  | [], _, _ => .error .nullNode
  | node :: rest, nodeOffset, bs =>
    if nodeOffset > node.length then .error .outOfChunk
    else if node.length - nodeOffset ≥ bs.length then
      .ok (splice node nodeOffset bs :: rest, if node.length = nodeOffset + bs.length then 1 else 0)
    else
      match writeNodes rest 0 (bs.drop (node.length - nodeOffset)) with
      | .error e => .error e
      | .ok (rest', k) => .ok (splice node nodeOffset (bs.take (node.length - nodeOffset)) :: rest', k + 1)

/-- the loop of `read` -/
def readNodes : List (List UInt8) → ℕ → ℕ → Except Fault (List UInt8 × ℕ)
  | [], _, _ => .error .nullNode
  | node :: rest, nodeOffset, n =>
    if nodeOffset > node.length then .error .outOfChunk
    else if node.length - nodeOffset ≥ n then
      .ok ((node.drop nodeOffset).take n, if node.length = nodeOffset + n then 1 else 0)
    else
      match readNodes rest 0 (n - (node.length - nodeOffset)) with
      | .error e => .error e
      | .ok (bs, k) => .ok (node.drop nodeOffset ++ bs, k + 1)

/-- the loop of `setPosition`: how many nodes are passed -/
def seekNodes : List (List UInt8) → ℕ → Except Fault ℕ
  | [], _ => .error .nullNode
  | node :: rest, v =>
    if v > node.length then
      match seekNodes rest (v - node.length) with
      | .error e => .error e
      | .ok k => .ok (k + 1)
    else .ok (if v = node.length then 1 else 0)

/-! ## Raw access -/

def write (bs : List UInt8) : Except Fault ByteArray :=
  if bs = [] then .ok b
  else
    let b := b.addCapacity bs.length
    -- `_position % _baseSize`
    if b.baseSize = 0 then .error .divByZero
    else
      match b.cur with
      | none => .error .nullNode
      | some c =>
        match writeNodes (b.nodes.drop c) (b.position % b.baseSize) bs with
        | .error e => .error e
        | .ok (nodes, k) =>
          .ok { b with
            nodes := b.nodes.take c ++ nodes
            cur := b.node (c + k)
            position := b.position + bs.length
            size := max b.size (b.position + bs.length) }

def read (n : ℕ) : Except Fault (List UInt8 × ByteArray) :=
  if n > b.getReadSize then .error .outOfRange
  else if b.baseSize = 0 then .error .divByZero
  else
    match b.cur with
    | none => .error .nullNode
    | some c =>
      -- the loop is not entered
      if n = 0 then .ok ([], b)
      else
        match readNodes (b.nodes.drop c) (b.position % b.baseSize) n with
        | .error e => .error e
        | .ok (bs, k) => .ok (bs, { b with cur := b.node (c + k), position := b.position + n })

def clear : ByteArray :=
  { b with position := 0, size := 0, capacity := b.baseSize, nodes := b.nodes.take 1, cur := some 0 }

def setPosition (v : ℕ) : Except Fault ByteArray :=
  if v > b.capacity then .error .outOfRange
  else
    match seekNodes b.nodes v with
    | .error e => .error e
    | .ok k => .ok { b with position := v, size := max b.size v, cur := b.node k }

end ByteArray

end CoServer
