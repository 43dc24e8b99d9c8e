/-
`Bitmap` (include/datastruct/bitmap.h, src/datastruct/bitmap.cpp) with 16-bit words.

A word holds 14 values; its two top bits are tags of the compressed form. A compressed bitmap is a sequence of literals
(tag bit 15 clear) and runs: words with tag bit 15 set, the value in bit 14 and 14 bits of the length of the run, the
lowest ones first. `_data` is a list of words; an access outside of it is a fault, and so are a failed assertion, a
shift by 32 or more, and an exception.

The loops over 64-bit words take four words in a row, in the order of a little-endian machine. The four loops over a
compressed operand (`&=`, `|=`, `uncompress`, `compressCross`) differ in what they do with a literal and with a run; the
reading is `forTokens`.
-/
import CoServer.Core.Double
import Mathlib.Data.BitVec

namespace CoServer.DataStruct

open CoServer.Core

/-- `base_type` -/
abbrev Word := BitVec 16

structure Bitmap where
  /-- `_compress` -/
  compressed : Bool
  /-- `_size`, a `uint32_t` -/
  size : ℕ
  /-- `_dataSize`, a `uint32_t` -/
  dataSize : ℕ
  /-- what `_data` points to -/
  data : List Word
deriving DecidableEq

namespace Bitmap

/-- how a call can fail -/
inductive Fault where
  | logicError (what : String)
  | outOfBounds
  | assertion
  | shift
deriving DecidableEq

/-! ## Constants and single words -/

/-- `VALUE_SIZE` -/
def valueSize : ℕ := 14

/-- `COMPRESS_MASK` -/
def compressMask : Word := 0x8000#16

/-- `VALUE_MASK` -/
def valueMask : Word := 0x4000#16

/-- `COUNT_MASK` -/
def countMask : Word := 0x3FFF#16

/-- `POS`, `NPOS` and `MASK`, as `init` fills them -/
def posBit (i : ℕ) : Word := 1#16 <<< i

def nposBit (i : ℕ) : Word := ~~~ posBit i

def maskBits (i : ℕ) : Word := posBit i - 1

/-- `cur & COMPRESS_MASK` -/
def isRun (w : Word) : Bool := w &&& compressMask != 0

/-- `cur & VALUE_MASK` -/
def runValue (w : Word) : Bool := w &&& valueMask != 0

/-- a word of which all values are `v` -/
def fill (v : Bool) : Word := if v then countMask else 0

/-- `count_bits` -/
def countBits (w : Word) : ℕ := (List.range 16).countP fun i => w.getLsbD i

/-- `ceil(size * 1.0 / VALUE_SIZE)` -/
def words (size : ℕ) : ℕ := Double.ceilDiv size valueSize

/-! ## Construction, copies, single values -/

/-- `Bitmap(size, def)`; `memset` stores a byte -/
def new (size : ℕ) (byte : BitVec 8) : Bitmap := ⟨false, size, words size, List.replicate (words size) (byte ++ byte)⟩

variable (b : Bitmap)

/-- the copy constructor and `operator=` -/
def copy : Except Fault Bitmap :=
  if b.data.length < b.dataSize then .error .outOfBounds else .ok { b with data := b.data.take b.dataSize }

variable (data : List Word)

/-- `_data[i] = f(_data[i])` -/
def modifyWord (i : ℕ) (f : Word → Word) : Except Fault (List Word) :=
  if i < data.length then .ok (data.modify i f) else .error .outOfBounds

/-- `get(idx)` -/
def get (idx : ℕ) : Except Fault Bool :=
  match b.data[idx / valueSize]? with
  | none => .error .outOfBounds
  | some w => .ok (w &&& posBit (idx % valueSize) != 0)

/-- `set(idx, v)` -/
def set (idx : ℕ) (v : Bool) : Except Fault Bitmap := do
  let pos := idx % valueSize
  let data ← modifyWord b.data (idx / valueSize) fun w => if v then w ||| posBit pos else w &&& nposBit pos
  .ok { b with data := data }

variable (start count : ℕ)

/-- the words of a range, after the assertions of `set(from, size, v)` and `get(from, size, v)`; the sum is one of
`uint32_t` -/
def range : Except Fault (ℕ × ℕ) :=
  let last := (start + count) % 2 ^ 32
  if start % valueSize = 0 ∧ last % valueSize = 0 then .ok (start / valueSize, last / valueSize) else .error .assertion

/-- the loop of `set(from, size, v)` -/
def fillWords (i j : ℕ) (w : Word) : Except Fault (List Word) :=
  if i < j ∧ data.length < j then .error .outOfBounds
  else .ok (data.mapIdx fun k x => if i ≤ k ∧ k < j then w else x)

/-- `set(from, size, v)` -/
def setRange (v : Bool) : Except Fault (List Word) :=
  if count = 0 then .ok data
  else do
    let (i, j) ← range start count
    fillWords data i j (fill v)

/-- the loop of `get(from, size, v)`, left at the first word that has a value `v` -/
def anyWord (v : Bool) : ℕ → List Word → Except Fault Bool
  | 0, _ => .ok false
  | _ + 1, [] => .error .outOfBounds
  | n + 1, w :: ws => if (w &&& countMask != 0) = v then .ok true else anyWord v n ws

/-- `get(from, size, v)` -/
def getRange (v : Bool) : Except Fault Bool :=
  if count = 0 then .ok false
  else do
    let (i, j) ← range start count
    anyWord v (j - i) (data.drop i)

/-! ## 64-bit words -/

/-- four words as a `uint64_t` -/
def pack (a b c d : Word) : BitVec 64 := d ++ c ++ b ++ a

/-- a `uint64_t` as four words -/
def unpack (x : BitVec 64) : List Word :=
  [x.extractLsb' 0 16, x.extractLsb' 16 16, x.extractLsb' 32 16, x.extractLsb' 48 16]

/-- the loop over the words behind the 64-bit ones -/
def zipTail (op : Word → Word → Word) : ℕ → List Word → List Word → Except Fault (List Word)
  | 0, as, _ => .ok as
  | n + 1, a :: as, b :: bs => do
    let rest ← zipTail op n as bs
    .ok (op a b :: rest)
  | _ + 1, _, _ => .error .outOfBounds

/-- both loops of `&=` and `|=` on plain bitmaps -/
def zipWords (op64 : BitVec 64 → BitVec 64 → BitVec 64) (op : Word → Word → Word) :
    ℕ → ℕ → List Word → List Word → Except Fault (List Word)
  | 0, tail, as, bs => zipTail op tail as bs
  | n + 1, tail, a₀ :: a₁ :: a₂ :: a₃ :: as, b₀ :: b₁ :: b₂ :: b₃ :: bs => do
    let rest ← zipWords op64 op n tail as bs
    .ok (unpack (op64 (pack a₀ a₁ a₂ a₃) (pack b₀ b₁ b₂ b₃)) ++ rest)
  | _ + 1, _, _, _ => .error .outOfBounds

/-- `max_size` -/
def maxSize : ℕ := b.size / (valueSize * 4)

/-- the number of words behind the 64-bit ones -/
def tailSize : ℕ := b.dataSize - b.maxSize * 4

/-! ## Reading a compressed bitmap -/

inductive Token where
  | literal (w : Word)
  | run (v : Bool) (count : ℕ)
deriving DecidableEq

/-- the loop that collects the further words of a run: `k` words of it have been read -/
def takeRun (v : Bool) : ℕ → ℕ → List Word → Except Fault (ℕ × List Word)
  | _, count, [] => .ok (count, [])
  | k, count, w :: ws =>
    if isRun w && runValue w == v then
      if 32 ≤ valueSize * k then .error .shift
      else takeRun v (k + 1) (((w &&& countMask).toNat <<< (valueSize * k)) % 2 ^ 32 ||| count) ws
    else .ok (count, w :: ws)

/-- the next literal or run -/
def nextToken (w : Word) (ws : List Word) : Except Fault (Token × List Word) :=
  if isRun w then do
    let (count, rest) ← takeRun (runValue w) 1 (w &&& countMask).toNat ws
    .ok (.run (runValue w) count, rest)
  else .ok (.literal (w &&& countMask), ws)

/-- a loop over the words of a compressed bitmap; the body goes on with a state or returns. Every turn takes a word at
least. -/
def forTokens {σ ρ : Type} (body : σ → Token → Except Fault (ρ ⊕ σ)) : ℕ → List Word → σ → Except Fault (ρ ⊕ σ)
  | 0, _, s => .ok (.inr s)
  | _ + 1, [], s => .ok (.inr s)
  | fuel + 1, w :: ws, s => do
    let (t, rest) ← nextToken w ws
    match ← body s t with
    | .inl r => .ok (.inl r)
    | .inr s => forTokens body fuel rest s

/-- the words of a bitmap, as a loop up to `_dataSize` reads them -/
def readWords : Except Fault (List Word) :=
  if b.data.length < b.dataSize then .error .outOfBounds else .ok (b.data.take b.dataSize)

variable (onLiteral : Word → Word → Word)

/-- a loop that changes words: the array and `cur_pos`. Its body says what becomes of the word under a literal, and
which runs fill their words -/
def applyToken (onRun : Bool → Bool) (s : List Word × ℕ) (t : Token) :
    Except Fault (Empty ⊕ List Word × ℕ) :=
  match t with
  | .literal w => do
    let data ← modifyWord s.1 (s.2 / valueSize) fun x => onLiteral x w
    .ok (.inr (data, (s.2 + valueSize) % 2 ^ 32))
  | .run v count => do
    let data ← if onRun v then setRange s.1 s.2 count v else .ok s.1
    .ok (.inr (data, (s.2 + count) % 2 ^ 32))

/-- the array after such a loop over all words of `b` -/
def applyWords (onRun : Bool → Bool) (data : List Word) (b : Bitmap) :
    Except Fault (List Word) := do
  let ws ← readWords b
  match ← forTokens (applyToken onLiteral onRun) ws.length ws (data, 0) with
  | .inl e => nomatch e
  | .inr s => .ok s.1

/-! ## Operators -/

/-- `&=` and `|=`, with their texts -/
def combine (name : String) (op64 : BitVec 64 → BitVec 64 → BitVec 64) (op : Word → Word → Word) (onRun : Bool → Bool)
    (a b : Bitmap) : Except Fault Bitmap :=
  if a.size ≠ b.size then .error (.logicError "_size != b._size")
  else if !a.compressed && !b.compressed then do
    let data ← zipWords op64 op a.maxSize a.tailSize a.data b.data
    .ok { a with data := data }
  else if a.compressed ≠ b.compressed then
    if a.compressed then .error (.logicError ("compress " ++ name ++ " uncompress not support"))
    else do
      let data ← applyWords op onRun a.data b
      .ok { a with data := data }
  else .error (.logicError ("compress " ++ name ++ " compress not support"))

/-- `operator&=`: a run of zeros clears its words -/
def andAssign : Bitmap → Bitmap → Except Fault Bitmap := combine "&=" (· &&& ·) (· &&& ·) fun v => !v

/-- `operator|=`: a run of ones sets its words -/
def orAssign : Bitmap → Bitmap → Except Fault Bitmap := combine "|=" (· ||| ·) (· ||| ·) fun v => v

/-- a word of a compressed bitmap under `operator~` -/
def flipWord (w : Word) : Word :=
  if isRun w then if runValue w then w &&& ~~~ valueMask else w ||| valueMask else ~~~ w &&& countMask

/-- `operator~` -/
def complement : Except Fault Bitmap :=
  if b.data.length < b.dataSize then .error .outOfBounds
  else if b.compressed then .ok { b with data := (b.data.take b.dataSize).map flipWord ++ b.data.drop b.dataSize }
  else do
    let data ← zipWords (fun x _ => ~~~ x) (fun x _ => ~~~ x) b.maxSize b.tailSize b.data b.data
    .ok { b with data := data }

/-- `resize(size, v)` -/
def resize (b : Bitmap) (size : ℕ) (v : Bool) : Except Fault Bitmap :=
  let len := words size
  if b.compressed then .error (.logicError "compress bitmap not support resize")
  else if b.dataSize < len then
    if b.data.length < b.dataSize ∨ b.dataSize = 0 then .error .outOfBounds
    else
      let data := b.data.take b.dataSize ++ List.replicate (len - b.dataSize) (if v then 0xFFFF#16 else 0)
      let left := b.size % valueSize
      .ok ⟨false, size, len, data.modify (b.dataSize - 1) fun w => if v then w ||| maskBits left
        else w &&& maskBits left⟩
  else .ok { b with size := size, dataSize := len }

/-! ## `compress` and `uncompress` -/

/-- writes to the array of `cap` words that `compress` allocates -/
def emit (cap : ℕ) (out ws : List Word) : Except Fault (List Word) :=
  if cap < out.length + ws.length then .error .outOfBounds else .ok (out ++ ws)

/-- the words of a run: 14 bits of the count each; a `uint64_t` takes at most five of them -/
def countWords (v : Bool) : ℕ → ℕ → List Word
  | 0, _ => []
  | fuel + 1, count =>
    if count = 0 then []
    else ((if v then compressMask ||| valueMask else compressMask) ||| (BitVec.ofNat 16 count &&& countMask)) ::
      countWords v fuel (count >>> valueSize)

/-- the pending run is written: one word of it as a literal, more as a run -/
def flush (cap : ℕ) (v : Bool) (count : ℕ) (out : List Word) : Except Fault (List Word) :=
  if 1 < count / valueSize then emit cap out (countWords v 5 count)
  else if count = 0 then .ok out
  else emit cap out [fill v]

/-- `cur_value`, `cur_count` (a `uint64_t`) and the words written -/
structure Encoder where
  value : Bool
  count : ℕ
  out : List Word

/-- one turn of the loop of `compress` -/
def compressWord (cap : ℕ) (s : Encoder) (cur : Word) : Except Fault Encoder :=
  let c := countBits (cur &&& countMask)
  if c = 0 ∧ s.value = false ∨ c = valueSize ∧ s.value = true then
    .ok { s with count := (s.count + valueSize) % 2 ^ 64 }
  else if 1 < s.count / valueSize ∧ s.count % valueSize ≠ 0 then .error .assertion
  else do
    let out ← flush cap s.value s.count s.out
    if c = 0 ∨ c = valueSize then .ok ⟨decide (c = valueSize), valueSize, out⟩
    else do
      let out ← emit cap out [cur]
      .ok ⟨s.value, 0, out⟩

/-- the loop of `compress` -/
def compressWords (cap : ℕ) : Encoder → List Word → Except Fault Encoder
  | s, [] => .ok s
  | s, w :: ws => do
    let s ← compressWord cap s w
    compressWords cap s ws

def compress : Except Fault Bitmap :=
  if b.compressed then b.copy
  else do
    let ws ← readWords b
    let s ← compressWords b.dataSize ⟨false, 0, []⟩ ws
    let out ← flush b.dataSize s.value s.count s.out
    .ok ⟨true, b.size, out.length, out⟩

def uncompress : Except Fault Bitmap :=
  if b.compressed then do
    let data ← applyWords (fun _ w => w) (fun _ => true) (new b.size 0).data b
    .ok { new b.size 0 with data := data }
  else b.copy

/-! ## `cross` -/

/-- the body of the loop of `compressCross`: what is under a literal, and under a run of ones -/
def crossToken (pos : ℕ) : Token → Except Fault (Unit ⊕ ℕ)
  | .literal w =>
    match data[pos / valueSize]? with
    | none => .error .outOfBounds
    | some x => if x &&& w != 0 then .ok (.inl ()) else .ok (.inr ((pos + valueSize) % 2 ^ 32))
  | .run v count => do
    let hit ← if v then getRange data pos count true else .ok false
    if hit then .ok (.inl ()) else .ok (.inr ((pos + count) % 2 ^ 32))

def compressCross (a b : Bitmap) : Except Fault Bool := do
  let ws ← readWords b
  match ← forTokens (crossToken a.data) ws.length ws 0 with
  | .inl _ => .ok true
  | .inr _ => .ok false

/-- the second loop of `normalCross` -/
def crossTail : ℕ → List Word → List Word → Except Fault Bool
  | 0, _, _ => .ok false
  | n + 1, a :: as, b :: bs => if a &&& b != 0 then .ok true else crossTail n as bs
  | _ + 1, _, _ => .error .outOfBounds

/-- both loops of `normalCross` -/
def crossWords : ℕ → ℕ → List Word → List Word → Except Fault Bool
  | 0, tail, as, bs => crossTail tail as bs
  | n + 1, tail, a₀ :: a₁ :: a₂ :: a₃ :: as, b₀ :: b₁ :: b₂ :: b₃ :: bs =>
    if pack a₀ a₁ a₂ a₃ != 0 && pack a₀ a₁ a₂ a₃ &&& pack b₀ b₁ b₂ b₃ != 0 then .ok true else crossWords n tail as bs
  | _ + 1, _, _, _ => .error .outOfBounds

def normalCross (a b : Bitmap) : Except Fault Bool := crossWords a.maxSize a.tailSize a.data b.data

def cross (a b : Bitmap) : Except Fault Bool :=
  if !a.compressed && b.compressed then compressCross a b
  else if !a.compressed && !b.compressed then normalCross a b
  else .ok false

end Bitmap

end CoServer.DataStruct
