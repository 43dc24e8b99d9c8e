/-
`ByteArray::writeToFile` and `toString` (`bytearray.cpp`).

`writeToFile` walks along the chunks and passes one piece of each to the stream. The piece starts at the offset of the
position in its chunk, an `int`, and has the length of a whole chunk or of what is left, LESS that offset. That is right
for a chunk that is left at its end; in the chunk in which the bytes end it takes the offset off the bytes that are
left. The loop ends at the first thing that goes wrong: a null pointer, memory outside the chunk, or a negative length.

Results:
- `toString_eq`: `toString` gives the bytes from the cursor to the end, for an array whose capacity is a `size_t`.
- `file_exact_iff`: for every base size, cursor and stored size whose chunks can be in memory, every array with them
  that public operations lead to is written as `toString` gives it, with no negative length, iff there is nothing to
  read, or the offset of the cursor in its chunk is an `int` and it is 0 or there is at least a chunk to read.
- `short_tail_negative`: two bytes are left at the offset 4 of a chunk, and the stream is asked to write -2 bytes.
-/
import CoServer.ByteArray.Reads

namespace CoServer.ByteArray

open CoServer.Core List Nat Flat

/-! ## The code -/

def toString (b : ByteArray) : Except Fault (List UInt8) :=
  if b.getReadSize = 0 then .ok [] else b.readAt (UInt64.ofNat b.getReadSize) (UInt64.ofNat b.position)

/-- an access through a null pointer, memory outside a chunk, a negative length passed to the stream -/
inductive FileFault where
  | nullNode
  | outOfChunk
  | negativeLength
deriving DecidableEq

/-- `static_cast<int64_t>` of a size -/
def toInt64 (n : ℕ) : ℤ := (n : ℤ).bmod (2 ^ 64)

/-- `static_cast<int>(pos % _baseSize)`, where `pos` is converted to `size_t` -/
def fileOffset (base : ℕ) (pos : ℤ) : ℤ := (pos % 2 ^ 64 % base).bmod (2 ^ 32)

/-- a whole chunk, or what is left -/
def filePiece (base : ℕ) (readSize : ℤ) : ℤ := if readSize > toInt64 base then toInt64 base else readSize

/-- the loop of `writeToFile` from a node on: the bytes that are passed to the stream -/
def fileNodes (base : ℕ) : List (List UInt8) → ℤ → ℤ → Except FileFault (List UInt8)
  | [], _, readSize => if readSize > 0 then .error .nullNode else .ok []
  | node :: rest, pos, readSize =>
    if readSize > 0 then
      let diff := fileOffset base pos
      let len := filePiece base readSize - diff
      if len < 0 then .error .negativeLength
      else if diff < 0 ∨ diff + len > node.length then .error .outOfChunk
      else
        match fileNodes base rest (pos + len) (readSize - len) with
        | .error e => .error e
        | .ok bs => .ok ((node.drop diff.toNat).take len.toNat ++ bs)
    else .ok []

/-- what it returns, and what is in the file; `opens`: the file could be opened -/
def writeToFile (b : ByteArray) (opens : Bool) : Except FileFault (Bool × List UInt8) :=
  if opens = false then .ok (false, [])
  else
    let nodes := match b.cur with
      | none => []
      | some c => b.nodes.drop c
    match fileNodes b.baseSize nodes (toInt64 b.position) (toInt64 b.getReadSize) with
    | .error e => .error e
    | .ok bs => .ok (true, bs)

/-! ## The bytes of `toString` -/

variable {b : ByteArray}

variable {f : Flat} {base p : ℕ}

theorem toString_eq (h : Represents b f) (hcap : b.capacity < 2 ^ 64) :
    b.toString = .ok ((f.data.drop f.position).take (f.size - f.position)) := by
  have hread : b.getReadSize = f.size - f.position := by rw [getReadSize, h.size, h.position]
  have hpos := f.pos_le
  have hsize := f.size_le
  have hlen := h.length_data
  unfold toString
  rw [hread]
  by_cases hzero : f.size - f.position = 0
  · rw [if_pos hzero, hzero, take_zero]
  have hn : (UInt64.ofNat (f.size - f.position)).toNat = f.size - f.position := by
    rw [UInt64.toNat_ofNat', mod_eq_of_lt (by omega)]
  have hp : (UInt64.ofNat b.position).toNat = f.position := by
    rw [h.position, UInt64.toNat_ofNat', mod_eq_of_lt (by omega)]
  have htest : ¬ UInt64.ofNat (f.size - f.position) > UInt64.ofNat b.size - UInt64.ofNat b.position := by
    rw [gt_iff_lt, UInt64.lt_iff_toNat_lt, hn, toNat_size_sub (by rw [h.size]; omega), hp, h.size, if_pos hpos]
    exact lt_irrefl _
  have hne : UInt64.ofNat (f.size - f.position) ≠ 0 := fun heq => hzero (by rw [← hn, heq]; rfl)
  rw [if_neg hzero, readAt, if_neg htest, if_neg h.base_pos.ne', hp, hn]
  have hnodes := readNodes_ok h.base_pos (h.chunks_drop (f.position / b.baseSize)) (mod_lt f.position h.base_pos).le
    (pos_of_ne_zero hzero) (h.offset (show f.position + (f.size - f.position) ≤ b.capacity by omega))
  rw [flatten_drop h.chunks, h.data, drop_drop, div_add_mod'] at hnodes
  split
  · next hnil => exact absurd ((h.drop_eq_nil _).1 hnil) (by omega)
  · next node rest hrest =>
    rw [← hrest, if_neg hne, hnodes]

/-! ## The loop -/

theorem toInt64_eq {n : ℕ} (h : n < 2 ^ 63) : toInt64 n = n := by exact Int.bmod_eq_of_le (by omega) (by omega)

theorem fileOffset_eq {pos : ℕ} (hpos : pos < 2 ^ 63) (h : pos % base < 2 ^ 31) :
    fileOffset base pos = (pos % base : ℕ) := by
  have hmod : (pos : ℤ) % 2 ^ 64 = pos := Int.emod_eq_of_lt (by omega) (by omega)
  rw [fileOffset, hmod, Int.bmod_def]
  split_ifs <;> omega

theorem fileOffset_lt (base : ℕ) (pos : ℤ) : fileOffset base pos < 2 ^ 31 := by
  exact (Int.bmod_lt (by norm_num)).trans_le (by norm_num)

theorem fileNodes_done (base : ℕ) (nodes : List (List UInt8)) (pos : ℤ) : fileNodes base nodes pos 0 = .ok [] := by
  cases nodes <;> rfl

theorem fileNodes_cons {pos n : ℕ} {node : List UInt8} (hbase : base < 2 ^ 63) (hpos : pos < 2 ^ 63)
    (hnode : node.length = base)
    (hoff : pos % base < 2 ^ 31) (hle : pos % base ≤ min n base) (hn : 0 < n) (rest : List (List UInt8)) :
    fileNodes base (node :: rest) pos n =
      match fileNodes base rest (pos + (min n base - pos % base) : ℕ) (n - (min n base - pos % base) : ℕ) with
      | .error e => .error e
      | .ok bs => .ok ((node.drop (pos % base)).take (min n base - pos % base) ++ bs) := by
  have hmin : filePiece base n - (pos % base : ℕ) = (min n base - pos % base : ℕ) := by
    rw [filePiece, toInt64_eq hbase]
    split_ifs <;> omega
  rw [fileNodes, if_pos (by omega)]
  simp only [fileOffset_eq hpos hoff, hmin]
  have hrest : (n : ℤ) - (min n base - pos % base : ℕ) = (n - (min n base - pos % base) : ℕ) := by omega
  rw [if_neg (by omega), if_neg (by omega), hrest]
  rfl

theorem fileNodes_aligned {nodes : List (List UInt8)} (hbase : 0 < base) (hn : ∀ n ∈ nodes, n.length = base) {pos n : ℕ}
    (halign : pos % base = 0) (hroom : n ≤ nodes.length * base) (hmem : pos + nodes.length * base < 2 ^ 63) :
    fileNodes base nodes pos n = .ok (nodes.flatten.take n) := by
  induction nodes generalizing pos n with
  | nil =>
    obtain rfl : n = 0 := by simpa using hroom
    rfl
  | cons node rest ih =>
    have hnode : node.length = base := hn node mem_cons_self
    rw [length_cons, succ_mul] at hroom hmem
    rcases Nat.eq_zero_or_pos n with rfl | hpos
    · exact fileNodes_done base _ _
    rw [fileNodes_cons (by omega) (by omega) hnode (by omega) (by omega) hpos, halign, drop_zero, Nat.sub_zero,
      flatten_cons]
    rcases le_or_gt n base with hlast | hmore
    · -- the bytes end in this chunk
      rw [min_eq_left hlast, Nat.sub_self, cast_zero, take_append_of_le_length (by omega)]
      simp [fileNodes_done]
    · have halign' : (pos + base) % base = 0 := by rw [add_mod_right, halign]
      rw [min_eq_right hmore.le, ih (fun m hm => hn m (mem_cons_of_mem node hm)) halign' (by omega) (by omega),
        take_append,
        hnode, take_of_length_le hnode.le, take_of_length_le (show node.length ≤ n by omega)]

/-! ## Cursors with a whole chunk to write -/

/-- the file gets what `toString` gives -/
def WritesExactly (b : ByteArray) : Prop := ∃ bs, b.toString = .ok bs ∧ b.writeToFile true = .ok (true, bs)

theorem Represents.nodes_cons (h : Represents b f) (hlt : f.position < f.size) :
    ∃ node rest, b.nodes.drop (f.position / b.baseSize) = node :: rest ∧
      b.writeToFile true =
        match fileNodes b.baseSize (node :: rest) (toInt64 f.position) (toInt64 (f.size - f.position)) with
        | .error e => .error e
        | .ok bs => .ok (true, bs) := by
  have hsize := f.size_le
  rw [h.length_data] at hsize
  cases hnodes : b.nodes.drop (f.position / b.baseSize) with
  | nil => exact absurd ((h.drop_eq_nil _).1 hnodes) (by omega)
  | cons node rest =>
    refine ⟨node, rest, rfl, ?_⟩
    have hne : b.position ≠ b.capacity := by
      rw [h.position]
      omega
    rw [writeToFile, if_neg (by decide), h.cur, if_neg hne, getReadSize, h.position, h.size]
    simp only [hnodes]

theorem writeToFile_nothing (h : Represents b f) (heq : f.position = f.size) : b.writeToFile true = .ok (true, []) := by
  have hread : toInt64 b.getReadSize = 0 := by
    rw [getReadSize, h.size, h.position, heq, Nat.sub_self]
    rfl
  rw [writeToFile, if_neg (by decide), hread]
  simp only [fileNodes_done]

theorem writeToFile_exact (h : Represents b f) (hmem : b.capacity < 2 ^ 63) (hcond : f.position = f.size ∨
      f.position % b.baseSize < 2 ^ 31 ∧ (f.position % b.baseSize = 0 ∨ b.baseSize ≤ f.size - f.position)) :
    b.WritesExactly := by
  refine ⟨_, toString_eq h (by omega), ?_⟩
  have hbase := h.base_pos
  have hsize := f.size_le
  rw [h.length_data] at hsize
  rcases hcond with heq | ⟨hoff, hcond⟩
  · rw [writeToFile_nothing h heq, heq, Nat.sub_self, take_zero]
  rcases lt_or_ge f.position f.size with hlt | hge
  swap
  · rw [writeToFile_nothing h (le_antisymm f.pos_le hge), Nat.sub_eq_zero_of_le hge, take_zero]
  obtain ⟨node, rest, hnodes, hfile⟩ := h.nodes_cons hlt
  have hchunks := h.chunks_drop (f.position / b.baseSize)
  have hroom := h.offset (show f.position + (f.size - f.position) ≤ b.capacity by omega)
  have hflat := flatten_drop h.chunks (f.position / b.baseSize)
  have hmod := div_add_mod' f.position b.baseSize
  have hlen : (b.nodes.drop (f.position / b.baseSize)).length * b.baseSize = b.capacity - f.position / b.baseSize *
      b.baseSize := by
    rw [length_drop, Nat.sub_mul, ← h.capacity]
  rw [hnodes] at hchunks hroom hflat hlen
  have hbytes : (f.data.drop f.position).take (f.size - f.position) =
      ((node :: rest).flatten.drop (f.position % b.baseSize)).take (f.size - f.position) := by
    rw [hflat, h.data, drop_drop, hmod]
  rw [hfile, toInt64_eq (by omega), toInt64_eq (by omega), hbytes]
  by_cases hzero : f.position % b.baseSize = 0
  · rw [fileNodes_aligned hbase hchunks hzero (by omega) (by omega), hzero, drop_zero]
  have hwhole : b.baseSize ≤ f.size - f.position := hcond.resolve_left hzero
  have hlt' := mod_lt f.position hbase
  have hnode : node.length = b.baseSize := hchunks node mem_cons_self
  have halign : (f.position + (b.baseSize - f.position % b.baseSize)) % b.baseSize = 0 := by
    have hnext : f.position + (b.baseSize - f.position % b.baseSize) = (f.position / b.baseSize + 1) * b.baseSize := by
      rw [succ_mul]
      omega
    rw [hnext, mul_mod_left]
  -- the piece goes to the end of the chunk
  have hpiece : (node.drop (f.position % b.baseSize)).take (b.baseSize - f.position % b.baseSize) =
      node.drop (f.position % b.baseSize) :=
    take_of_length_le (by rw [length_drop, hnode])
  rw [length_cons, succ_mul] at hroom hlen
  rw [fileNodes_cons (by omega) (by omega) hnode hoff (by omega) (by omega), min_eq_right hwhole,
    fileNodes_aligned hbase (fun m hm => hchunks m (mem_cons_of_mem node hm)) halign (by omega) (by omega),
    flatten_cons,
    drop_take_across (by omega) (by omega), hnode, hpiece]

/-! ## Other cursors -/

theorem fileNodes_inv {node : List UInt8} {rest : List (List UInt8)} {pos readSize : ℤ} {bs : List UInt8}
    (hn : 0 < readSize) (h : fileNodes base (node :: rest) pos readSize = .ok bs) :
    ∃ (off len : ℕ) (pos' left : ℤ) (bs' : List UInt8), fileOffset base pos = off ∧
      filePiece base readSize = off + len ∧
      fileNodes base rest pos' left = .ok bs' ∧ bs = (node.drop off).take len ++ bs' := by
  rw [fileNodes, if_pos hn] at h
  simp only at h
  split_ifs at h with hneg hchunk
  split at h
  · cases h
  next bs' hrest =>
  have hoff : ((fileOffset base pos).toNat : ℤ) = fileOffset base pos := Int.toNat_of_nonneg (by omega)
  have hlen := Int.toNat_of_nonneg (not_lt.1 hneg)
  exact ⟨_, _, _, _, bs', hoff.symm, by rw [hlen]; omega, hrest, (Except.ok.inj h).symm⟩

theorem fileNodes_mem {nodes : List (List UInt8)} {pos readSize : ℤ} {bs : List UInt8}
    (h : fileNodes base nodes pos readSize = .ok bs) : ∀ x ∈ bs, x ∈ nodes.flatten := by
  induction nodes generalizing pos readSize bs with
  | nil =>
    simp only [fileNodes] at h
    split_ifs at h
    cases h
    exact fun x hx => nomatch hx
  | cons node rest ih =>
    intro x hx
    rw [flatten_cons, mem_append]
    by_cases hn : 0 < readSize
    · obtain ⟨off, len, pos', left, bs', -, -, hrest, rfl⟩ := fileNodes_inv hn h
      rcases mem_append.1 hx with hx | hx
      · exact Or.inl (mem_of_mem_drop (mem_of_mem_take hx))
      · exact Or.inr (ih hrest x hx)
    · rw [fileNodes, if_neg hn] at h
      cases h
      cases hx

/-- the byte 1 is at one place -/
def Marked (data : List UInt8) (p : ℕ) : Prop := ∀ q, data[q]? = some 1 ↔ q = p

theorem not_mem_drop_of_marked {data : List UInt8} {k : ℕ} (h : Marked data p) (hk : p < k) : 1 ∉ data.drop k := by
  intro hmem
  obtain ⟨q, hq⟩ := mem_iff_getElem?.1 hmem
  rw [List.getElem?_drop, h] at hq
  omega

theorem marked_piece (h : Represents b f) (hmem : b.capacity < 2 ^ 63) (hm : Marked f.data p)
    (hlt : f.position < f.size) (hp : p < (f.position / b.baseSize + 1) * b.baseSize) (hexact : b.WritesExactly) :
    ∃ (off len : ℕ) (node bs' : List UInt8), fileOffset b.baseSize f.position = off ∧
      filePiece b.baseSize (f.size - f.position : ℕ) = off + len ∧
      (f.data.drop f.position).take (f.size - f.position) = (node.drop off).take len ++ bs' ∧ 1 ∉ bs' ∧
      ∀ j, node[j]? = some 1 → f.position / b.baseSize * b.baseSize + j = p := by
  have hsize := f.size_le
  rw [h.length_data] at hsize
  obtain ⟨bs, hstr, hfile⟩ := hexact
  rw [toString_eq h (by omega)] at hstr
  cases hstr
  obtain ⟨node, rest, hnodes, hloop⟩ := h.nodes_cons hlt
  rw [hloop, toInt64_eq (by omega), toInt64_eq (by omega)] at hfile
  split at hfile
  · cases hfile
  next bs hok =>
  obtain ⟨off, len, pos', left, bs', hoff, hlen, hrest, hbs⟩ := fileNodes_inv (by omega) hok
  obtain rfl := (Prod.mk.inj (Except.ok.inj hfile)).2
  have hflat := flatten_drop h.chunks (f.position / b.baseSize)
  have hnext := flatten_drop h.chunks (f.position / b.baseSize + 1)
  rw [hnodes, h.data] at hflat
  rw [← drop_drop, hnodes, drop_one, tail_cons, h.data] at hnext
  refine ⟨off, len, node, bs', hoff, hlen, hbs, fun hone => ?_, fun j hj => ?_⟩
  · have hone' := fileNodes_mem hrest 1 hone
    rw [hnext] at hone'
    exact not_mem_drop_of_marked hm hp hone'
  · rw [← hm, ← List.getElem?_drop, ← hflat, flatten_cons, List.getElem?_append_left (List.getElem?_eq_some_iff.1 hj).1]
    exact hj

theorem not_exact_of_large_offset (h : Represents b f) (hmem : b.capacity < 2 ^ 63) (hm : Marked f.data f.position)
    (hlt : f.position < f.size) (hoff : 2 ^ 31 ≤ f.position % b.baseSize) : ¬ b.WritesExactly := by
  intro hexact
  have hmod := div_add_mod' f.position b.baseSize
  have hmodlt := mod_lt f.position h.base_pos
  obtain ⟨off, len, node, bs', hoff', -, hbs, hrest, hnode⟩ :=
    marked_piece h hmem hm hlt (by rw [succ_mul]; omega) hexact
  -- the first byte is the marked one
  have hfirst : ((f.data.drop f.position).take (f.size - f.position))[0]? = some 1 := by
    rw [getElem?_take_of_lt (by omega), List.getElem?_drop]
    exact (hm f.position).2 rfl
  have hne : off ≠ f.position % b.baseSize := by
    have := fileOffset_lt b.baseSize f.position
    omega
  rw [hbs] at hfirst
  cases hpiece : (node.drop off).take len with
  | nil =>
    rw [hpiece] at hfirst
    exact hrest (mem_of_getElem? hfirst)
  | cons x piece =>
    rw [hpiece, cons_append, getElem?_cons_zero, ← getElem?_cons_zero, ← hpiece] at hfirst
    have hget := hfirst
    rw [getElem?_take] at hget
    split_ifs at hget
    rw [List.getElem?_drop] at hget
    have := hnode off hget
    omega

theorem not_exact_of_short_tail (h : Represents b f) (hmem : b.capacity < 2 ^ 63)
    (hm : Marked f.data (f.position + (f.size - f.position - f.position % b.baseSize))) (hlt : f.position < f.size)
    (hoff : f.position % b.baseSize < 2 ^ 31) (hpos : f.position % b.baseSize ≠ 0)
    (hshort : f.size - f.position < b.baseSize) : ¬ b.WritesExactly := by
  intro hexact
  have hsize := f.size_le
  have hmod := div_add_mod' f.position b.baseSize
  have hmodlt := mod_lt f.position h.base_pos
  have hbase : b.baseSize < 2 ^ 63 := by
    refine lt_of_le_of_lt ?_ hmem
    rw [h.capacity]
    exact Nat.le_mul_of_pos_left _ (length_pos_of_ne_nil h.root)
  obtain ⟨off, len, node, bs', hoff', hlen, hbs, hrest, hnode⟩ :=
    marked_piece h hmem hm hlt (by rw [succ_mul]; omega) hexact
  rw [filePiece, toInt64_eq hbase] at hlen
  -- the marked byte is one of those that `toString` gives
  have hone : 1 ∈ (f.data.drop f.position).take (f.size - f.position) := by
    refine mem_of_getElem? (i := f.size - f.position - f.position % b.baseSize) ?_
    rw [getElem?_take_of_lt (by omega), List.getElem?_drop]
    exact (hm _).2 rfl
  rw [hbs] at hone
  rcases mem_append.1 hone with hone | hone
  · obtain ⟨j, hj⟩ := mem_iff_getElem?.1 hone
    rw [getElem?_take] at hj
    split_ifs at hj with hjlt
    rw [List.getElem?_drop] at hj
    have := hnode (off + j) hj
    omega
  · exact hrest hone

/-! ## Arrays with given bytes -/

theorem exists_stored (hbase : 0 < base) (bs : List UInt8) :
    ∃ (b : ByteArray) (f : Flat) (k : ℕ), Reachable b ∧ Represents b f ∧ f.base = base ∧ f.position = bs.length ∧
      f.size = bs.length ∧
      f.data = bs ++ replicate k 0 ∧ f.data.length = max base (roundUp base bs.length) := by
  induction bs using reverseRecOn with
  | nil =>
    refine ⟨ByteArray.make base, Flat.make base hbase, base, .make base, make_represents hbase, rfl, rfl, rfl, rfl, ?_⟩
    have hzero : roundUp base 0 = 0 := by
      unfold roundUp
      rw [div_eq_of_lt (by omega), zero_mul]
    rw [length_nil, hzero, max_zero]
    exact length_replicate
  | append_singleton bs x ih =>
    obtain ⟨b, f, k, hreach, hrep, rfl, hpos, hsize, hdata, hlen⟩ := ih
    obtain ⟨b', hwrite, hrep', -⟩ := write_represents hrep (show [x].length < 2 ^ 53 by norm_num)
    have hroom := f.le_length_reserve (f.position + 1)
    have hgrown : (f.reserve (f.position + 1)).data =
        bs ++ replicate (k + (roundUp f.base (f.position + 1) - f.data.length)) 0 := by
      simp only [reserve]
      rw [hdata, append_assoc, replicate_append_replicate]
    have hlength : (f.reserve (f.position + 1)).data.length = max f.base (roundUp f.base (bs.length + 1)) := by
      have hmono := roundUp_mono f.base (show bs.length ≤ bs.length + 1 by omega)
      simp only [reserve, length_append, length_replicate, hpos]
      omega
    have hspace : 0 < k + (roundUp f.base (f.position + 1) - f.data.length) := by
      rw [hgrown, length_append, length_replicate] at hroom
      omega
    obtain ⟨j, hj⟩ := exists_eq_add_one_of_ne_zero hspace.ne'
    refine ⟨b', f.write [x], j, hreach.write hwrite, hrep', rfl, ?_, ?_, ?_, ?_⟩
    · simp [Flat.write, hpos]
    · simp only [Flat.write, hpos, hsize, length_append]
      omega
    · have hwritten : (f.write [x]).data = splice (f.reserve (f.position + 1)).data f.position [x] := rfl
      rw [hwritten, hgrown, hj, hpos]
      simp [splice]
    · rw [length_append, length_singleton, ← hlength]
      exact length_splice hroom

/-- the bytes up to `size`, all 0 but one -/
def markedBytes (size p : ℕ) : List UInt8 := (range size).map fun q => if q = p then 1 else 0

theorem marked_append {size : ℕ} (hp : p < size) (k : ℕ) : Marked (markedBytes size p ++ replicate k 0) p := by
  intro q
  have hlen : (markedBytes size p).length = size := by rw [markedBytes, length_map, length_range]
  rcases lt_or_ge q size with hq | hq
  · rw [List.getElem?_append_left (by omega), markedBytes, getElem?_map, getElem?_range hq]
    by_cases heq : q = p
    · simp
    · simp
  · rw [getElem?_append_right (by omega), getElem?_replicate]
    constructor
    · intro h
      simp at h
    · omega

theorem exists_marked {pos size : ℕ} (hbase : 0 < base) (hpos : pos ≤ size) (hp : p < size) :
    ∃ (b : ByteArray) (f : Flat), Reachable b ∧ Represents b f ∧ b.baseSize = base ∧ f.position = pos ∧ f.size = size ∧
      b.capacity = roundUp base size ∧ Marked f.data p := by
  obtain ⟨b, f, k, hreach, hrep, hfbase, -, hsize, hdata, hlen⟩ := exists_stored hbase (markedBytes size p)
  have hcount : (markedBytes size p).length = size := by rw [markedBytes, length_map, length_range]
  rw [hcount] at hsize hlen
  obtain ⟨b', hset, hrep', -⟩ :=
    setPosition_represents hrep (dif_pos (show pos ≤ f.data.length by have := f.size_le; omega))
  refine ⟨b', _, hreach.setPosition hset, hrep', hrep'.base.trans hfbase, rfl, ?_, ?_, ?_⟩
  · simp only [hsize]
    omega
  · -- there is a byte, so the chunks are those that it takes
    have hle : base ≤ roundUp base size :=
      le_of_dvd (lt_of_lt_of_le (by omega) (le_roundUp hbase size)) (dvd_roundUp base size)
    rw [← hrep'.length_data]
    simp only [hlen]
    omega
  · simp only [hdata]
    exact marked_append hp k

/-! ## Result -/

/-- **Files of a `ByteArray`.** -/
theorem file_exact_iff (base pos size : ℕ) (hbase : base = 0 → size = 0) (hpos : pos ≤ size)
    (hmem : roundUp base size < 2 ^ 63) :
    (∀ b : ByteArray, Reachable b → b.capacity < 2 ^ 63 → b.baseSize = base → b.position = pos → b.size = size →
      b.WritesExactly) ↔
      pos = size ∨ pos % base < 2 ^ 31 ∧ (pos % base = 0 ∨ base ≤ size - pos) := by
  constructor
  · intro hall
    by_contra hcond
    rw [not_or, not_and_or, not_or] at hcond
    obtain ⟨hne, hcond⟩ := hcond
    have hlt : pos < size := lt_of_le_of_ne hpos hne
    have hbase' : 0 < base := pos_of_ne_zero fun hzero => by have := hbase hzero; omega
    by_cases hoff : pos % base < 2 ^ 31
    · obtain ⟨hzero, hshort⟩ := hcond.resolve_left (not_not.2 hoff)
      obtain ⟨b, f, hreach, hrep, rfl, rfl, rfl, hcap, hm⟩ :=
        exists_marked hbase' hpos (p := pos + (size - pos - pos % base)) (by omega)
      exact not_exact_of_short_tail hrep (by omega) hm hlt hoff hzero (by omega)
        (hall b hreach (by omega) rfl hrep.position hrep.size)
    · obtain ⟨b, f, hreach, hrep, rfl, rfl, rfl, hcap, hm⟩ := exists_marked hbase' hpos hlt
      exact not_exact_of_large_offset hrep (by omega) hm hlt (not_lt.1 hoff)
        (hall b hreach (by omega) rfl hrep.position hrep.size)
  · rintro hcond b hreach hcap rfl rfl rfl
    have hvalid := reachable_valid hreach
    rcases Nat.eq_zero_or_pos b.baseSize with hzero | hpos'
    · -- chunks of no bytes
      obtain ⟨hp, hs, -⟩ := hvalid.empty hzero
      have hread : b.getReadSize = 0 := by rw [getReadSize, hp, hs]
      have hleft : toInt64 0 = 0 := rfl
      refine ⟨[], by rw [toString, if_pos hread], ?_⟩
      rw [writeToFile, if_neg (by decide), hread, hleft]
      simp only [fileNodes_done]
    · obtain ⟨f, hrep⟩ := hvalid.represents hpos'
      rw [hrep.position, hrep.size] at hcond
      exact writeToFile_exact hrep hcap hcond

/-- six bytes in a chunk of eight, the cursor at the first and at the fifth -/
def sixBytes (pos : ℕ) : ByteArray :=
  { baseSize := 8, position := pos, capacity := 8, size := 6, endian := .big,
    nodes := [[1, 2, 3, 4, 5, 6, 0, 0]], cur := some 0 }

theorem sixBytes_reachable : Reachable (sixBytes 0) ∧ Reachable (sixBytes 4) := by
  have hwrite : (make 8).write [1, 2, 3, 4, 5, 6] = .ok (sixBytes 6) := by decide
  have h := (Reachable.make 8).write hwrite
  exact ⟨h.setPosition (v := 0) (by decide), h.setPosition (v := 4) (by decide)⟩

theorem sixBytes_written : (sixBytes 0).writeToFile true = .ok (true, [1, 2, 3, 4, 5, 6]) ∧
    (sixBytes 0).WritesExactly :=
  ⟨by decide, (file_exact_iff 8 0 6 (by decide) (by decide) (by decide)).2 (by decide) (sixBytes 0)
    sixBytes_reachable.1 (by decide) rfl rfl rfl⟩

/-- **A negative length.** -/
theorem short_tail_negative :
    Reachable (sixBytes 4) ∧ (sixBytes 4).toString = .ok [5, 6] ∧
      (sixBytes 4).writeToFile true = .error .negativeLength :=
  ⟨sixBytes_reachable.2, by decide, by decide⟩

end CoServer.ByteArray
