/-
Reads of a `ByteArray` at the edges (`bytearray.cpp`): no bytes, a cursor at the end of the last chunk, positions behind
the stored bytes.

`read` looks at the current chunk before it knows that it has nothing to read. The overload with a position compares
`_size - position`, which wraps around. The overload of `getReadBuffers` with a position cuts the length to the bytes
behind the cursor, not to those behind the position.

Results:
- `reachable_valid`: an array that public operations lead to is valid.
- `reads_iff`: for every such array, every size and every position, `read` is right iff it is not asked for no bytes at
  the end of the last chunk; the overload with a position iff the position is not behind the stored bytes and it is not
  asked for no bytes at the end of the last chunk, or the size is so large that even the difference that has wrapped
  around is smaller; `getReadBuffers` always; and its overload with a position iff the bytes end before the end of the
  chunks. The four functions come each for itself before it.
- `edge_faults`: a read of no bytes at the end and two bytes from the last byte of the chunk on go through the null
  pointer; a read behind the stored bytes does so too or gives a byte that was never stored.
-/
import CoServer.ByteArray.Buffers

namespace CoServer.ByteArray

open CoServer.Core List Nat

/-! ## The code -/

/-- `read(void* buf, size_t size, size_t position)` -/
def readAt (b : ByteArray) (size position : UInt64) : Except Fault (List UInt8) :=
  if size > UInt64.ofNat b.size - position then .error .outOfRange
  else if b.baseSize = 0 then .error .divByZero
  else
    -- the walk along the nodes, and `cur->size`
    match b.nodes.drop (position.toNat / b.baseSize) with
    | [] => .error .nullNode
    | node :: rest =>
      -- the loop is not entered
      if size = 0 then .ok []
      else
        match readNodes (node :: rest) (position.toNat % b.baseSize) size.toNat with
        | .error e => .error e
        | .ok (bs, _) => .ok bs

/-- `getReadBuffers` with a position -/
def getReadBuffersAt (b : ByteArray) (len position : UInt64) : Except Fault (List Iovec) :=
  let len := if len.toNat > b.getReadSize then b.getReadSize else len.toNat
  if len = 0 then .ok []
  else if b.baseSize = 0 then .error .divByZero
  else
    match b.nodes.drop (position.toNat / b.baseSize) with
    | [] => .error .nullNode
    | node :: rest => buffersFrom (node :: rest) (position.toNat / b.baseSize) (position.toNat % b.baseSize) len

/-- the buffers that public operations lead to; the caller of `getWriteBuffers` may store into what it gets -/
inductive Reachable : ByteArray → Prop
  | make (baseSize : ℕ) : Reachable (make baseSize)
  | write {b b' : ByteArray} {bs : List UInt8} (h : Reachable b) (hok : b.write bs = .ok b') : Reachable b'
  | read {b b' : ByteArray} {n : ℕ} {bs : List UInt8} (h : Reachable b) (hok : b.read n = .ok (bs, b')) : Reachable b'
  | setPosition {b b' : ByteArray} {v : ℕ} (h : Reachable b) (hok : b.setPosition v = .ok b') : Reachable b'
  | clear {b : ByteArray} (h : Reachable b) : Reachable b.clear
  | setIsLittleEndian {b : ByteArray} (h : Reachable b) (val : Bool) : Reachable (b.setIsLittleEndian val)
  | getWriteBuffers {b b' : ByteArray} {len : ℕ} {iovs : List Iovec} {bs : List UInt8} (h : Reachable b)
      (hok : b.getWriteBuffers len = .ok (iovs, b')) (hbs : bs.length ≤ len) : Reachable (b'.stored iovs bs)

/-! ## What holds of them -/

/-- as `Represents`, with chunks of no bytes -/
structure Valid (b : ByteArray) : Prop where
  chunks : ∀ n ∈ b.nodes, n.length = b.baseSize
  root : b.nodes ≠ []
  capacity : b.capacity = b.nodes.length * b.baseSize
  pos_le : b.position ≤ b.size
  size_le : b.size ≤ b.capacity
  cur : 0 < b.baseSize → b.cur = if b.position = b.capacity then none else some (b.position / b.baseSize)

variable {b b' : ByteArray}

theorem Valid.represents (h : b.Valid) (hbase : 0 < b.baseSize) : ∃ f, Represents b f :=
  ⟨{  base := b.baseSize
      data := b.nodes.flatten
      position := b.position
      size := b.size
      base_pos := hbase
      whole := ⟨b.nodes.length, by rw [length_flatten_chunks h.chunks, mul_comm]⟩
      pos_le := h.pos_le
      size_le := by
        rw [length_flatten_chunks h.chunks, ← h.capacity]
        exact h.size_le },
    ⟨rfl, h.chunks, rfl, h.root, h.capacity, rfl, rfl, h.cur hbase⟩⟩

theorem Represents.valid {f : Flat} (h : Represents b f) : b.Valid := by
  refine ⟨h.chunks, h.root, h.capacity, ?_, ?_, fun _ => h.cur⟩
  · rw [h.position, h.size]
    exact f.pos_le
  · rw [h.size, ← h.length_data]
    exact f.size_le

theorem Valid.empty (h : b.Valid) (hbase : b.baseSize = 0) : b.position = 0 ∧ b.size = 0 ∧ b.capacity = 0 := by
  have hcap := h.capacity
  have hpos := h.pos_le
  have hsize := h.size_le
  rw [hbase] at hcap
  omega

theorem valid_make (baseSize : ℕ) : (make baseSize).Valid := by
  rcases Nat.eq_zero_or_pos baseSize with rfl | hbase
  · exact ⟨by simp [make, newNode], by simp [make], rfl, le_rfl, le_rfl, fun h => absurd h (lt_irrefl 0)⟩
  · exact (make_represents hbase).valid

theorem Valid.addCapacity (h : b.Valid) (n : ℕ) : (b.addCapacity n).Valid := by
  unfold ByteArray.addCapacity
  by_cases hzero : n = 0
  · rw [if_pos hzero]
    exact h
  by_cases hroom : b.getCapacity ≥ n
  · rw [if_neg hzero, if_pos hroom]
    exact h
  rw [if_neg hzero, if_neg hroom]
  generalize Double.ceilDiv (n - b.getCapacity) b.baseSize = count
  have hpos : b.position ≤ b.capacity := h.pos_le.trans h.size_le
  refine ⟨fun m hm => ?_, ?_, ?_, h.pos_le, h.size_le.trans (le_add_right _ _), fun hbase => ?_⟩
  · rcases mem_append.1 hm with hm | hm
    · exact h.chunks m hm
    · rw [eq_of_mem_replicate hm]
      exact length_replicate
  · exact fun hnil => h.root (append_eq_nil_iff.1 hnil).1
  · rw [length_append, length_replicate, add_mul, h.capacity]
  · have hcur := h.cur hbase
    simp only
    by_cases hend : b.getCapacity = 0
    · -- the cursor is at the end, so it is in the first new chunk
      have hat : b.position = b.capacity := by
        unfold getCapacity at hend
        omega
      rw [if_pos hend, hat]
      rcases Nat.eq_zero_or_pos count with rfl | hcount
      · rw [if_pos rfl, if_pos (by omega)]
      · have hgrow : 0 < count * b.baseSize := mul_pos hcount hbase
        rw [if_neg hcount.ne', if_neg (by omega), h.capacity, Nat.mul_div_cancel _ hbase]
    · have hlt : b.position < b.capacity := by
        unfold getCapacity at hend
        omega
      rw [if_neg hend, hcur, if_neg hlt.ne, if_neg (by omega)]

variable {bs : List UInt8}

theorem room_of_writeNodes {base : ℕ} {nodes : List (List UInt8)} (hn : ∀ n ∈ nodes, n.length = base) {off : ℕ}
    {r : List (List UInt8) × ℕ} (h : writeNodes nodes off bs = .ok r) : off + bs.length ≤ nodes.length * base := by
  induction nodes generalizing off bs r with
  | nil => cases h
  | cons node rest ih =>
    have hnode : node.length = base := hn node mem_cons_self
    rw [length_cons, succ_mul]
    simp only [writeNodes, hnode] at h
    by_cases hoff : off > base
    · rw [if_pos hoff] at h
      cases h
    by_cases hfit : base - off ≥ bs.length
    · omega
    rw [if_neg hoff, if_neg hfit] at h
    split at h
    · cases h
    next rest' k hrest =>
    have hroom := ih (fun n hmem => hn n (mem_cons_of_mem node hmem)) hrest
    rw [length_drop] at hroom
    omega

section

variable (h : b.Valid)
include h

theorem Valid.write (hok : b.write bs = .ok b') : b'.Valid := by
  by_cases hnil : bs = []
  · unfold ByteArray.write at hok
    rw [if_pos hnil] at hok
    cases hok
    exact h
  have hadd := h.addCapacity bs.length
  rcases Nat.eq_zero_or_pos (b.addCapacity bs.length).baseSize with hbase | hbase
  · unfold ByteArray.write at hok
    rw [if_neg hnil, if_pos hbase] at hok
    cases hok
  obtain ⟨g, hr⟩ := hadd.represents hbase
  -- the loop was done, so there was room
  have hroom : g.position + bs.length ≤ g.data.length := by
    unfold ByteArray.write at hok
    rw [if_neg hbase.ne', hr.cur] at hok
    split_ifs at hok with hend
    simp only at hok
    split at hok
    · cases hok
    next nodes k hnodes =>
    have hloop := room_of_writeNodes (hr.chunks_drop _) hnodes
    have hmod := div_add_mod' (b.addCapacity bs.length).position (b.addCapacity bs.length).baseSize
    have hle := hr.pos_le
    rw [length_drop, Nat.sub_mul, ← hr.capacity] at hloop
    rw [← hr.position, hr.length_data]
    omega
  have hsame : (b.addCapacity bs.length).addCapacity bs.length = b.addCapacity bs.length := by
    have hcap : (b.addCapacity bs.length).getCapacity ≥ bs.length := by
      unfold getCapacity
      rw [hr.position, ← hr.length_data]
      omega
    conv_lhs => rw [ByteArray.addCapacity]
    rw [if_pos hcap, ite_self]
  have hadded : Represents ((b.addCapacity bs.length).addCapacity bs.length) (g.reserve (g.position + bs.length)) := by
    rw [hsame, Flat.reserve_of_le hroom]
    exact hr
  obtain ⟨c, hc, hrep, -⟩ := write_of_addCapacity hr hadded (by rw [hsame])
  have hwrite : (b.addCapacity bs.length).write bs = b.write bs := by
    unfold ByteArray.write
    rw [hsame, if_neg hnil, if_neg hnil]
  rw [hwrite, hok] at hc
  cases hc
  exact hrep.valid

theorem Valid.read {n : ℕ} (hok : b.read n = .ok (bs, b')) : b'.Valid := by
  rcases Nat.eq_zero_or_pos n with rfl | hn
  · unfold ByteArray.read at hok
    rw [if_neg (not_lt_zero _)] at hok
    by_cases hbase : b.baseSize = 0
    · rw [if_pos hbase] at hok
      cases hok
    rw [if_neg hbase] at hok
    split at hok
    · cases hok
    · obtain ⟨-, rfl⟩ := Prod.mk.inj (Except.ok.inj hok)
      exact h
  rcases Nat.eq_zero_or_pos b.baseSize with hbase | hbase
  · unfold ByteArray.read at hok
    split_ifs at hok
  obtain ⟨f, hrep⟩ := h.represents hbase
  cases hf : f.read n with
  | none =>
    rw [read_throws hrep hf] at hok
    cases hok
  | some r =>
    obtain ⟨c, hc, hrep', -⟩ := read_represents hrep hn hf
    rw [hc] at hok
    obtain ⟨-, rfl⟩ := Prod.mk.inj (Except.ok.inj hok)
    exact hrep'.valid

theorem Valid.setPosition {v : ℕ} (hok : b.setPosition v = .ok b') : b'.Valid := by
  rcases Nat.eq_zero_or_pos b.baseSize with hbase | hbase
  · obtain ⟨hpos, hsize, hcap⟩ := h.empty hbase
    unfold ByteArray.setPosition at hok
    split_ifs at hok with hthrow
    split at hok
    · cases hok
    · cases hok
      obtain rfl : v = 0 := by omega
      exact ⟨h.chunks, h.root, h.capacity, zero_le _,
        by simp only [hsize]; exact zero_le _, fun hlt => absurd hbase hlt.ne'⟩
  · obtain ⟨f, hrep⟩ := h.represents hbase
    cases hf : f.setPosition v with
    | none =>
      rw [setPosition_throws hrep hf] at hok
      cases hok
    | some g =>
      obtain ⟨c, hc, hrep', -⟩ := setPosition_represents hrep hf
      rw [hc] at hok
      cases hok
      exact hrep'.valid

theorem Valid.clear : b.clear.Valid := by
  rcases Nat.eq_zero_or_pos b.baseSize with hbase | hbase
  · have hone : (b.nodes.take 1).length = 1 := by rw [length_take, min_eq_left (length_pos_of_ne_nil h.root)]
    refine ⟨fun n hn => h.chunks n (mem_of_mem_take hn), ?_, ?_, le_rfl, zero_le _, fun hlt => absurd hbase hlt.ne'⟩
    · exact ne_nil_of_length_pos (by simp only [ByteArray.clear, hone]; exact one_pos)
    · simp [ByteArray.clear, hone]
  · obtain ⟨f, hrep⟩ := h.represents hbase
    exact (clear_represents hrep).1.valid

theorem Valid.stored {len : ℕ} {iovs : List Iovec} (hok : b.getWriteBuffers len = .ok (iovs, b'))
    (hbs : bs.length ≤ len) : (b'.stored iovs bs).Valid := by
  unfold ByteArray.getWriteBuffers at hok
  by_cases hzero : len = 0
  · rw [if_pos hzero] at hok
    obtain ⟨rfl, rfl⟩ := Prod.mk.inj (Except.ok.inj hok)
    exact h
  have hadd := h.addCapacity len
  generalize b.addCapacity len = c at hok hadd
  simp only at hok
  split_ifs at hok with hbase
  obtain ⟨f, hrep⟩ := hadd.represents (pos_of_ne_zero hbase)
  rw [hrep.cur] at hok
  split_ifs at hok with hend
  simp only at hok
  split at hok
  · cases hok
  next iovs' hiovs =>
  obtain ⟨rfl, rfl⟩ := Prod.mk.inj (Except.ok.inj hok)
  obtain ⟨rest', h1, h2, h3, h4⟩ := fill_ok (hrep.chunks_drop _) (c.nodes.take (c.position / c.baseSize))
    (mod_lt _ hrep.base_pos).le (by rw [hrep.length_take_nodes]; exact hiovs) hbs
  obtain ⟨-, hchunks, hnodes⟩ := hrep.overwrite rfl h2 h3 h4
  rw [take_append_drop] at h1
  rw [← h1] at hchunks hnodes
  refine ⟨hchunks, hrep.root_of_length hnodes, ?_, hadd.pos_le, hadd.size_le, hadd.cur⟩
  simp only [ByteArray.stored, hnodes]
  exact hadd.capacity

end

theorem reachable_valid (h : Reachable b) : b.Valid := by
  induction h with
  | make baseSize => exact valid_make baseSize
  | write _ hok ih => exact ih.write hok
  | read _ hok ih => exact ih.read hok
  | setPosition _ hok ih => exact ih.setPosition hok
  | clear _ ih => exact ih.clear
  | setIsLittleEndian _ val ih => exact ⟨ih.chunks, ih.root, ih.capacity, ih.pos_le, ih.size_le, ih.cur⟩
  | getWriteBuffers _ hok hbs ih => exact ih.stored hok hbs

/-! ## The four functions -/

/-- it throws `std::out_of_range`, or touches only allocated chunks -/
def Safe {α : Type} (r : Except Fault α) : Prop := r = .error .outOfRange ∨ ∃ a, r = .ok a

theorem safe_ok {α : Type} {r : Except Fault α} {a : α} (h : r = .ok a) : Safe r := .inr ⟨a, h⟩

theorem safe_iff_of_error {α : Type} {r : Except Fault α} {e : Fault} (h : r = .error e) : Safe r ↔
    e = .outOfRange := by
  rw [h]
  constructor
  · rintro (hthrow | ⟨a, ha⟩)
    · exact Except.error.inj hthrow
    · cases ha
  · rintro rfl
    exact .inl rfl

/-- `read` throws exactly when there are not enough bytes, and is safe otherwise -/
def RightRead (b : ByteArray) (n : ℕ) : Prop :=
  Safe (b.read n) ∧ (b.read n = .error .outOfRange ↔ b.size - b.position < n)

theorem read_right_iff (h : b.Valid) (n : ℕ) : b.RightRead n ↔ ¬ (n = 0 ∧ b.position = b.capacity) := by
  unfold RightRead
  by_cases hthrow : n > b.getReadSize
  · have hread : b.read n = .error .outOfRange := if_pos hthrow
    have hpos : n ≠ 0 := by omega
    rw [safe_iff_of_error hread, hread]
    exact iff_of_true ⟨rfl, iff_of_true rfl hthrow⟩ fun hzero => hpos hzero.1
  have hle : ¬ b.size - b.position < n := hthrow
  rcases Nat.eq_zero_or_pos b.baseSize with hbase | hbase
  · obtain ⟨hpos, hsize, hcap⟩ := h.empty hbase
    have hread : b.read n = .error .divByZero := by
      unfold ByteArray.read
      rw [if_neg hthrow, if_pos hbase]
    rw [safe_iff_of_error hread]
    exact iff_of_false (fun hright => nomatch hright.1) (fun hnot => hnot ⟨by omega, by omega⟩)
  obtain ⟨f, hrep⟩ := h.represents hbase
  rcases Nat.eq_zero_or_pos n with rfl | hn
  · by_cases hend : b.position = b.capacity
    · -- the current chunk is null
      have hread : b.read 0 = .error .nullNode := by
        unfold ByteArray.read
        rw [if_neg hthrow, if_neg hbase.ne', hrep.cur, if_pos hend]
      rw [safe_iff_of_error hread]
      exact iff_of_false (fun hright => nomatch hright.1) (fun hnot => hnot ⟨rfl, hend⟩)
    · have hread : b.read 0 = .ok ([], b) := by
        unfold ByteArray.read
        rw [if_neg hbase.ne', hrep.cur, if_neg hend]
        rfl
      rw [hread]
      exact iff_of_true ⟨safe_ok rfl, iff_of_false nofun hle⟩ fun hnot => hend hnot.2
  · have hf : n ≤ f.size - f.position := by
      rw [← hrep.size, ← hrep.position]
      omega
    obtain ⟨c, hread, -⟩ := read_represents hrep hn (dif_pos hf)
    rw [hread]
    exact iff_of_true ⟨safe_ok rfl, iff_of_false nofun hle⟩ fun hnot => hn.ne' hnot.1

theorem toNat_size_sub {n : ℕ} (hn : n < 2 ^ 64) (p : UInt64) :
    (UInt64.ofNat n - p).toNat = if p.toNat ≤ n then n - p.toNat else 2 ^ 64 + n - p.toNat := by
  have hp := p.toNat_lt
  rw [UInt64.toNat_sub, UInt64.toNat_ofNat', mod_eq_of_lt hn]
  split_ifs with hle
  · rw [show 2 ^ 64 - p.toNat + n = (n - p.toNat) + 2 ^ 64 by omega, add_mod_right, mod_eq_of_lt (by omega)]
  · omega

theorem Represents.drop_eq_nil {f : Flat} (h : Represents b f) (p : ℕ) : b.nodes.drop (p / b.baseSize) = [] ↔
    b.capacity ≤ p := by
  rw [drop_eq_nil_iff, le_div_iff_mul_le h.base_pos, ← h.capacity]

/-- the overload with a position throws exactly when the bytes end behind the stored ones, and is safe otherwise -/
def RightReadAt (b : ByteArray) (size position : UInt64) : Prop :=
  Safe (b.readAt size position) ∧ (b.readAt size position = .error .outOfRange ↔ b.size < position.toNat + size.toNat)

theorem readAt_ok {f : Flat} (h : Represents b f) {size position : UInt64}
    (htest : ¬ size > UInt64.ofNat b.size - position) (hlt : position.toNat < b.capacity)
    (hroom : position.toNat + size.toNat ≤ b.capacity) : ∃ bs, b.readAt size position = .ok bs := by
  unfold readAt
  rw [if_neg htest, if_neg h.base_pos.ne']
  split
  · next hnil => exact absurd ((h.drop_eq_nil _).1 hnil) (by omega)
  next node rest hnodes =>
  by_cases hzero : size = 0
  · exact ⟨[], if_pos hzero⟩
  have hpos : 0 < size.toNat := pos_of_ne_zero fun hnat => hzero (UInt64.toNat_inj.1 hnat)
  have hread := readNodes_ok h.base_pos (h.chunks_drop (position.toNat / b.baseSize))
    (mod_lt position.toNat h.base_pos).le hpos (h.offset hroom)
  rw [hnodes] at hread
  rw [if_neg hzero, hread]
  exact ⟨_, rfl⟩

theorem readNodes_ne_outOfRange {nodes : List (List UInt8)} {off n : ℕ} :
    readNodes nodes off n ≠ .error .outOfRange := by
  intro h
  induction nodes generalizing off n with
  | nil => cases h
  | cons node rest ih =>
    unfold readNodes at h
    by_cases hoff : off > node.length
    · rw [if_pos hoff] at h
      cases h
    by_cases hfit : node.length - off ≥ n
    · rw [if_neg hoff, if_pos hfit] at h
      cases h
    rw [if_neg hoff, if_neg hfit] at h
    split at h
    · next e herr => exact ih (herr.trans (congrArg Except.error (Except.error.inj h)))
    · cases h

theorem readAt_ne_outOfRange {size position : UInt64} (htest : ¬ size > UInt64.ofNat b.size - position) :
    b.readAt size position ≠ .error .outOfRange := by
  unfold readAt
  split_ifs
  · exact nofun
  · split
    · exact nofun
    · exact nofun
  split
  · exact nofun
  · split
    · next e herr => exact fun heq =>
        readNodes_ne_outOfRange (herr.trans (congrArg Except.error (Except.error.inj heq)))
    · exact nofun

theorem readAt_right_iff (h : b.Valid) (hcap : b.capacity < 2 ^ 64) (size position : UInt64) :
    b.RightReadAt size position ↔
      position.toNat ≤ b.size ∧ ¬ (size = 0 ∧ position.toNat = b.capacity) ∨
      2 ^ 64 + b.size < position.toNat + size.toNat := by
  have hsize := h.size_le
  have hsub := toNat_size_sub (hsize.trans_lt hcap) position
  have hplt := position.toNat_lt
  have hzero : size = 0 ↔ size.toNat = 0 := UInt64.toNat_inj.symm
  unfold RightReadAt
  by_cases hthrow : size > UInt64.ofNat b.size - position
  · have hread : b.readAt size position = .error .outOfRange := if_pos hthrow
    have hnat : (UInt64.ofNat b.size - position).toNat < size.toNat := UInt64.lt_iff_toNat_lt.1 hthrow
    rw [hsub] at hnat
    rw [safe_iff_of_error hread, hread, hzero]
    split_ifs at hnat with hle
    · exact iff_of_true ⟨rfl, iff_of_true rfl (by omega)⟩ (.inl ⟨hle, by omega⟩)
    · exact iff_of_true ⟨rfl, iff_of_true rfl (by omega)⟩ (.inr (by omega))
  have hnat : size.toNat ≤ (UInt64.ofNat b.size - position).toNat := by exact UInt64.not_lt.1 hthrow
  rw [hsub] at hnat
  by_cases hle : position.toNat ≤ b.size
  · rw [if_pos hle] at hnat
    rcases Nat.eq_zero_or_pos b.baseSize with hbase | hbase
    · obtain ⟨-, hnone, hnull⟩ := h.empty hbase
      have hread : b.readAt size position = .error .divByZero := by
        unfold readAt
        rw [if_neg hthrow, if_pos hbase]
      rw [safe_iff_of_error hread, hzero]
      exact iff_of_false (fun hright => nomatch hright.1) (by omega)
    obtain ⟨f, hrep⟩ := h.represents hbase
    by_cases hend : position.toNat = b.capacity
    · have hread : b.readAt size position = .error .nullNode := by
        unfold readAt
        rw [if_neg hthrow, if_neg hbase.ne', (hrep.drop_eq_nil _).2 hend.ge]
      rw [safe_iff_of_error hread, hzero]
      exact iff_of_false (fun hright => nomatch hright.1) (by omega)
    · obtain ⟨bs, hread⟩ := readAt_ok hrep hthrow (by omega) (by omega)
      rw [hread]
      exact iff_of_true ⟨safe_ok rfl, iff_of_false nofun (by omega)⟩ (.inl ⟨hle, fun hnot => hend hnot.2⟩)
  · -- the difference has wrapped around: nothing is thrown
    rw [if_neg hle] at hnat
    refine iff_of_false (fun hright => readAt_ne_outOfRange hthrow (hright.2.2 (by omega))) (by omega)

theorem getReadBuffers_safe (h : b.Valid) (len : ℕ) : Safe (b.getReadBuffers len) := by
  rcases Nat.eq_zero_or_pos b.baseSize with hbase | hbase
  · obtain ⟨hpos, hsize, -⟩ := h.empty hbase
    have hread : b.getReadSize = 0 := by
      unfold getReadSize
      omega
    refine safe_ok (a := []) ?_
    unfold getReadBuffers
    rw [if_pos]
    split_ifs <;> omega
  · obtain ⟨f, hrep⟩ := h.represents hbase
    obtain ⟨iovs, hok, -⟩ := getReadBuffers_represents hrep len
    exact safe_ok hok

theorem buffersFrom_cases {base : ℕ} {rest : List (List UInt8)} (hn : ∀ n ∈ rest, n.length = base) {i off len : ℕ}
    (hoff : off ≤ base) (hpos : 0 < len) :
    (∃ iovs, buffersFrom rest i off len = .ok iovs) ∧ off + len ≤ rest.length * base ∨
      buffersFrom rest i off len = .error .nullNode ∧ rest.length * base < off + len := by
  induction rest generalizing i off len with
  | nil =>
    rw [length_nil]
    exact .inr ⟨rfl, by omega⟩
  | cons node rest ih =>
    have hnode : node.length = base := hn node mem_cons_self
    rw [length_cons, succ_mul]
    simp only [buffersFrom, hnode, if_neg (not_lt.2 hoff)]
    by_cases hfit : base - off ≥ len
    · exact .inl ⟨⟨_, if_pos hfit⟩, by omega⟩
    rw [if_neg hfit]
    rcases ih (fun n hmem => hn n (mem_cons_of_mem node hmem)) (i := i + 1) (zero_le base)
      (show 0 < len - (base - off) by omega) with ⟨⟨iovs, hok⟩, hroom⟩ | ⟨herr, hroom⟩
    · rw [hok]
      exact .inl ⟨⟨_, rfl⟩, by omega⟩
    · rw [herr]
      exact .inr ⟨rfl, by omega⟩

theorem getReadBuffersAt_safe_iff (h : b.Valid) (len position : UInt64) :
    Safe (b.getReadBuffersAt len position) ↔
      min len.toNat b.getReadSize = 0 ∨ position.toNat + min len.toNat b.getReadSize ≤ b.capacity := by
  have hmin : (if len.toNat > b.getReadSize then b.getReadSize else len.toNat) = min len.toNat b.getReadSize := by
    split_ifs <;> omega
  unfold getReadBuffersAt
  simp only [hmin]
  by_cases hzero : min len.toNat b.getReadSize = 0
  · rw [if_pos hzero]
    exact iff_of_true (safe_ok rfl) (.inl hzero)
  have hbase : 0 < b.baseSize := by
    rw [pos_iff_ne_zero]
    intro hbase
    obtain ⟨-, hsize, -⟩ := h.empty hbase
    unfold getReadSize at hzero
    omega
  obtain ⟨f, hrep⟩ := h.represents hbase
  rw [if_neg hzero, if_neg hbase.ne']
  split
  · next hnil =>
    have hend := (hrep.drop_eq_nil _).1 hnil
    exact iff_of_false nofun (by omega)
  next node rest hnodes =>
  have hlen : (node :: rest).length * b.baseSize = b.capacity - position.toNat / b.baseSize * b.baseSize := by
    rw [← hnodes, length_drop, Nat.sub_mul, ← hrep.capacity]
  have hmod := div_add_mod' position.toNat b.baseSize
  have hchunks := hrep.chunks_drop (position.toNat / b.baseSize)
  rw [hnodes] at hchunks
  rcases buffersFrom_cases hchunks (i := position.toNat / b.baseSize) (mod_lt position.toNat hbase).le
    (pos_of_ne_zero hzero) with ⟨⟨iovs, hok⟩, hroom⟩ | ⟨herr, hroom⟩
  · exact iff_of_true (safe_ok hok) (by omega)
  · rw [safe_iff_of_error herr]
    exact iff_of_false nofun (by omega)

/-- **Reads at the edges.** `_capacity` is a `size_t`. -/
theorem reads_iff {b : ByteArray} (h : Reachable b) (hcap : b.capacity < 2 ^ 64) (size position : UInt64) :
    (b.RightRead size.toNat ↔ ¬ (size = 0 ∧ b.position = b.capacity)) ∧
      (b.RightReadAt size position ↔
        position.toNat ≤ b.size ∧ ¬ (size = 0 ∧ position.toNat = b.capacity) ∨
        2 ^ 64 + b.size < position.toNat + size.toNat) ∧
      Safe (b.getReadBuffers size.toNat) ∧
      (Safe (b.getReadBuffersAt size position) ↔
        min size.toNat b.getReadSize = 0 ∨ position.toNat + min size.toNat b.getReadSize ≤ b.capacity) := by
  have hvalid := reachable_valid h
  have hzero : size = 0 ↔ size.toNat = 0 := UInt64.toNat_inj.symm
  refine ⟨?_, readAt_right_iff hvalid hcap size position, getReadBuffers_safe hvalid _,
    getReadBuffersAt_safe_iff hvalid size position⟩
  rw [hzero]
  exact read_right_iff hvalid _

/-- two bytes in a chunk of four, the cursor at the first -/
def twoBytes : ByteArray :=
  { baseSize := 4, position := 0, capacity := 4, size := 2, endian := .big, nodes := [[1, 2, 0, 0]], cur := some 0 }

theorem twoBytes_reachable : Reachable twoBytes := by
  have hwrite : (make 4).write [1, 2] = .ok { twoBytes with position := 2 } := rfl
  exact ((Reachable.make 4).write hwrite).setPosition (v := 0) rfl

/-- a buffer of four bytes, the cursor at the end -/
def atEnd : ByteArray :=
  { baseSize := 4, position := 4, capacity := 4, size := 4, endian := .big, nodes := [[0, 0, 0, 0]], cur := none }

theorem atEnd_reachable : Reachable atEnd := (Reachable.make 4).setPosition (v := 4) rfl

theorem reads_of_twoBytes : twoBytes.RightRead 2 ∧ twoBytes.RightReadAt 1 1 ∧ Safe (twoBytes.getReadBuffersAt 2 2) := by
  obtain ⟨hread, -⟩ := reads_iff twoBytes_reachable (by decide) 2 0
  obtain ⟨-, hat, -⟩ := reads_iff twoBytes_reachable (by decide) 1 1
  obtain ⟨-, -, -, hbuffers⟩ := reads_iff twoBytes_reachable (by decide) 2 2
  exact ⟨hread.2 (by decide), hat.2 (by decide), hbuffers.2 (by decide)⟩

/-- **At the edges.** -/
theorem edge_faults :
    Reachable atEnd ∧ atEnd.read 0 = .error .nullNode ∧
      Reachable twoBytes ∧ twoBytes.readAt 1 3 = .ok [0] ∧ twoBytes.readAt 1 8 = .error .nullNode ∧
      twoBytes.getReadBuffersAt 2 3 = .error .nullNode :=
  ⟨atEnd_reachable, by decide, twoBytes_reachable, by decide, by decide, by decide⟩

end CoServer.ByteArray
