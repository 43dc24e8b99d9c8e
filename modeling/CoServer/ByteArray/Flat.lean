/-
The flat buffer that a `ByteArray` stands for: one list of bytes up to the capacity, a cursor, and a size
(`Represents`). Each operation does on the chunks what the flat one does, throws exactly when that one fails, and never
goes through a null pointer or beyond a chunk.

Results:
- `refines_flat`: so does every sequence of operations on a new buffer, if each read is of at least one byte and each
  write of less than 2^53.
-/
import CoServer.ByteArray.Machine
import CoServer.Core.Refine

namespace CoServer.ByteArray

open CoServer.Core List Nat

/-! ## Flat buffers -/

structure Flat where
  base : ℕ
  /-- the bytes up to the capacity -/
  data : List UInt8
  position : ℕ
  size : ℕ
  base_pos : 0 < base
  whole : base ∣ data.length
  pos_le : position ≤ size
  size_le : size ≤ data.length

open Flat

namespace Flat

/-- the least multiple of the base size that is at least `n` -/
def roundUp (base n : ℕ) : ℕ := (n + base - 1) / base * base

theorem le_roundUp {base : ℕ} (h : 0 < base) (n : ℕ) : n ≤ roundUp base n := by
  unfold roundUp
  have := lt_div_mul_add (a := n + base - 1) h
  omega

theorem dvd_roundUp (base n : ℕ) : base ∣ roundUp base n := Dvd.intro_left _ rfl

theorem roundUp_add {base : ℕ} (h : 0 < base) (L s : ℕ) :
    roundUp base (L * base + s) = L * base + (s + base - 1) / base * base := by
  unfold roundUp
  rw [show L * base + s + base - 1 = (s + base - 1) + L * base by omega, add_mul_div_right _ _ h]
  ring

theorem roundUp_le {base L n : ℕ} (h : 0 < base) (hn : n ≤ L * base) : roundUp base n ≤ L * base := by
  refine mul_le_mul_right base ?_
  have : (n + base - 1) / base < L + 1 := by
    rw [div_lt_iff_lt_mul h, add_mul]
    omega
  omega

def make (base : ℕ) (h : 0 < base) : Flat where
  base := base
  data := replicate base 0
  position := 0
  size := 0
  base_pos := h
  whole := by simp
  pos_le := le_rfl
  size_le := zero_le _

variable (f : Flat)

/-- the same buffer with room for the first `n` bytes -/
def reserve (n : ℕ) : Flat where
  base := f.base
  data := f.data ++ replicate (roundUp f.base n - f.data.length) 0
  position := f.position
  size := f.size
  base_pos := f.base_pos
  whole := by
    rw [length_append, length_replicate]
    rcases le_total (roundUp f.base n) f.data.length with h | h
    · rw [Nat.sub_eq_zero_of_le h, Nat.add_zero]; exact f.whole
    · rw [Nat.add_sub_cancel' h]; exact dvd_roundUp f.base n
  pos_le := f.pos_le
  size_le := f.size_le.trans (by simp)

theorem le_length_reserve (n : ℕ) : n ≤ (f.reserve n).data.length := by
  have := le_roundUp f.base_pos n
  simp only [reserve, length_append, length_replicate]
  omega

def write (bs : List UInt8) : Flat where
  base := f.base
  data := splice (f.reserve (f.position + bs.length)).data f.position bs
  position := f.position + bs.length
  size := max f.size (f.position + bs.length)
  base_pos := f.base_pos
  whole := by rw [length_splice (f.le_length_reserve _)]; exact (f.reserve _).whole
  pos_le := le_max_right _ _
  size_le := by
    rw [length_splice (f.le_length_reserve _)]
    exact max_le (f.reserve _).size_le (f.le_length_reserve _)

def read (n : ℕ) : Option (List UInt8 × Flat) :=
  if h : n ≤ f.size - f.position then
    some ((f.data.drop f.position).take n,
      { f with
        position := f.position + n
        pos_le := by have := f.pos_le; omega })
  else none

def setPosition (v : ℕ) : Option Flat :=
  if h : v ≤ f.data.length then
    some { f with
      position := v
      size := max f.size v
      pos_le := le_max_right _ _
      size_le := max_le f.size_le h }
  else none

def clear : Flat where
  base := f.base
  data := f.data.take f.base
  position := 0
  size := 0
  base_pos := f.base_pos
  whole := by
    rw [length_take]
    rcases Nat.eq_zero_or_pos f.data.length with h | h
    · rw [h, min_zero]; exact dvd_zero _
    · rw [min_eq_left (le_of_dvd h f.whole)]
  pos_le := le_rfl
  size_le := zero_le _

end Flat

/-! ## Representation -/

/-- the chunks of `b` in a row are the bytes of `f`, and the fields agree -/
structure Represents (b : ByteArray) (f : Flat) : Prop where
  base : b.baseSize = f.base
  chunks : ∀ n ∈ b.nodes, n.length = b.baseSize
  data : b.nodes.flatten = f.data
  root : b.nodes ≠ []
  capacity : b.capacity = b.nodes.length * b.baseSize
  position : b.position = f.position
  size : b.size = f.size
  cur : b.cur = if b.position = b.capacity then none else some (b.position / b.baseSize)

variable {b : ByteArray} {f : Flat} {base n : ℕ} {nodes : List (List UInt8)} {bs : List UInt8}

section

variable (h : ∀ n ∈ nodes, n.length = base)
include h

theorem length_flatten_chunks : nodes.flatten.length = nodes.length * base := by
  induction nodes with
  | nil => simp
  | cons n nodes ih =>
    rw [flatten_cons, length_append, h n mem_cons_self, ih fun m hm => h m (mem_cons_of_mem n hm), length_cons]
    ring

theorem sum_take_lengths (c : ℕ) : ((nodes.map length).take c).sum = min (c * base) nodes.flatten.length := by
  have hall : nodes.map length = replicate nodes.length base :=
    eq_replicate_iff.2 ⟨length_map _, forall_mem_map.2 h⟩
  rw [length_flatten_chunks h, hall, take_replicate, sum_replicate, smul_eq_mul, Nat.mul_min_mul_right]

theorem flatten_drop (c : ℕ) : (nodes.drop c).flatten = nodes.flatten.drop (c * base) := by
  rw [← drop_sum_flatten, sum_take_lengths h, ← drop_eq_drop_min]

theorem flatten_take (c : ℕ) : (nodes.take c).flatten = nodes.flatten.take (c * base) := by
  rw [← take_sum_flatten, sum_take_lengths h, ← take_eq_take_min]

end

theorem Represents.length_data (h : Represents b f) : f.data.length = b.capacity := by
  rw [← h.data, length_flatten_chunks h.chunks, h.capacity]

/-! ## The loops on the chunks -/

section

variable (hbase : 0 < base)
include hbase

theorem chunk_end {m : ℕ} (hm : m ≤ base) : (if base = m then 1 else 0) = m / base := by
  by_cases heq : base = m
  · rw [if_pos heq, ← heq, Nat.div_self hbase]
  · rw [if_neg heq, div_eq_of_lt (by omega)]

variable (hn : ∀ n ∈ nodes, n.length = base)
include hn

theorem writeNodes_ok {off : ℕ} (hoff : off ≤ base) (hbs : 0 < bs.length)
    (hroom : off + bs.length ≤ nodes.length * base) :
    ∃ nodes', writeNodes nodes off bs = .ok (nodes', (off + bs.length) / base) ∧
      nodes'.flatten = splice nodes.flatten off bs ∧
      (∀ n ∈ nodes', n.length = base) ∧ nodes'.length = nodes.length := by
  induction nodes generalizing off bs with
  | nil => rw [length_nil] at hroom; omega
  | cons node rest ih =>
    have hnode : node.length = base := hn node mem_cons_self
    have hrest : ∀ n ∈ rest, n.length = base := fun n h => hn n (mem_cons_of_mem node h)
    rw [length_cons, succ_mul] at hroom
    simp only [writeNodes, hnode, if_neg (not_lt.2 hoff)]
    by_cases hfit : base - off ≥ bs.length
    · -- the bytes end in this chunk
      have hlen : off + bs.length ≤ node.length := by omega
      rw [if_pos hfit, chunk_end hbase (by omega)]
      refine ⟨splice node off bs :: rest, rfl, ?_, ?_, ?_⟩
      · rw [flatten_cons, flatten_cons, splice_append_left hlen]
      · refine forall_mem_cons.2 ⟨?_, hrest⟩
        rw [length_splice hlen, hnode]
      · simp
    · -- the chunk is filled up, and the loop goes on with the next one
      have htake : (bs.take (base - off)).length = base - off := by rw [length_take]; omega
      have hdrop : (bs.drop (base - off)).length = bs.length - (base - off) := length_drop
      rw [if_neg hfit]
      obtain ⟨rest', h1, h2, h3, h4⟩ :=
        ih hrest (zero_le base) (show 0 < (bs.drop (base - off)).length by omega) (by omega)
      refine ⟨splice node off (bs.take (base - off)) :: rest', ?_, ?_, ?_, ?_⟩
      · rw [h1]
        rw [hdrop, show off + bs.length = (0 + (bs.length - (base - off))) + base by omega, add_div_right _ hbase]
      · rw [flatten_cons, flatten_cons, h2, splice_append_across (by omega) (by omega), hnode]
      · refine forall_mem_cons.2 ⟨?_, h3⟩
        rw [length_splice (by omega), hnode]
      · simp [h4]

theorem readNodes_ok {off : ℕ} (hoff : off ≤ base) (hpos : 0 < n) (hroom : off + n ≤ nodes.length * base) :
    readNodes nodes off n = .ok ((nodes.flatten.drop off).take n, (off + n) / base) := by
  induction nodes generalizing off n with
  | nil => rw [length_nil] at hroom; omega
  | cons node rest ih =>
    have hnode : node.length = base := hn node mem_cons_self
    have hrest : ∀ n ∈ rest, n.length = base := fun n h => hn n (mem_cons_of_mem node h)
    rw [length_cons, succ_mul] at hroom
    simp only [readNodes, hnode, if_neg (not_lt.2 hoff), flatten_cons]
    by_cases hfit : base - off ≥ n
    · rw [if_pos hfit, chunk_end hbase (by omega), drop_take_within (by omega)]
    · rw [if_neg hfit, ih hrest (zero_le _) (by omega) (by omega), drop_take_across (by omega) (by omega),
        hnode, drop_zero]
      rw [show off + n = (0 + (n - (base - off))) + base by omega, add_div_right _ hbase]

theorem seekNodes_ok (hroot : nodes ≠ []) {v : ℕ} (hv : v ≤ nodes.length * base) :
    seekNodes nodes v = .ok (v / base) := by
  induction nodes generalizing v with
  | nil => exact absurd rfl hroot
  | cons node rest ih =>
    have hnode : node.length = base := hn node mem_cons_self
    rw [length_cons, succ_mul] at hv
    simp only [seekNodes, hnode]
    by_cases hgt : v > base
    · have hne : rest ≠ [] := by rintro rfl; simp at hv; omega
      rw [if_pos hgt, ih (fun n h => hn n (mem_cons_of_mem node h)) hne (by omega)]
      conv_rhs => rw [show v = (v - base) + base by omega, add_div_right _ hbase]
    · rw [if_neg hgt, ← chunk_end hbase (by omega)]
      simp only [eq_comm]

end

/-! ## Operations -/

theorem make_represents (h : 0 < base) : Represents (make base) (Flat.make base h) := by
  refine ⟨rfl, by simp [make, newNode], by simp [make, newNode, Flat.make], by simp [make],
    by simp [make], rfl, rfl, ?_⟩
  simp [make, h.ne]

theorem node_div (hbase : 0 < b.baseSize) (hcap : b.capacity = b.nodes.length * b.baseSize) {p : ℕ}
    (hp : p ≤ b.capacity) : b.node (p / b.baseSize) = if p = b.capacity then none else some (p / b.baseSize) := by
  unfold node
  by_cases heq : p = b.capacity
  · rw [if_pos heq, heq, hcap, Nat.mul_div_cancel _ hbase, if_neg (lt_irrefl _)]
  · rw [if_neg heq, if_pos]
    rw [div_lt_iff_lt_mul hbase]
    omega

theorem div_advance (hbase : 0 < base) (p n : ℕ) : (p + n) / base = p / base + (p % base + n) / base := by
  conv_lhs => rw [← div_add_mod' p base, add_assoc, add_comm, add_mul_div_right _ _ hbase]
  exact add_comm _ _

section

variable (h : Represents b f)
include h

theorem Represents.base_pos : 0 < b.baseSize := h.base ▸ f.base_pos

theorem Represents.pos_le : b.position ≤ b.capacity := by
  have h1 := f.pos_le
  have h2 := f.size_le
  rw [h.length_data] at h2
  rw [h.position]
  omega

theorem addCapacity_represents (hn : n < 2 ^ 53) :
    Represents (b.addCapacity n) (f.reserve (f.position + n)) ∧ (b.addCapacity n).endian = b.endian := by
  have hbase := h.base_pos
  have hlen := h.length_data
  have hpos := h.pos_le
  have hcap := h.capacity
  unfold addCapacity
  by_cases hroom : b.getCapacity ≥ n
  · -- there is room already
    have hsame : roundUp f.base (f.position + n) - f.data.length = 0 := by
      refine Nat.sub_eq_zero_of_le ?_
      rw [hlen, hcap, h.base]
      refine roundUp_le f.base_pos ?_
      rw [← h.base, ← h.position]
      unfold getCapacity at hroom
      omega
    have hrep : Represents b (f.reserve (f.position + n)) := by
      refine ⟨h.base, h.chunks, ?_, h.root, h.capacity, h.position, h.size, h.cur⟩
      simp only [reserve, hsame, replicate_zero, append_nil]
      exact h.data
    split_ifs
    all_goals exact ⟨hrep, rfl⟩
  · have hs0 : 0 < n - b.getCapacity := by omega
    have hcount := Double.ceilDiv_eq hs0 (show n - b.getCapacity < 2 ^ 53 by omega) hbase
    rw [if_neg (by omega), if_neg hroom]
    simp only [hcount]
    have hpos0 : 0 < (n - b.getCapacity + b.baseSize - 1) / b.baseSize := div_pos (by omega) hbase
    -- the flat buffer grows by as many bytes
    have hgrow : roundUp f.base (f.position + n) - f.data.length =
        (n - b.getCapacity + b.baseSize - 1) / b.baseSize * b.baseSize := by
      have hsum : f.position + n = b.nodes.length * f.base + (n - b.getCapacity) := by
        rw [← h.position, ← h.base]
        unfold getCapacity at hroom ⊢
        omega
      rw [hsum, roundUp_add f.base_pos, hlen, hcap, h.base]
      omega
    generalize (n - b.getCapacity + b.baseSize - 1) / b.baseSize = count at hpos0 hgrow ⊢
    have hle : b.baseSize ≤ count * b.baseSize := Nat.le_mul_of_pos_left _ hpos0
    refine ⟨⟨h.base, fun m hm => ?_, ?_, ?_, ?_, h.position, h.size, ?_⟩, trivial⟩
    · rcases mem_append.1 hm with hm | hm
      · exact h.chunks m hm
      · rw [eq_of_mem_replicate hm, newNode, length_replicate]
    · simp [reserve, hgrow, h.data, newNode]
    · exact append_ne_nil_of_left_ne_nil h.root _
    · simp only [length_append, length_replicate, hcap]
      ring
    -- the new chunks come behind the cursor
    have hne : b.position ≠ b.capacity + count * b.baseSize := by omega
    simp only [if_neg hne]
    by_cases hfull : b.getCapacity = 0
    · have hend : b.position = b.nodes.length * b.baseSize := by
        unfold getCapacity at hfull
        omega
      rw [if_pos hfull, if_neg hpos0.ne', hend, Nat.mul_div_cancel _ hbase]
    · rw [if_neg hfull, h.cur, if_neg]
      unfold getCapacity at hfull
      omega

theorem Represents.length_take_nodes : (b.nodes.take (b.position / b.baseSize)).length = b.position / b.baseSize := by
  rw [length_take, min_eq_left]
  refine Nat.div_le_of_le_mul ?_
  rw [Nat.mul_comm, ← h.capacity]
  exact h.pos_le

theorem Represents.offset {p : ℕ} (hroom : p + n ≤ b.capacity) :
    p % b.baseSize + n ≤ (b.nodes.drop (p / b.baseSize)).length * b.baseSize := by
  have := div_add_mod' p b.baseSize
  rw [length_drop, Nat.sub_mul, ← h.capacity]
  omega

theorem Represents.chunks_drop (k : ℕ) : ∀ n ∈ b.nodes.drop k, n.length = b.baseSize :=
  fun n hn => h.chunks n (mem_of_mem_drop hn)

/-- the nodes from the position on are replaced by an overwritten copy -/
theorem Represents.overwrite {rest' : List (List UInt8)} {k : ℕ} (hk : k = b.position / b.baseSize)
    (hflat : rest'.flatten = splice (b.nodes.drop k).flatten (b.position % b.baseSize) bs)
    (hchunks : ∀ n ∈ rest', n.length = b.baseSize) (hlen : rest'.length = (b.nodes.drop k).length) :
    (b.nodes.take k ++ rest').flatten = splice f.data f.position bs ∧
      (∀ n ∈ b.nodes.take k ++ rest', n.length = b.baseSize) ∧
      (b.nodes.take k ++ rest').length = b.nodes.length := by
  refine ⟨?_, ?_, ?_⟩
  · have hpos : k * b.baseSize + b.position % b.baseSize = b.position := hk ▸ div_add_mod' _ _
    have htake : (b.nodes.take k).flatten.length = k * b.baseSize := by
      rw [length_flatten_chunks fun n hn => h.chunks n (mem_of_mem_take hn), hk, h.length_take_nodes]
    calc (b.nodes.take k ++ rest').flatten
        = (b.nodes.take k).flatten ++ splice (b.nodes.drop k).flatten (b.position % b.baseSize) bs := by
          rw [flatten_append, hflat]
      _ = splice b.nodes.flatten b.position bs := by
          rw [← congrArg flatten (take_append_drop k b.nodes), flatten_append, splice_append_right (by omega)]
          congr 2
          omega
      _ = splice f.data f.position bs := by rw [h.data, h.position]
  · intro n hn
    rcases mem_append.1 hn with hn | hn
    · exact h.chunks n (mem_of_mem_take hn)
    · exact hchunks n hn
  · rw [length_append, hlen, ← length_append, take_append_drop]

theorem Represents.root_of_length (hlen : nodes.length = b.nodes.length) : nodes ≠ [] := by
  intro hnil
  exact h.root (length_eq_zero_iff.1 (hlen.symm.trans (congrArg List.length hnil)))

theorem write_of_addCapacity (hr : Represents (b.addCapacity bs.length) (f.reserve (f.position + bs.length)))
    (hend : (b.addCapacity bs.length).endian = b.endian) :
    ∃ b', b.write bs = .ok b' ∧ Represents b' (f.write bs) ∧ b'.endian = b.endian := by
  unfold write
  by_cases hnil : bs = []
  · subst hnil
    refine ⟨b, by simp, ⟨hr.base, hr.chunks, ?_, hr.root, hr.capacity, h.position, ?_, hr.cur⟩, rfl⟩
    · simp only [Flat.write, splice_nil]
      exact hr.data
    · simp only [Flat.write, length_nil, Nat.add_zero, max_eq_left f.pos_le]
      exact h.size
  · have hlen : 0 < bs.length := length_pos_of_ne_nil hnil
    have hbase := hr.base_pos
    have hcap := hr.capacity
    have hroom : (b.addCapacity bs.length).position + bs.length ≤ (b.addCapacity bs.length).capacity := by
      rw [hr.position, ← hr.length_data]
      exact f.le_length_reserve _
    have hcur := hr.cur
    rw [if_neg (by omega)] at hcur
    rw [if_neg hnil]
    simp only [if_neg hbase.ne', hcur]
    generalize b.addCapacity bs.length = b1 at hr hend hbase hcap hroom hcur ⊢
    obtain ⟨nodes', h1, h2, h3, h4⟩ := writeNodes_ok hbase (hr.chunks_drop (b1.position / b1.baseSize))
      (mod_lt b1.position hbase).le hlen (hr.offset hroom)
    obtain ⟨hflat, hchunks, hnodes⟩ := hr.overwrite rfl h2 h3 h4
    rw [h1]
    refine ⟨_, rfl, ⟨hr.base, hchunks, hflat, hr.root_of_length hnodes, by rw [hnodes]; exact hcap, ?_, ?_, ?_⟩, hend⟩
    · rw [hr.position]; rfl
    · rw [hr.position, hr.size]; rfl
    · simp only [← div_advance hbase, node_div hbase hcap hroom]

theorem write_represents (hbs : bs.length < 2 ^ 53) : ∃ b', b.write bs = .ok b' ∧ Represents b' (f.write bs) ∧
    b'.endian = b.endian := by
  obtain ⟨hr, hend⟩ := addCapacity_represents h hbs
  exact write_of_addCapacity h hr hend

theorem read_represents (hn : 0 < n) {f' : Flat}
    (hf : f.read n = some (bs, f')) : ∃ b', b.read n = .ok (bs, b') ∧ Represents b' f' ∧ b'.endian = b.endian := by
  have hbase := h.base_pos
  have hcap := h.capacity
  unfold Flat.read at hf
  split_ifs at hf with hle
  cases hf
  have hroom : b.position + n ≤ b.capacity := by
    have h1 := f.size_le
    rw [h.length_data] at h1
    rw [h.position]
    omega
  have hcur := h.cur
  rw [if_neg (by omega)] at hcur
  have hread := readNodes_ok hbase (h.chunks_drop (b.position / b.baseSize))
    (mod_lt b.position hbase).le hn (h.offset hroom)
  have hbytes : ((b.nodes.drop (b.position / b.baseSize)).flatten.drop (b.position % b.baseSize)).take n =
      (f.data.drop f.position).take n := by
    rw [flatten_drop h.chunks, drop_drop, div_add_mod', h.data, h.position]
  rw [hbytes] at hread
  unfold read
  have hle' : ¬ n > b.getReadSize := by
    unfold getReadSize
    rw [h.position, h.size]
    omega
  rw [if_neg hle']
  simp only [if_neg hbase.ne', hcur, if_neg hn.ne', hread]
  refine ⟨_, rfl, ⟨h.base, h.chunks, h.data, h.root, h.capacity, ?_, h.size, ?_⟩, rfl⟩
  · rw [h.position]
  · simp only [← div_advance hbase, node_div hbase hcap hroom]

theorem read_throws (hf : f.read n = none) : b.read n = .error .outOfRange := by
  unfold Flat.read at hf
  split_ifs at hf with hle
  unfold read
  rw [if_pos]
  unfold getReadSize
  rw [h.position, h.size]
  omega

theorem setPosition_represents {v : ℕ} {f' : Flat}
    (hf : f.setPosition v = some f') : ∃ b', b.setPosition v = .ok b' ∧ Represents b' f' ∧ b'.endian = b.endian := by
  unfold Flat.setPosition at hf
  split_ifs at hf with hle
  cases hf
  rw [h.length_data] at hle
  have hseek := seekNodes_ok h.base_pos h.chunks h.root (v := v) (by rw [← h.capacity]; exact hle)
  unfold setPosition
  rw [if_neg (by omega), hseek]
  refine ⟨_, rfl, ⟨h.base, h.chunks, h.data, h.root, h.capacity, rfl, ?_, ?_⟩, rfl⟩
  · rw [h.size]
  · exact node_div h.base_pos h.capacity hle

theorem setPosition_throws {v : ℕ} (hf : f.setPosition v = none) : b.setPosition v = .error .outOfRange := by
  unfold Flat.setPosition at hf
  split_ifs at hf with hle
  rw [h.length_data] at hle
  unfold setPosition
  rw [if_pos (by omega)]

theorem clear_represents : Represents b.clear f.clear ∧ b.clear.endian = b.endian := by
  have hlen : (b.nodes.take 1).length = 1 := by rw [length_take, min_eq_left (length_pos_of_ne_nil h.root)]
  refine ⟨⟨h.base, fun n hn => h.chunks n (mem_of_mem_take hn), ?_, ?_, ?_, rfl, rfl, ?_⟩, rfl⟩
  · simp only [clear, Flat.clear]
    rw [flatten_take h.chunks, h.data, one_mul, h.base]
  · exact fun hnil => absurd (congrArg List.length hnil) (by simp only [clear, hlen, length_nil]; omega)
  · simp [clear, hlen]
  · simp only [clear, Nat.zero_div]
    rw [if_neg h.base_pos.ne]

end

/-! ## Sequences of operations -/

inductive Op where
  | write (bs : List UInt8)
  | read (n : ℕ)
  | setPosition (v : ℕ)
  | clear
deriving DecidableEq

/-- what the caller sees -/
inductive Out where
  | done
  | bytes (bs : List UInt8)
  | thrown
deriving DecidableEq

/-- one operation; the caller catches `std::out_of_range`, and every other fault is `none` -/
def exec (b : ByteArray) : Op → Option (ByteArray × Out)
  | .write bs =>
    match b.write bs with
    | .ok b' => some (b', .done)
    | .error .outOfRange => some (b, .thrown)
    | .error _ => none
  | .read n =>
    match b.read n with
    | .ok (bs, b') => some (b', .bytes bs)
    | .error .outOfRange => some (b, .thrown)
    | .error _ => none
  | .setPosition v =>
    match b.setPosition v with
    | .ok b' => some (b', .done)
    | .error .outOfRange => some (b, .thrown)
    | .error _ => none
  | .clear => some (b.clear, .done)

namespace Flat

def exec (f : Flat) : Op → Flat × Out
  | .write bs => (f.write bs, .done)
  | .read n =>
    match f.read n with
    | some (bs, f') => (f', .bytes bs)
    | none => (f, .thrown)
  | .setPosition v =>
    match f.setPosition v with
    | some f' => (f', .done)
    | none => (f, .thrown)
  | .clear => (f.clear, .done)

end Flat

/-- a write of less than `2 ^ 53` bytes, a read of at least one -/
def Op.Sized : Op → Prop
  | .write bs => bs.length < 2 ^ 53
  | .read n => 1 ≤ n
  | .setPosition _ | .clear => True

instance : (o : Op) → Decidable o.Sized
  | .write bs => inferInstanceAs (Decidable (bs.length < 2 ^ 53))
  | .read n => inferInstanceAs (Decidable (1 ≤ n))
  | .setPosition _ | .clear => isTrue trivial

theorem exec_simulates : Simulates Represents exec Flat.exec fun _ o => o.Sized := by
  intro b f o h ho
  cases o with
  | write bs =>
    obtain ⟨b', h1, h2, -⟩ := write_represents h ho
    exact ⟨b', by simp only [exec, h1, Flat.exec], h2⟩
  | read n =>
    cases hf : f.read n with
    | none => exact ⟨b, by simp only [exec, read_throws h hf, Flat.exec, hf], by simpa only [Flat.exec, hf] using h⟩
    | some r =>
      obtain ⟨b', h1, h2, -⟩ := read_represents h ho hf
      exact ⟨b', by simp only [exec, h1, Flat.exec, hf], by simpa only [Flat.exec, hf] using h2⟩
  | setPosition v =>
    cases hf : f.setPosition v with
    | none =>
      exact ⟨b, by simp only [exec, setPosition_throws h hf, Flat.exec, hf], by simpa only [Flat.exec, hf] using h⟩
    | some f' =>
      obtain ⟨b', h1, h2, -⟩ := setPosition_represents h hf
      exact ⟨b', by simp only [exec, h1, Flat.exec, hf], by simpa only [Flat.exec, hf] using h2⟩
  | clear => exact ⟨b.clear, rfl, (clear_represents h).1⟩

/-- **A `ByteArray` is a flat buffer.** For every base size of at least 1 and every sequence of writes, reads of at
least one byte, `setPosition` and `clear` on a new buffer: no operation goes through a null pointer or beyond a chunk,
the caller sees what the flat buffer gives, throws included, and the buffer represents the flat one: the capacity is the
number of chunks times the base size, the cursor is at most the size and that at most the capacity, and the current
chunk is the one of the cursor, null exactly at the end. -/
theorem refines_flat (base : ℕ) (hbase : 0 < base) (ops : List Op) (hops : ∀ o ∈ ops, o.Sized) :
    ∃ b, Core.exec exec (make base) ops = some (b, (play Flat.exec (Flat.make base hbase) ops).2) ∧
      Represents b (play Flat.exec (Flat.make base hbase) ops).1 ∧ b.position ≤ b.size ∧ b.size ≤ b.capacity := by
  obtain ⟨b, h1, h2⟩ := exec_simulates.exec_eq (make_represents hbase) (meets_of_forall hops _)
  refine ⟨b, h1, h2, ?_, ?_⟩
  · rw [h2.position, h2.size]; exact pos_le _
  · rw [h2.size, ← h2.length_data]; exact size_le _

/-- over two chunks and back, up to the end, beyond it, and after a clear -/
def acrossChunks : List Op :=
  [.write [1, 2, 3, 4, 5], .setPosition 2, .read 3, .read 1, .setPosition 8, .clear, .setPosition 5, .setPosition 2]

theorem refines_flat_across : ∃ b,
    Core.exec exec (make 4) acrossChunks =
        some (b, [.done, .done, .bytes [3, 4, 5], .thrown, .done, .done, .thrown, .done]) ∧
      b.position = 2 ∧ b.size = 2 ∧ b.capacity = 4 := by
  obtain ⟨b, h1, h2, -⟩ := refines_flat 4 (by decide) acrossChunks (by decide)
  refine ⟨b, h1, h2.position, h2.size, ?_⟩
  rw [← h2.length_data]
  rfl

end CoServer.ByteArray
