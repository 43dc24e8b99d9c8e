/-
The scatter lists of a `ByteArray` (`getReadBuffers`, `getWriteBuffers`): the stretches of its chunks from the cursor
on, for a call that reads from them or stores into them. `getReadBuffers_represents` and `getWriteBuffers_represents`:
they are the readable bytes, and to store into them is to write.
-/
import CoServer.ByteArray.Flat

namespace CoServer.ByteArray

open CoServer.Core List

/-- `iovec`: so many bytes of a chunk -/
structure Iovec where
  node : ℕ
  offset : ℕ
  len : ℕ
deriving DecidableEq

/-- the loop of `getReadBuffers` and of `getWriteBuffers`, from the node with this index on -/
def buffersFrom : List (List UInt8) → ℕ → ℕ → ℕ → Except Fault (List Iovec)
  | [], _, _, _ => .error .nullNode
  | node :: rest, i, nodeOffset, len =>
    if nodeOffset > node.length then .error .outOfChunk
    else if node.length - nodeOffset ≥ len then .ok [⟨i, nodeOffset, len⟩]
    else
      match buffersFrom rest (i + 1) 0 (len - (node.length - nodeOffset)) with
      | .error e => .error e
      | .ok iovs => .ok (⟨i, nodeOffset, node.length - nodeOffset⟩ :: iovs)

def getReadBuffers (b : ByteArray) (len : ℕ) : Except Fault (List Iovec) :=
  let len := if len > b.getReadSize then b.getReadSize else len
  if len = 0 then .ok []
  else if b.baseSize = 0 then .error .divByZero
  else
    match b.cur with
    | none => .error .nullNode
    | some c => buffersFrom (b.nodes.drop c) c (b.position % b.baseSize) len

def getWriteBuffers (b : ByteArray) (len : ℕ) : Except Fault (List Iovec × ByteArray) :=
  if len = 0 then .ok ([], b)
  else
    let b := b.addCapacity len
    if b.baseSize = 0 then .error .divByZero
    else
      match b.cur with
      | none => .error .nullNode
      | some c =>
        match buffersFrom (b.nodes.drop c) c (b.position % b.baseSize) len with
        | .error e => .error e
        | .ok iovs => .ok (iovs, b)

/-! ## What a call does with the stretches -/

/-- how many bytes there are -/
def total (iovs : List Iovec) : ℕ := (iovs.map Iovec.len).sum

/-- the bytes of a stretch -/
def piece (nodes : List (List UInt8)) (v : Iovec) : List UInt8 := ((nodes.getD v.node []).drop v.offset).take v.len

/-- the bytes of the stretches in order -/
def gather (nodes : List (List UInt8)) (iovs : List Iovec) : List UInt8 := iovs.flatMap (piece nodes)

/-- `bs` stored into the stretches in order, until it is used up -/
def fill : List (List UInt8) → List Iovec → List UInt8 → List (List UInt8)
  | nodes, [], _ => nodes
  | nodes, v :: iovs, bs => fill (nodes.modify v.node fun n => splice n v.offset (bs.take v.len)) iovs (bs.drop v.len)

/-- the buffer after that; the cursor stays -/
def stored (b : ByteArray) (iovs : List Iovec) (bs : List UInt8) : ByteArray := { b with nodes := fill b.nodes iovs bs }

theorem buffersFrom_ok {base : ℕ} {rest : List (List UInt8)} (hn : ∀ n ∈ rest, n.length = base)
    (before : List (List UInt8))
    {off len : ℕ} (hoff : off ≤ base) (hpos : 0 < len) (hroom : off + len ≤ rest.length * base) :
    ∃ iovs, buffersFrom rest before.length off len = .ok iovs ∧ total iovs = len ∧
      gather (before ++ rest) iovs = (rest.flatten.drop off).take len := by
  induction rest generalizing before off len with
  | nil => rw [length_nil] at hroom; omega
  | cons node rest ih =>
    have hnode : node.length = base := hn node mem_cons_self
    have hget : (before ++ node :: rest).getD before.length [] = node := by simp
    rw [length_cons, Nat.succ_mul] at hroom
    simp only [buffersFrom, hnode, if_neg (not_lt.2 hoff), flatten_cons]
    by_cases hfit : base - off ≥ len
    · refine ⟨_, if_pos hfit, by simp [total], ?_⟩
      simp only [gather, flatMap_cons, flatMap_nil, append_nil, piece, hget]
      rw [drop_take_within (by omega)]
    -- the first stretch is the rest of this chunk
    obtain ⟨iovs, h1, h2, h3⟩ := ih (fun n h => hn n (mem_cons_of_mem node h)) (before ++ [node])
      (Nat.zero_le base) (show 0 < len - (base - off) by omega) (by omega)
    rw [length_append, length_singleton] at h1
    rw [append_assoc, singleton_append] at h3
    refine ⟨⟨before.length, off, base - off⟩ :: iovs, by rw [if_neg hfit, h1], ?_, ?_⟩
    · simp only [total, map_cons, sum_cons] at h2 ⊢
      omega
    calc gather (before ++ node :: rest) (⟨before.length, off, base - off⟩ :: iovs)
        = (node.drop off).take (base - off) ++ gather (before ++ node :: rest) iovs := by simp [gather, piece]
      _ = node.drop off ++ rest.flatten.take (len - (base - off)) := by
          rw [h3, drop_zero, take_of_length_le (by rw [length_drop, hnode])]
      _ = ((node ++ rest.flatten).drop off).take len := by rw [drop_take_across (by omega) (by omega), hnode]

variable {b : ByteArray} {bs : List UInt8}

theorem fill_ok {base : ℕ} {rest : List (List UInt8)} (hn : ∀ n ∈ rest, n.length = base) (before : List (List UInt8))
    {off len : ℕ} (hoff : off ≤ base) {iovs : List Iovec} (h : buffersFrom rest before.length off len = .ok iovs)
    (hbs : bs.length ≤ len) :
    ∃ rest', fill (before ++ rest) iovs bs = before ++ rest' ∧ rest'.flatten = splice rest.flatten off bs ∧
      (∀ n ∈ rest', n.length = base) ∧ rest'.length = rest.length := by
  induction rest generalizing before off len iovs bs with
  | nil => cases h
  | cons node rest ih =>
    have hnode : node.length = base := hn node mem_cons_self
    have hrest : ∀ n ∈ rest, n.length = base := fun n hmem => hn n (mem_cons_of_mem node hmem)
    simp only [buffersFrom, hnode, if_neg (not_lt.2 hoff)] at h
    by_cases hfit : base - off ≥ len
    · rw [if_pos hfit] at h
      cases h
      have htake : bs.take len = bs := take_of_length_le hbs
      refine ⟨splice node off bs :: rest, by rw [fill, fill, htake, modify_append_cons], ?_, ?_, by simp⟩
      · rw [flatten_cons, flatten_cons, splice_append_left (by omega)]
      refine forall_mem_cons.2 ⟨?_, hrest⟩
      rw [length_splice (by omega), hnode]
    · rw [if_neg hfit] at h
      split at h
      · cases h
      next iovs' hiovs =>
      cases h
      have hlen : (before ++ [splice node off (bs.take (base - off))]).length = before.length + 1 := by simp
      obtain ⟨rest', h1, h2, h3, h4⟩ := ih hrest (before ++ [splice node off (bs.take (base - off))]) (Nat.zero_le _)
        (by rw [hlen]; exact hiovs) (show (bs.drop (base - off)).length ≤ len - (base - off) by rw [length_drop]; omega)
      rw [append_assoc, singleton_append, append_assoc, singleton_append] at h1
      have htake : (bs.take (base - off)).length ≤ base - off := length_take_le _ _
      refine ⟨splice node off (bs.take (base - off)) :: rest', ?_, ?_, ?_, by simp [h4]⟩
      · rw [← h1, fill, modify_append_cons]
      · rw [flatten_cons, flatten_cons, h2]
        rcases le_total bs.length (base - off) with hle | hle
        · -- the bytes end in this chunk
          rw [take_of_length_le hle, drop_eq_nil_of_le hle, splice_nil, splice_append_left (by omega)]
        · rw [splice_append_across (by omega) (by omega), hnode]
      · refine forall_mem_cons.2 ⟨?_, h3⟩
        rw [length_splice (by omega), hnode]

/-! ## Flat buffers -/

namespace Flat

variable {f : Flat} {n : ℕ}

theorem eq_of_fields {g : Flat} (hb : f.base = g.base) (hd : f.data = g.data) (hp : f.position = g.position)
    (hs : f.size = g.size) : f = g := by
  cases f
  simp_all

theorem reserve_of_le (h : n ≤ f.data.length) : f.reserve n = f := by
  obtain ⟨k, hk⟩ := f.whole
  have hle : roundUp f.base n ≤ f.data.length := by
    rw [hk, Nat.mul_comm]
    exact roundUp_le f.base_pos (by rwa [hk, Nat.mul_comm] at h)
  simp [reserve, Nat.sub_eq_zero_of_le hle]

theorem roundUp_mono (base : ℕ) {m : ℕ} (h : m ≤ n) : roundUp base m ≤ roundUp base n := by
  exact Nat.mul_le_mul_right _ (Nat.div_le_div_right (by omega))

theorem reserve_reserve (f : Flat) {m : ℕ} (h : m ≤ n) : (f.reserve m).reserve n = f.reserve n := by
  have hmono := roundUp_mono f.base h
  refine eq_of_fields rfl ?_ rfl rfl
  simp only [reserve, append_assoc, replicate_append_replicate, length_append, length_replicate]
  congr 2
  omega

theorem reserve_write (f : Flat) (bs : List UInt8) : (f.reserve (f.position + bs.length)).write bs = f.write bs := by
  refine eq_of_fields rfl ?_ rfl rfl
  have : (f.reserve (f.position + bs.length)).reserve (f.position + bs.length) = f.reserve (f.position + bs.length) :=
    reserve_of_le (f.le_length_reserve _)
  exact congrArg (fun g : Flat => splice g.data f.position bs) this

theorem data_write (h : f.position + bs.length ≤ f.data.length) : (f.write bs).data = splice f.data f.position bs := by
  simp only [write, reserve_of_le h]

theorem write_reserve (f : Flat) (h : f.position + bs.length ≤ n) :
    (f.write bs).reserve n = (f.reserve n).write bs := by
  have hroom := f.le_length_reserve (f.position + bs.length)
  have hlen : (f.write bs).data.length = (f.reserve (f.position + bs.length)).data.length := length_splice hroom
  refine eq_of_fields rfl ?_ rfl rfl
  calc ((f.write bs).reserve n).data
      = splice (f.reserve (f.position + bs.length)).data f.position bs ++
          List.replicate (roundUp f.base n - (f.write bs).data.length) 0 := rfl
    _ = splice ((f.reserve (f.position + bs.length)).reserve n).data f.position bs := by
        rw [hlen, ← splice_append_left hroom]
        rfl
    _ = splice (f.reserve n).data f.position bs := by rw [reserve_reserve f h]
    _ = ((f.reserve n).write bs).data := (data_write (f := f.reserve n) (h.trans (f.le_length_reserve n))).symm

theorem write_write {a c : List UInt8} (h : f.position + (a ++ c).length ≤ f.data.length) :
    (f.write a).write c = f.write (a ++ c) := by
  rw [length_append] at h
  have ha : f.position + a.length ≤ f.data.length := by omega
  have hc : (f.write a).position + c.length ≤ (f.write a).data.length := by
    rw [data_write ha, length_splice ha]
    simp only [write]
    omega
  refine eq_of_fields rfl ?_ ?_ ?_
  · rw [data_write hc, data_write ha, data_write (by rw [length_append]; exact h)]
    exact splice_splice ha
  · simp only [write, length_append, Nat.add_assoc]
  · simp only [write, length_append]
    omega

/-- the bytes stored at the cursor, which stays -/
def store (f : Flat) (bs : List UInt8) (h : f.position + bs.length ≤ f.data.length) : Flat where
  base := f.base
  data := splice f.data f.position bs
  position := f.position
  size := f.size
  base_pos := f.base_pos
  whole := by rw [length_splice h]; exact f.whole
  pos_le := f.pos_le
  size_le := by rw [length_splice h]; exact f.size_le

theorem store_setPosition (h : f.position + bs.length ≤ f.data.length) :
    (f.store bs h).setPosition (f.position + bs.length) = some (f.write bs) := by
  unfold setPosition
  rw [dif_pos (by simp only [store]; rwa [length_splice h])]
  exact congrArg some (eq_of_fields rfl (data_write h).symm rfl rfl)

end Flat

/-! ## Buffers -/

theorem Represents.unique {c : ByteArray} {f : Flat} (hb : Represents b f) (hc : Represents c f)
    (he : b.endian = c.endian) : b = c := by
  have hbase : b.baseSize = c.baseSize := hb.base.trans hc.base.symm
  have hflat : b.nodes.flatten = c.nodes.flatten := hb.data.trans hc.data.symm
  have hcap : b.capacity = c.capacity := hb.length_data.symm.trans hc.length_data
  have hlen : b.nodes.length = c.nodes.length := by
    have h := hb.capacity.symm.trans (hcap.trans hc.capacity)
    rw [hbase] at h
    exact Nat.eq_of_mul_eq_mul_right hc.base_pos h
  have hnodes : b.nodes = c.nodes := by
    refine eq_iff_flatten_eq.2 ⟨hflat, ?_⟩
    rw [map_eq_replicate_iff.2 hb.chunks, map_eq_replicate_iff.2 hc.chunks, hlen, hbase]
  have hpos : b.position = c.position := hb.position.trans hc.position.symm
  have hsize : b.size = c.size := hb.size.trans hc.size.symm
  have hcur : b.cur = c.cur := by rw [hb.cur, hc.cur, hpos, hcap, hbase]
  cases b
  simp_all

theorem addCapacity_write {f : Flat} (h : Represents b f) (hbs : bs.length < 2 ^ 53) {r : ℕ}
    (hr : r ≤ bs.length) : (b.addCapacity r).write bs = b.write bs := by
  obtain ⟨hadd, hend⟩ := addCapacity_represents h (hr.trans_lt hbs)
  obtain ⟨b1, h1, hr1, he1⟩ := write_represents hadd hbs
  obtain ⟨b2, h2, hr2, he2⟩ := write_represents h hbs
  have hsame : (f.reserve (f.position + r)).write bs = f.write bs := by
    rw [← Flat.reserve_write f, ← Flat.reserve_reserve f (Nat.add_le_add_left hr f.position)]
    exact (Flat.reserve_write (f.reserve (f.position + r)) bs).symm
  rw [hsame] at hr1
  rw [h1, h2, hr1.unique hr2 (he1.trans (hend.trans he2.symm))]

theorem setPosition_setPosition {c : ByteArray} {u v : ℕ} (h : b.setPosition u = .ok c) (huv : u ≤ v) :
    c.setPosition v = b.setPosition v := by
  unfold setPosition at h
  split_ifs at h with hcap
  split at h
  · cases h
  · cases h
    simp only [setPosition, node, max_assoc, max_eq_right huv]

theorem position_of_setPosition {c : ByteArray} {u : ℕ} (h : b.setPosition u = .ok c) : c.position = u := by
  unfold setPosition at h
  split_ifs at h with hcap
  split at h
  · cases h
  · cases h
    rfl

theorem getReadBuffers_len {f : Flat} (h : Represents b f) (len : ℕ) :
    (if len > b.getReadSize then b.getReadSize else len) = min len (f.size - f.position) := by
  rw [getReadSize, h.size, h.position]
  split_ifs <;> omega

theorem getReadBuffers_represents {f : Flat} (h : Represents b f) (len : ℕ) :
    ∃ iovs, b.getReadBuffers len = .ok iovs ∧ total iovs = min len (f.size - f.position) ∧
      gather b.nodes iovs = (f.data.drop f.position).take (min len (f.size - f.position)) := by
  have hmin := getReadBuffers_len h len
  unfold getReadBuffers
  simp only [hmin]
  generalize hn : min len (f.size - f.position) = n
  by_cases hzero : n = 0
  · refine ⟨[], if_pos hzero, by rw [hzero]; rfl, by rw [hzero]; rfl⟩
  have hroom : b.position + n ≤ b.capacity := by
    have h1 := f.size_le
    rw [h.length_data] at h1
    rw [h.position]
    omega
  have hcur := h.cur
  rw [if_neg (by omega)] at hcur
  obtain ⟨iovs, h1, h2, h3⟩ := buffersFrom_ok (h.chunks_drop (b.position / b.baseSize))
    (b.nodes.take (b.position / b.baseSize)) (Nat.mod_lt b.position h.base_pos).le (Nat.pos_of_ne_zero hzero)
    (h.offset hroom)
  rw [h.length_take_nodes] at h1
  refine ⟨iovs, ?_, h2, ?_⟩
  · rw [if_neg hzero, if_neg h.base_pos.ne', hcur]
    exact h1
  · rw [take_append_drop] at h3
    rw [h3, flatten_drop h.chunks, drop_drop, Nat.div_add_mod', h.data, h.position]

theorem getWriteBuffers_represents {f : Flat} (h : Represents b f) {len : ℕ} (hpos : 0 < len) (hlen : len < 2 ^ 53) :
    ∃ iovs, b.getWriteBuffers len = .ok (iovs, b.addCapacity len) ∧ total iovs = len ∧
      ∀ bs : List UInt8, bs.length ≤ len → ∀ hroom,
        Represents ((b.addCapacity len).stored iovs bs) ((f.reserve (f.position + len)).store bs hroom) := by
  obtain ⟨hr, -⟩ := addCapacity_represents h hlen
  have hroom : (b.addCapacity len).position + len ≤ (b.addCapacity len).capacity := by
    rw [hr.position, ← hr.length_data]
    exact f.le_length_reserve _
  unfold getWriteBuffers
  rw [if_neg hpos.ne']
  generalize b.addCapacity len = c at hr hroom ⊢
  have hcur := hr.cur
  rw [if_neg (by omega)] at hcur
  have hchunks := hr.chunks_drop (c.position / c.baseSize)
  have hoff : c.position % c.baseSize ≤ c.baseSize := (Nat.mod_lt c.position hr.base_pos).le
  obtain ⟨iovs, h1, h2, -⟩ :=
    buffersFrom_ok hchunks (c.nodes.take (c.position / c.baseSize)) hoff hpos (hr.offset hroom)
  refine ⟨iovs, ?_, h2, ?_⟩
  · rw [hr.length_take_nodes] at h1
    simp only [if_neg hr.base_pos.ne', hcur, h1]
  intro bs hbs hroom'
  obtain ⟨rest', h3, h4, h5, h6⟩ := fill_ok hchunks (c.nodes.take (c.position / c.baseSize)) hoff h1 hbs
  rw [take_append_drop] at h3
  obtain ⟨hflat, hall, hnodes⟩ := hr.overwrite rfl h4 h5 h6
  rw [← h3] at hflat hall hnodes
  refine ⟨hr.base, hall, hflat, hr.root_of_length hnodes, ?_, hr.position, hr.size, hr.cur⟩
  simp only [stored, hnodes]
  exact hr.capacity

end CoServer.ByteArray
