/-
The scatter vectors of a transfer (`socket_stream.cpp`, `socket.cpp`): how many entries `recvmsg` and `sendmsg` get.

A vector has one entry for each chunk that the missing bytes touch, and all missing bytes are asked for at once. The
kernel refuses more than `IOV_MAX` entries. With chunks of 4096 bytes that are 4 MiB, and `max_length` is 64 MiB.

Results:
- `vectors_iff`: with the default configuration, and whatever the socket answers, the vectors with which a message is
  received into an array, or sent from one, have at most `IOV_MAX` entries iff the socket is closed at once or the bytes
  of the message end within as many chunks from the one of the cursor on: at the start of a chunk, iff the message has
  at most 4 MiB.
- `long_message_vector`: the first vector for a message of 4 MiB and one byte has 1025 entries.
-/
import CoServer.Stream.FixSize

namespace CoServer.Stream

open CoServer.Core Nat CoServer.ByteArray

/-! ## The code -/

variable (net : Net)

/-- the vector that `read` passes to `recv` -/
def recvVector (left : ℕ) (st : ByteArray × Socket) : Option (List Iovec) :=
  if net.connected st.2.calls then (st.1.getWriteBuffers left).toOption.map Prod.fst else none

/-- the vector that `write` passes to `send` -/
def sendVector (left : ℕ) (st : ByteArray × Socket) : Option (List Iovec) :=
  if net.connected st.2.calls then (st.1.getReadBuffers left).toOption else none

/-- the vectors of `readFixSize(ByteArray::ptr ba, size_t length)` -/
def recvVectors (length : ℕ) (ba : ByteArray) (s : Socket) : List (List Iovec) :=
  notes (readArray net) (recvVector net) (castInt64 length) (castInt64 length) (ba, s)

/-- the vectors of `writeFixSize(ByteArray::ptr ba, size_t length)` -/
def sendVectors (length : ℕ) (ba : ByteArray) (s : Socket) : List (List Iovec) :=
  notes (writeArray net) (sendVector net) (castInt64 length) (castInt64 length) (ba, s)

/-! ## One vector -/

variable {len : ℕ} {b : ByteArray} {iovs : List Iovec} {f : Flat} (net : Net)

theorem length_buffersFrom {base : ℕ} {rest : List (List UInt8)} (hn : ∀ n ∈ rest, n.length = base) {i off : ℕ}
    (hoff : off < base)
    (hpos : 0 < len) (h : buffersFrom rest i off len = .ok iovs) : iovs.length = (off + len - 1) / base + 1 := by
  induction rest generalizing i off len iovs with
  | nil => cases h
  | cons node rest ih =>
    have hnode : node.length = base := hn node List.mem_cons_self
    simp only [buffersFrom, hnode, if_neg (not_lt.2 hoff.le)] at h
    by_cases hfit : base - off ≥ len
    · rw [if_pos hfit] at h
      cases h
      rw [div_eq_of_lt (by omega)]
      rfl
    · rw [if_neg hfit] at h
      split at h
      · cases h
      next iovs' hiovs =>
      cases h
      have hrest := ih (fun n hmem => hn n (List.mem_cons_of_mem node hmem)) (by omega) (by omega) hiovs
      rw [List.length_cons, hrest,
        show off + len - 1 = (0 + (len - (base - off)) - 1) + base by omega, add_div_right _ (by omega)]

theorem entries_le_iff {base off m : ℕ} (hbase : 0 < base) (hpos : 0 < len) :
    (off + len - 1) / base + 1 ≤ m ↔ off + len ≤ m * base := by
  rw [succ_le_iff, div_lt_iff_lt_mul hbase]
  omega

theorem length_getWriteBuffers {b' : ByteArray} (h : Represents b f) (hpos : 0 < len) (hlen : len < 2 ^ 53)
    (hbuf : b.getWriteBuffers len = .ok (iovs, b')) : iovs.length = (f.position % f.base + len - 1) / f.base + 1 := by
  obtain ⟨hr, -⟩ := addCapacity_represents h hlen
  unfold getWriteBuffers at hbuf
  rw [if_neg hpos.ne', if_neg hr.base_pos.ne'] at hbuf
  split at hbuf
  · cases hbuf
  next c hcur =>
  split at hbuf
  · cases hbuf
  next iovs' hiovs =>
  cases hbuf
  have hcount := length_buffersFrom (hr.chunks_drop c) (mod_lt _ hr.base_pos) hpos hiovs
  rw [hr.position, hr.base] at hcount
  exact hcount

theorem getReadBuffers_nil (h : Represents b f)
    (hbuf : b.getReadBuffers len = .ok iovs) (hzero : min len (f.size - f.position) = 0) : iovs = [] := by
  have hmin := getReadBuffers_len h len
  unfold getReadBuffers at hbuf
  simp only [hmin, if_pos hzero] at hbuf
  exact (Except.ok.inj hbuf).symm

theorem length_getReadBuffers (h : Represents b f) (hbuf : b.getReadBuffers len = .ok iovs)
    (hpos : 0 < min len (f.size - f.position)) :
    iovs.length = (f.position % f.base + min len (f.size - f.position) - 1) / f.base + 1 := by
  have hmin := getReadBuffers_len h len
  unfold getReadBuffers at hbuf
  simp only [hmin, if_neg hpos.ne', if_neg h.base_pos.ne'] at hbuf
  split at hbuf
  · cases hbuf
  next c hcur =>
  have hcount := length_buffersFrom (h.chunks_drop c) (mod_lt _ h.base_pos) hpos hbuf
  rw [h.position, h.base] at hcount
  exact hcount

theorem recvVector_eq {net : Net} {b' : ByteArray} {s : Socket} (hconn : net.connected s.calls = true)
    (hbuf : b.getWriteBuffers len = .ok (iovs, b')) : recvVector net len (b, s) = some iovs := by
  unfold recvVector
  rw [if_pos hconn, hbuf]
  rfl

/-! ## Whole transfers -/

/-- `left` bytes are missing, and they end within `m` chunks from the one of the cursor on -/
def Near (base m left : ℕ) (st : ByteArray × Socket) : Prop :=
  left < 2 ^ 53 ∧ ∃ f, Represents st.1 f ∧ f.base = base ∧ f.position % base + left ≤ m * base

theorem mod_add_sub_le (base p : ℕ) {k n : ℕ} (hk : k ≤ n) : (p + k) % base + (n - k) ≤ p % base + n := by
  have hmod : (p + k) % base ≤ p % base + k := by
    rw [add_mod]
    exact (mod_le _ _).trans (Nat.add_le_add_left (mod_le k base) _)
  omega

theorem readArray_near (base m : ℕ) : Answers (Near base m) (fun _ _ => True) (readArray net) := by
  rintro left ⟨b, s⟩ hpos ⟨hlt, f, hrep, hbase, hnear⟩
  obtain ⟨rt, b', s', hcall, -, -, hres⟩ := readArray_step net hrep hpos hlt s
  refine ⟨rt, (b', s'), hcall, ?_⟩
  rcases hres with ⟨hle, -⟩ | ⟨bs, rfl, hgt, hbs, -, hrep'⟩
  · exact Or.inl ⟨hle, trivial⟩
  · refine Or.inr ⟨bs.length, rfl, hgt, hbs, by omega, _, hrep', hbase, ?_⟩
    exact (mod_add_sub_le base f.position hbs).trans hnear

theorem recvVectors_le_iff (h : Represents b f) (s : Socket) {length : ℕ} (m : ℕ) (hpos : 0 < length)
    (hlen : length < 2 ^ 53) :
    (∀ v ∈ recvVectors net length b s, v.length ≤ m) ↔
      (net.connected s.calls = true → f.position % f.base + length ≤ m * f.base) := by
  have hcast : castInt64 length = length := castInt64_eq (by omega)
  unfold recvVectors
  rw [hcast]
  constructor
  · intro hall hconn
    obtain ⟨iovs, hbuf, -⟩ := getWriteBuffers_represents h hpos hlen
    have hle := hall iovs (mem_notes hpos hpos (recvVector_eq hconn hbuf))
    rw [length_getWriteBuffers h hpos hlen hbuf] at hle
    exact (entries_le_iff f.base_pos hpos).1 hle
  · intro hnear
    cases hconn : net.connected s.calls with
    | true =>
      refine notes_rule (readArray_near net f.base m) ?_ (b, s) length length ⟨hlen, f, h, rfl, hnear hconn⟩
      rintro left ⟨b, s⟩ hleft ⟨hlt, g, hrep, hbase, hg⟩ v hv
      obtain ⟨iovs, hbuf, -⟩ := getWriteBuffers_represents hrep hleft hlt
      unfold recvVector at hv
      rw [hbuf] at hv
      split_ifs at hv
      · cases hv
        rw [length_getWriteBuffers hrep hleft hlt hbuf, hbase]
        exact (entries_le_iff (hbase ▸ g.base_pos) hleft).2 hg
      · cases hv
    | false =>
      intro v hv
      obtain ⟨n, rfl⟩ := exists_eq_add_one_of_ne_zero hpos.ne'
      simp [notes, recvVector, readArray, hconn] at hv

/-- the readable ones of the `left` bytes that are missing end within `m` chunks -/
def NearRead (base m left : ℕ) (st : ByteArray × Socket) : Prop :=
  ∃ f, Represents st.1 f ∧ f.base = base ∧ f.position % base + min left (f.size - f.position) ≤ m * base

theorem writeArray_near (base m : ℕ) : Answers (NearRead base m) (fun _ _ => True) (writeArray net) := by
  rintro left ⟨b, s⟩ hpos ⟨f, hrep, hbase, hnear⟩
  obtain ⟨rt, b', s', n, hcall, -, -, hn, hn', hres⟩ := writeArray_step net hrep left s
  refine ⟨rt, (b', s'), hcall, ?_⟩
  rcases hres with ⟨hle, -⟩ | ⟨rfl, hgt, hset⟩
  · exact Or.inl ⟨hle, trivial⟩
  have hsize := f.size_le
  obtain ⟨c, hset', hrep', -⟩ := setPosition_represents hrep (dif_pos (show f.position + n ≤ f.data.length by omega))
  obtain rfl : c = b' := by
    rw [← hrep.position, hset] at hset'
    exact (Except.ok.inj hset').symm
  refine Or.inr ⟨n, rfl, hgt, hn, _, hrep', hbase, ?_⟩
  have hmod := mod_add_sub_le base f.position (show n ≤ min left (f.size - f.position) by omega)
  have hleft : min (left - n) (max f.size (f.position + n) - (f.position + n)) =
      min left (f.size - f.position) - n := by omega
  simp only [hleft]
  exact hmod.trans hnear

theorem sendVectors_le_iff (h : Represents b f) (s : Socket) {length m : ℕ} (hm : 0 < m) (hpos : 0 < length)
    (hlen : length < 2 ^ 63) :
    (∀ v ∈ sendVectors net length b s, v.length ≤ m) ↔
      (net.connected s.calls = true → f.position % f.base + min length (f.size - f.position) ≤ m * f.base) := by
  have hcast : castInt64 length = length := castInt64_eq hlen
  unfold sendVectors
  rw [hcast]
  constructor
  · intro hall hconn
    obtain ⟨iovs, hbuf, -⟩ := getReadBuffers_represents h length
    have hfirst : sendVector net length (b, s) = some iovs := by
      unfold sendVector
      rw [if_pos hconn, hbuf]
      rfl
    have hle := hall iovs (mem_notes hpos hpos hfirst)
    rcases Nat.eq_zero_or_pos (min length (f.size - f.position)) with hzero | hsome
    · -- nothing is left to send
      rw [hzero]
      exact (mod_lt _ f.base_pos).le.trans (Nat.le_mul_of_pos_left _ hm)
    · rw [length_getReadBuffers h hbuf hsome] at hle
      exact (entries_le_iff f.base_pos hsome).1 hle
  · intro hnear
    cases hconn : net.connected s.calls with
    | true =>
      refine notes_rule (writeArray_near net f.base m) ?_ (b, s) length length ⟨f, h, rfl, hnear hconn⟩
      rintro left ⟨b, s⟩ hleft ⟨g, hrep, hbase, hg⟩ v hv
      obtain ⟨iovs, hbuf, htotal, -⟩ := getReadBuffers_represents hrep left
      unfold sendVector at hv
      rw [hbuf] at hv
      split_ifs at hv
      · cases hv
        rcases Nat.eq_zero_or_pos (min left (g.size - g.position)) with hzero | hsome
        · rw [getReadBuffers_nil hrep hbuf hzero]
          exact zero_le m
        · rw [length_getReadBuffers hrep hbuf hsome, hbase]
          exact (entries_le_iff (hbase ▸ g.base_pos) hsome).2 hg
      · cases hv
    | false =>
      intro v hv
      obtain ⟨n, rfl⟩ := exists_eq_add_one_of_ne_zero hpos.ne'
      simp [notes, sendVector, writeArray, hconn] at hv

/-! ## The default configuration -/

/-- `IOV_MAX` -/
def iovMax : ℕ := 1024

/-- `rock.protocol.max_length` -/
def maxLength : ℕ := 64 * 1024 * 1024

/-- **Scatter vectors.** -/
theorem vectors_iff (net : Net) {b : ByteArray} {f : Flat} (h : Represents b f) (hbase : b.baseSize = 4096) (s : Socket)
    (length : ℕ) (hpos : 0 < length) (hlt : length < maxLength) :
    ((∀ v ∈ recvVectors net length b s, v.length ≤ iovMax) ↔
        (net.connected s.calls = true → b.position % 4096 + length ≤ iovMax * 4096)) ∧
      ((∀ v ∈ sendVectors net length b s, v.length ≤ iovMax) ↔
        (net.connected s.calls = true → b.position % 4096 + min length b.getReadSize ≤ iovMax * 4096)) := by
  have hsmall : length < 2 ^ 53 := hlt.trans (by decide)
  have hread : b.getReadSize = f.size - f.position := by rw [getReadSize, h.size, h.position]
  have hf : f.base = 4096 := h.base.symm.trans hbase
  rw [h.position, hread, ← hf]
  exact ⟨recvVectors_le_iff net h s iovMax hpos hsmall,
    sendVectors_le_iff net h s (by decide) hpos (hsmall.trans (by decide))⟩

/-- a socket that is connected and takes or gives one byte at a time -/
def bytewise : Net := ⟨fun _ => true, fun _ => 1⟩

/-- a message of 4 MiB -/
theorem short_message_vectors :
    (make 4096).baseSize = 4096 ∧ 4194304 < maxLength ∧
      ∀ v ∈ recvVectors bytewise 4194304 (make 4096) ⟨[], [], 0⟩, v.length ≤ iovMax := by
  have hlt : 4194304 < maxLength := by decide
  obtain ⟨hrecv, -⟩ := vectors_iff bytewise (make_represents (by decide)) rfl ⟨[], [], 0⟩ 4194304 (by decide) hlt
  exact ⟨rfl, hlt, hrecv.2 fun _ => by decide⟩

theorem long_message_vector : 4194305 < maxLength ∧
    ∃ v ∈ recvVectors bytewise 4194305 (make 4096) ⟨[], [], 0⟩, v.length = 1025 := by
  refine ⟨by decide, ?_⟩
  have hrep := make_represents (show 0 < 4096 by decide)
  have hpos : 0 < 4194305 := by decide
  obtain ⟨iovs, hbuf, -⟩ := getWriteBuffers_represents hrep hpos (by decide)
  refine ⟨iovs, ?_, length_getWriteBuffers hrep hpos (by decide) hbuf⟩
  exact mem_notes hpos hpos (recvVector_eq rfl hbuf)

end CoServer.Stream
