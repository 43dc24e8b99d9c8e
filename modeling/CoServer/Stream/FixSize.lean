/-
Reads and writes of a fixed size: the loops of `Stream` over a socket with short counts. One call on a `ByteArray`
(`readArray_step`, `writeArray_step`), the loops when they end or stop, and the same for memory and for a socket that
does not fail.

Results:
- `fixSize_refines`: for every array with chunks of at least one byte, every cursor, every length below `2 ^ 31` and
  every sequence of answers of the socket, `readFixSize` leaves the array as one write of the next `length` bytes of the
  stream at the cursor does, or it stops with a number that is not positive, the array then having room for at most
  `length` bytes and the bytes received written at the cursor; `writeFixSize` sends the next `length` bytes from the
  cursor on, or it stops with a number that is not positive, and the cursor has moved behind the bytes sent. They stop
  only when the socket fails or there are less than `length` bytes.
- `read_into_no_bytes`: with chunks of no bytes no scatter list is made.
-/
import CoServer.ByteArray.Cursor
import CoServer.Stream.SocketStream

namespace CoServer.Stream

open CoServer.Core List CoServer.ByteArray Flat

/-- some call finds the socket closed or fails -/
def Net.Fails (net : Net) : Prop := ∃ i, net.connected i = false ∨ net.answer i ≤ 0

variable {net : Net}

/-! ## One call -/

theorem recv_cases (net : Net) {n : ℕ} (hn : 0 < n) (s : Socket) :
    ∃ rt bs s', recv net n s = (rt, bs, s') ∧ s'.sent = s.sent ∧ s.incoming = bs ++ s'.incoming ∧ bs.length ≤ n ∧
      (rt ≤ 0 ∧ bs = [] ∧ (net.Fails ∨ s.incoming = []) ∨ rt = bs.length ∧ 0 < bs.length) := by
  unfold recv
  by_cases hfail : net.answer s.calls ≤ 0
  · rw [if_pos hfail]
    exact ⟨_, _, _, rfl, rfl, rfl, Nat.zero_le _, .inl ⟨hfail, rfl, .inl ⟨s.calls, .inr hfail⟩⟩⟩
  rw [if_neg hfail]
  refine ⟨_, _, _, rfl, rfl, ?_, ?_, ?_⟩
  · rw [length_take]
    conv_lhs => rw [← take_append_drop (min (min (net.answer s.calls).toNat n) s.incoming.length) s.incoming]
    rw [← take_eq_take_min]
  · rw [length_take]
    omega
  by_cases hempty : s.incoming = []
  · refine .inl ⟨?_, ?_, .inr hempty⟩ <;> simp [hempty]
  · have := length_pos_of_ne_nil hempty
    rw [length_take]
    omega

theorem send_cases (net : Net) (bs : List UInt8) (s : Socket) :
    ∃ rt n s', send net bs s = (rt, s') ∧ s'.incoming = s.incoming ∧ s'.sent = s.sent ++ bs.take n ∧ n ≤ bs.length ∧
      (rt ≤ 0 ∧ n = 0 ∧ (net.Fails ∨ bs = []) ∨ rt = n ∧ 0 < n) := by
  unfold send
  by_cases hfail : net.answer s.calls ≤ 0
  · rw [if_pos hfail]
    exact ⟨_, 0, _, rfl, rfl, by simp, Nat.zero_le _, .inl ⟨hfail, rfl, .inl ⟨s.calls, .inr hfail⟩⟩⟩
  rw [if_neg hfail]
  refine ⟨_, min (net.answer s.calls).toNat bs.length, _, rfl, rfl, rfl, min_le_right _ _, ?_⟩
  by_cases hempty : bs = []
  · refine .inl ⟨?_, ?_, .inr hempty⟩ <;> simp [hempty]
  · have := length_pos_of_ne_nil hempty
    omega

theorem read_cases (net : Net) {n : ℕ} (hn : 0 < n) (s : Socket) :
    ∃ rt bs s', read net n s = (rt, bs, s') ∧ s.incoming = bs ++ s'.incoming ∧ bs.length ≤ n ∧
      (rt ≤ 0 ∧ bs = [] ∧ (net.Fails ∨ s.incoming = []) ∨ rt = bs.length ∧ 0 < bs.length) := by
  unfold read
  split_ifs with hconn
  · obtain ⟨rt, bs, s', hrecv, -, hin, hle, hcase⟩ := recv_cases net hn s
    exact ⟨rt, bs, s', hrecv, hin, hle, hcase⟩
  · exact ⟨_, _, _, rfl, rfl, Nat.zero_le _, .inl ⟨by norm_num, rfl, .inl ⟨s.calls, .inl (Bool.eq_false_iff.2 hconn)⟩⟩⟩

variable {b : ByteArray} {f : Flat} {length : ℕ}

theorem readArray_step (net : Net) (h : Represents b f) {left : ℕ} (hpos : 0 < left) (hlt : left < 2 ^ 53)
    (s : Socket) :
    ∃ rt b' s', readArray net left (b, s) = .ok (rt, b', s') ∧ s'.sent = s.sent ∧ b'.endian = b.endian ∧
      (rt ≤ 0 ∧ s'.incoming = s.incoming ∧ (net.Fails ∨ s.incoming = []) ∧
          (Represents b' f ∨ Represents b' (f.reserve (f.position + left))) ∨
        ∃ bs : List UInt8, rt = bs.length ∧ 0 < bs.length ∧ bs.length ≤ left ∧ s.incoming = bs ++ s'.incoming ∧
          Represents b' ((f.reserve (f.position + left)).write bs)) := by
  simp only [readArray]
  cases hconn : net.connected s.calls with
  | false => exact ⟨_, _, _, rfl, rfl, rfl, .inl ⟨by norm_num, rfl, .inl ⟨s.calls, .inl hconn⟩, .inl h⟩⟩
  | true =>
    obtain ⟨iovs, hbuf, htotal, hfill⟩ := getWriteBuffers_represents h hpos hlt
    obtain ⟨-, hend⟩ := addCapacity_represents h hlt
    obtain ⟨rt, bs, s', hrecv, hsent, hin, hlen, hres⟩ := recv_cases net hpos s
    have hroom : (f.reserve (f.position + left)).position + bs.length ≤ (f.reserve (f.position + left)).data.length :=
      (Nat.add_le_add_left hlen _).trans (f.le_length_reserve _)
    have hstored := hfill bs hlen hroom
    simp only [if_true, hbuf, htotal, hrecv]
    rcases hres with ⟨hle, hnil, hwhy⟩ | ⟨rfl, hgt⟩
    · -- nothing was stored
      rw [if_neg (by omega)]
      refine ⟨_, _, _, rfl, hsent, hend, .inl ⟨hle, ?_, hwhy, .inr ?_⟩⟩
      · rw [hin, hnil, nil_append]
      · have hsame : (f.reserve (f.position + left)).store bs hroom = f.reserve (f.position + left) := by
          simp [store, hnil]
        rwa [hsame] at hstored
    · rw [if_pos (by omega)]
      obtain ⟨b', hset, hr, hend'⟩ := setPosition_represents hstored (store_setPosition hroom)
      have hcursor : ((b.addCapacity left).stored iovs bs).position = (f.reserve (f.position + left)).position :=
        hstored.position
      rw [← hcursor] at hset
      simp only [Int.toNat_natCast, hset]
      exact ⟨_, _, _, rfl, hsent, hend'.trans hend, .inr ⟨bs, rfl, hgt, hlen, hin, hr⟩⟩

theorem writeArray_step (net : Net) (h : Represents b f) (left : ℕ) (s : Socket) :
    ∃ rt b' s' n, writeArray net left (b, s) = .ok (rt, b', s') ∧ s'.incoming = s.incoming ∧
      s'.sent = s.sent ++ (f.data.drop f.position).take n ∧ n ≤ left ∧ n ≤ f.size - f.position ∧
      (rt ≤ 0 ∧ n = 0 ∧ b' = b ∧ (net.Fails ∨ left = 0 ∨ f.size = f.position) ∨
        rt = n ∧ 0 < n ∧ b.setPosition (b.position + n) = .ok b') := by
  simp only [writeArray]
  cases hconn : net.connected s.calls with
  | false => exact ⟨_, _, _, 0, rfl, rfl,
      by simp, Nat.zero_le _, Nat.zero_le _, .inl ⟨by norm_num, rfl, rfl, .inl ⟨s.calls, .inl hconn⟩⟩⟩
  | true =>
    obtain ⟨iovs, hbuf, -, hgather⟩ := getReadBuffers_represents h left
    obtain ⟨rt, n, s', hsend, hin, hsent, hn, hres⟩ := send_cases net (gather b.nodes iovs) s
    have hmin : n ≤ min left (f.size - f.position) := by
      rw [hgather, length_take] at hn
      omega
    rw [hgather, take_take, min_eq_left hmin] at hsent
    simp only [if_true, hbuf, hsend]
    rcases hres with ⟨hle, hzero, hwhy⟩ | ⟨rfl, hgt⟩
    · rw [if_neg (by omega)]
      refine ⟨_, _, _, n, rfl, hin, hsent, by omega, by omega, .inl ⟨hle, hzero, rfl, ?_⟩⟩
      rcases hwhy with hwhy | hwhy
      · exact .inl hwhy
      -- there was nothing to send
      have hlen := congrArg List.length hwhy
      rw [hgather, length_take, length_drop, length_nil] at hlen
      have := f.size_le
      have := f.pos_le
      exact .inr (by omega)
    · have hin' : f.position + n ≤ f.data.length := by
        have := f.size_le
        omega
      obtain ⟨b', hset, -, -⟩ := setPosition_represents h (dif_pos hin')
      rw [← h.position] at hset
      rw [if_pos (by omega)]
      simp only [Int.toNat_natCast, hset]
      exact ⟨_, _, _, n, rfl, hin, hsent, by omega, by omega, .inr ⟨rfl, hgt, hset⟩⟩

/-! ## The loops -/

theorem castInt_eq {n : ℕ} (h : n < 2 ^ 31) : castInt n = n := by
  have hn : (BitVec.ofNat 32 n).toNat = n := by rw [BitVec.toNat_ofNat, Nat.mod_eq_of_lt (by omega)]
  rw [castInt, BitVec.toInt_eq_toNat_of_lt (by rw [hn]; omega), hn]

theorem castInt64_eq {n : ℕ} (h : n < 2 ^ 63) : castInt64 n = n := by
  have hn : (BitVec.ofNat 64 n).toNat = n := by rw [BitVec.toNat_ofNat, Nat.mod_eq_of_lt (by omega)]
  rw [castInt64, BitVec.toInt_eq_toNat_of_lt (by rw [hn]; omega), hn, Int.toNat_natCast]

/-- the state of a read of `length` bytes when `left` are missing: what came is written at the cursor, and room is made
for at most `length` bytes -/
def Receiving (b : ByteArray) (f : Flat) (s : Socket) (length left : ℕ) (st : ByteArray × Socket) : Prop :=
  ∃ done r, done.length + left = length ∧ r ≤ length ∧ s.incoming = done ++ st.2.incoming ∧ st.2.sent = s.sent ∧
    st.1.endian = b.endian ∧ Represents st.1 ((f.reserve (f.position + r)).write done)

theorem reserve_write_reserve (f : Flat) {done : List UInt8} {r : ℕ} (hr : r ≤ length) (hdone : done.length ≤ length) :
    ((f.reserve (f.position + r)).write done).reserve
    (f.position + length) = (f.reserve (f.position + length)).write done := by
  rw [write_reserve _ (by simp only [Flat.reserve]; omega), reserve_reserve f (by omega)]

theorem readArray_answers (net : Net) (b : ByteArray) (f : Flat) (s : Socket) (hlen : length < 2 ^ 53) :
    Answers (Receiving b f s length)
      (fun left st => Receiving b f s length left st ∧ (net.Fails ∨ s.incoming.length < length)) (readArray net) := by
  intro left st hpos hst
  obtain ⟨ba, t⟩ := st
  obtain ⟨done, r, hsum, hr, hin, hsent, hend, hrep⟩ := hst
  have hcursor : ((f.reserve (f.position + r)).write done).position + left = f.position + length := by
    simp only [Flat.write, Flat.reserve]
    omega
  obtain ⟨rt, b', t', hcall, hsent', hend', hres⟩ := readArray_step net hrep hpos (by omega) t
  rw [hcursor, reserve_write_reserve f hr (by omega)] at hres
  refine ⟨rt, (b', t'), hcall, ?_⟩
  rcases hres with ⟨hle, hin', hwhy, hrep'⟩ | ⟨bs, rfl, hgt, hbs, hin', hrep'⟩
  · refine .inl ⟨hle, ?_, ?_⟩
    · rcases hrep' with hrep' | hrep'
      · exact ⟨done, r, hsum, hr, by rw [hin', hin], hsent'.trans hsent, hend'.trans hend, hrep'⟩
      · exact ⟨done, length, hsum, le_rfl, by rw [hin', hin], hsent'.trans hsent, hend'.trans hend, hrep'⟩
    rcases hwhy with hwhy | hwhy
    · exact .inl hwhy
    · rw [hin, hwhy, append_nil]
      exact .inr (by omega)
  · refine .inr ⟨bs.length, rfl, hgt, hbs, done ++ bs, length, ?_, le_rfl, ?_, hsent'.trans hsent, hend'.trans hend, ?_⟩
    · rw [length_append]
      omega
    · rw [hin, hin', append_assoc]
    have hroom : f.position + (done ++ bs).length ≤ (f.reserve (f.position + length)).data.length := by
      refine le_trans ?_ (f.le_length_reserve _)
      rw [length_append]
      omega
    rwa [write_write hroom] at hrep'

theorem receiving_start (h : Represents b f) (s : Socket) (length : ℕ) : Receiving b f s length length (b, s) := by
  refine ⟨[], 0, by simp, Nat.zero_le _, rfl, rfl, rfl, ?_⟩
  have hsame : (f.reserve (f.position + 0)).write [] = f := by
    have hroom : f.position + 0 ≤ f.data.length := f.pos_le.trans f.size_le
    rw [reserve_of_le hroom]
    refine eq_of_fields rfl ?_ rfl ?_
    · rw [data_write hroom, splice_nil]
    · exact max_eq_left f.pos_le
  rw [hsame]
  exact h

theorem Receiving.write (h : Represents b f) {s t : Socket} {left : ℕ} (hlen : length < 2 ^ 53)
    {b' : ByteArray} (hst : Receiving b f s length left (b', t)) :
    ∃ r ≤ length, (b.addCapacity r).write (s.incoming.take (length - left)) = .ok b' ∧
      t.incoming = s.incoming.drop (length - left) ∧ length - left ≤ s.incoming.length := by
  obtain ⟨done, r, hsum, hr, hin, -, hend, hrep⟩ := hst
  have hdone : length - left = done.length := by omega
  obtain ⟨hadd, hadd'⟩ := addCapacity_represents h (show r < 2 ^ 53 by omega)
  obtain ⟨b'', hw, hrep', hend'⟩ := write_represents hadd (show done.length < 2 ^ 53 by omega)
  obtain rfl : b'' = b' := hrep'.unique hrep (hend'.trans (hadd'.trans hend.symm))
  refine ⟨r, hr, ?_, ?_, ?_⟩
  · rw [hdone, hin, take_left, hw]
  · rw [hdone, hin, drop_left]
  · rw [hin, length_append]
    omega

/-- the state of a write of `length` bytes when `left` are missing: the bytes from the cursor on are sent, and the
cursor is behind them -/
def Sending (b : ByteArray) (f : Flat) (s : Socket) (length left : ℕ) (st : ByteArray × Socket) : Prop :=
  ∃ k, k + left = length ∧ k ≤ f.size - f.position ∧ st.2.incoming = s.incoming ∧
    st.2.sent = s.sent ++ (f.data.drop f.position).take k ∧ b.setPosition (b.position + k) = .ok st.1

theorem writeArray_answers (net : Net) (h : Represents b f) (s : Socket) (length : ℕ) :
    Answers (Sending b f s length)
      (fun left st => Sending b f s length left st ∧ (net.Fails ∨ f.size - f.position < length)) (writeArray net) := by
  intro left st hpos hst
  obtain ⟨ba, t⟩ := st
  obtain ⟨k, hsum, hk, hin, hsent, hset⟩ := hst
  have hpl := f.pos_le
  have hroom : f.position + k ≤ f.data.length := by
    have := f.size_le
    omega
  -- the flat buffer with the cursor at this place
  obtain ⟨c, hset', hrep, -⟩ := setPosition_represents h (dif_pos hroom)
  rw [← h.position, hset] at hset'
  cases hset'
  obtain ⟨rt, b', t', n, hcall, hin', hsent', hn, hn', hres⟩ := writeArray_step net hrep left t
  have hsize : max f.size (f.position + k) = f.size := max_eq_left (by omega)
  simp only [hsize] at hn' hres
  have hbytes : t'.sent = s.sent ++ (f.data.drop f.position).take (k + n) := by
    rw [hsent', hsent, append_assoc, ← drop_drop, take_add]
  refine ⟨rt, (b', t'), hcall, ?_⟩
  rcases hres with ⟨hle, rfl, rfl, hwhy⟩ | ⟨rfl, hgt, hmove⟩
  · refine .inl ⟨hle, ⟨k, hsum, hk, hin'.trans hin, hbytes, hset⟩, ?_⟩
    rcases hwhy with hwhy | hwhy | hwhy
    · exact .inl hwhy
    · omega
    · exact .inr (by omega)
  · refine .inr ⟨n, rfl, hgt, hn, k + n, by omega, by omega, hin'.trans hin, hbytes, ?_⟩
    rw [position_of_setPosition hset, setPosition_setPosition hset (by omega), Nat.add_assoc] at hmove
    exact hmove

theorem sending_start (h : Represents b f) (s : Socket) (length : ℕ) : Sending b f s length length (b, s) := by
  have hroom : f.position ≤ f.data.length := f.pos_le.trans f.size_le
  refine ⟨0, by simp, Nat.zero_le _, rfl, by simp, ?_⟩
  obtain ⟨c, hset, hrep, hend⟩ := setPosition_represents h (dif_pos hroom)
  rw [Nat.add_zero, h.position, hset]
  refine congrArg Except.ok (hrep.unique ?_ hend)
  refine ⟨h.base, h.chunks, h.data, h.root, h.capacity, h.position, ?_, h.cur⟩
  exact h.size.trans (max_eq_left f.pos_le).symm

/-! ## Whole transfers -/

theorem fixSize_rule {σ : Type} {P Q : ℕ → σ → Prop} {call : ℕ → σ → Except Fault (ℤ × σ)} (hcall : Answers P Q call)
    (hlen : length < 2 ^ 63) (st : σ) (h : P length st) :
    ∃ ret st', fixSize call length st = .ok (ret, st') ∧
      (ret = castInt length ∧ P 0 st' ∨ ret ≤ 0 ∧ ∃ left, 0 < left ∧ left ≤ length ∧ Q left st') := by
  rw [fixSize, castInt64_eq hlen]
  exact transfer_rule hcall (castInt length) st le_rfl h

/-- **Transfers of a fixed size.** -/
theorem fixSize_refines (net : Net) {b : ByteArray} {f : Flat} (h : Represents b f) (s : Socket) (length : ℕ)
    (hlen : length < 2 ^ 31) :
    (∃ ret b' s' k, readFixSizeArray net length b s = .ok (ret, b', s') ∧ k ≤ s.incoming.length ∧
      s'.incoming = s.incoming.drop k ∧
      (ret = length ∧ k = length ∧ b.write (s.incoming.take k) = .ok b' ∨
        ret ≤ 0 ∧ k < length ∧ (∃ r ≤ length, (b.addCapacity r).write (s.incoming.take k) = .ok b') ∧
          (net.Fails ∨ s.incoming.length < length))) ∧
    ∃ ret b' s' k, writeFixSizeArray net length b s = .ok (ret, b', s') ∧ k ≤ b.getReadSize ∧
      s'.sent = s.sent ++ (f.data.drop f.position).take k ∧ b.setPosition (b.position + k) = .ok b' ∧
      (ret = length ∧ k = length ∨ ret ≤ 0 ∧ k < length ∧ (net.Fails ∨ b.getReadSize < length)) := by
  have hread : b.getReadSize = f.size - f.position := by rw [getReadSize, h.size, h.position]
  constructor
  · obtain ⟨ret, ⟨b', s'⟩, hrun, hres⟩ :=
      fixSize_rule (readArray_answers net b f s (by omega)) (by omega) _ (receiving_start h s length)
    rw [castInt_eq hlen] at hres
    rcases hres with ⟨hret, hst⟩ | ⟨hret, left, hpos, hle, hst, hwhy⟩
    · obtain ⟨r, hr, hw, hin, hk⟩ := hst.write h (by omega)
      rw [Nat.sub_zero] at hw hin hk
      have htake : (s.incoming.take length).length = length := length_take_of_le hk
      rw [addCapacity_write h (by omega) (by omega)] at hw
      exact ⟨ret, b', s', length, hrun, hk, hin, .inl ⟨hret, rfl, hw⟩⟩
    · obtain ⟨r, hr, hw, hin, hk⟩ := hst.write h (by omega)
      exact ⟨ret, b', s', length - left, hrun, hk, hin, .inr ⟨hret, by omega, ⟨r, hr, hw⟩, hwhy⟩⟩
  · obtain ⟨ret, ⟨b', s'⟩, hrun, hres⟩ :=
      fixSize_rule (writeArray_answers net h s length) (by omega) _ (sending_start h s length)
    rw [castInt_eq hlen] at hres
    rw [hread]
    rcases hres with ⟨hret, k, hsum, hk, -, hsent, hset⟩ | ⟨hret, left, hpos, hle, ⟨k, hsum, hk, -, hsent, hset⟩, hwhy⟩
    · exact ⟨ret, b', s', k, hrun, hk, hsent, hset, .inl ⟨hret, by omega⟩⟩
    · exact ⟨ret, b', s', k, hrun, hk, hsent, hset, .inr ⟨hret, by omega, hwhy⟩⟩

/-- five bytes over two chunks, the cursor behind the first -/
def partlyRead : ByteArray :=
  { baseSize := 3, position := 1, capacity := 6, size := 5, endian := .big,
    nodes := [[1, 2, 3], [4, 5, 0]], cur := some 0 }

def partlyReadFlat : Flat where
  base := 3
  data := [1, 2, 3, 4, 5, 0]
  position := 1
  size := 5
  base_pos := by decide
  whole := by decide
  pos_le := by decide
  size_le := by decide

theorem partlyRead_represents : Represents partlyRead partlyReadFlat :=
  ⟨rfl, by decide, rfl, by decide, rfl, rfl, rfl, rfl⟩

/-- two bytes a call, on a socket with seven bytes -/
theorem fixSize_refines_short :
    (∃ b' s',
      readFixSizeArray ⟨fun _ => true, fun _ => 2⟩ 4 partlyRead ⟨[6, 7, 8, 9, 10, 11, 12], [], 0⟩ = .ok (4, b', s') ∧
      partlyRead.write [6, 7, 8, 9] = .ok b' ∧ s'.incoming = [10, 11, 12]) ∧
    ∃ b' s', writeFixSizeArray ⟨fun _ => true, fun _ => 2⟩ 4 partlyRead ⟨[6, 7, 8, 9, 10, 11, 12], [], 0⟩ = .ok
    (4, b', s') ∧
      partlyRead.setPosition 5 = .ok b' ∧ s'.sent = [2, 3, 4, 5] := by
  have hnet : ¬ Net.Fails ⟨fun _ => true, fun _ => 2⟩ := by
    rintro ⟨i, h | h⟩
    · cases h
    · exact absurd h (show ¬ (2 : ℤ) ≤ 0 by decide)
  obtain ⟨⟨ret, b', s', k, h1, -, h2, h3⟩, ret', b'', s'', k', h1', -, h2', h3', h4'⟩ :=
    fixSize_refines ⟨fun _ => true, fun _ => 2⟩ partlyRead_represents ⟨[6, 7, 8, 9, 10, 11, 12], [], 0⟩ 4 (by decide)
  constructor
  · rcases h3 with ⟨rfl, rfl, hw⟩ | ⟨-, -, -, hwhy⟩
    · exact ⟨b', s', h1, hw, h2⟩
    · exact absurd (hwhy.resolve_left hnet) (by decide)
  · rcases h4' with ⟨rfl, rfl⟩ | ⟨-, -, hwhy⟩
    · exact ⟨b'', s'', h1', h3', h2'⟩
    · exact absurd (hwhy.resolve_left hnet) (by decide)

theorem read_into_no_bytes : readFixSizeArray ⟨fun _ => true, fun _ => 1⟩ 1 (make 0)
    ⟨[7], [], 0⟩ = .error .divByZero := by rfl

/-! ## Sockets that do not fail -/

section

variable (hnet : ¬ net.Fails)
include hnet

theorem connected_of_not_fails (i : ℕ) : net.connected i = true := by
  by_contra hconn
  exact hnet ⟨i, .inl (by simpa using hconn)⟩

theorem readMore_answers (s : Socket) (hle : length ≤ s.incoming.length) :
    Answers (fun left st => st.1.length + left = length ∧ s.incoming = st.1 ++ st.2.incoming) (fun _ _ => False)
    (readMore net) := by
  intro left st hpos hst
  obtain ⟨acc, t⟩ := st
  obtain ⟨hsum, hin⟩ := hst
  simp only at hsum hin
  obtain ⟨rt, bs, t', hrecv, -, hin', hbs, hcase⟩ := recv_cases net hpos t
  simp only [readMore, read, connected_of_not_fails hnet, if_true, hrecv]
  refine ⟨_, _, rfl, .inr ?_⟩
  rcases hcase with ⟨-, -, hwhy⟩ | ⟨rfl, hgt⟩
  · have := congrArg List.length hin
    rw [hwhy.resolve_left hnet, append_nil] at this
    omega
  · refine ⟨bs.length, rfl, hgt, hbs, ?_, ?_⟩
    · rw [length_append]
      omega
    · rw [hin, hin', append_assoc]

theorem readFixSize_delivers (hlen : length < 2 ^ 31) {s : Socket} (hle : length ≤ s.incoming.length) :
    ∃ s', readFixSize net length s = .ok ((length : ℤ), s.incoming.take length, s') ∧
      s'.incoming = s.incoming.drop length := by
  obtain ⟨ret, ⟨acc, s'⟩, hrun, hres⟩ :=
    fixSize_rule (readMore_answers hnet s hle) (show length < _ by omega) ([], s) ⟨by simp, rfl⟩
  rcases hres with ⟨rfl, hacc, hin⟩ | ⟨-, left, -, -, hfalse⟩
  · simp only [Nat.add_zero] at hacc hin
    refine ⟨s', ?_, ?_⟩
    · rw [readFixSize, hrun, castInt_eq hlen, hin, ← hacc, take_left]
    · rw [hin, ← hacc, drop_left]
  · exact hfalse.elim

theorem writeMore_answers (bs : List UInt8) (s : Socket) :
    Answers (fun left st => st.1.length = left ∧ st.2.sent ++ st.1 = s.sent ++ bs ∧ st.2.incoming = s.incoming)
    (fun _ _ => False)
      (writeMore net) := by
  intro left st hpos hst
  obtain ⟨rest, t⟩ := st
  obtain ⟨hlen, hsent, hin⟩ := hst
  obtain ⟨rt, n, t', hsend, hin', hsent', hn, hcase⟩ := send_cases net (rest.take left) t
  rw [take_of_length_le hlen.le] at hsend hsent' hn
  simp only [writeMore, write, connected_of_not_fails hnet, if_true, take_of_length_le hlen.le, hsend]
  refine ⟨_, _, rfl, .inr ?_⟩
  rcases hcase with ⟨-, -, hwhy⟩ | ⟨rfl, hgt⟩
  · rw [take_of_length_le hlen.le] at hwhy
    rw [hwhy.resolve_left hnet, length_nil] at hlen
    omega
  · refine ⟨n, rfl, hgt, by omega, ?_, ?_, hin'.trans hin⟩
    · rw [Int.toNat_natCast, length_drop, hlen]
    · rw [Int.toNat_natCast, hsent', append_assoc, take_append_drop, hsent]

theorem writeFixSize_delivers {bs : List UInt8} (hlen : bs.length < 2 ^ 31) (s : Socket) :
    ∃ rest s', writeFixSize net bs s = .ok ((bs.length : ℤ), rest, s') ∧ s'.sent = s.sent ++ bs ∧
      s'.incoming = s.incoming := by
  obtain ⟨ret, ⟨rest, s'⟩, hrun, hres⟩ :=
    fixSize_rule (writeMore_answers hnet bs s) (show bs.length < _ by omega) (bs, s) ⟨rfl, rfl, rfl⟩
  rcases hres with ⟨rfl, hrest, hsent, hin⟩ | ⟨-, left, -, -, hfalse⟩
  · refine ⟨rest, s', ?_, ?_, hin⟩
    · rw [writeFixSize, hrun, castInt_eq hlen]
    · rwa [length_eq_zero_iff.1 hrest, append_nil] at hsent
  · exact hfalse.elim

theorem readFixSizeArray_delivers {base : ℕ} (hbase : 0 < base) (hlen : length < 2 ^ 53) {s : Socket}
    (hle : length ≤ s.incoming.length) :
    ∃ b s', readFixSizeArray net length (make base) s = .ok (castInt length, b, s') ∧
      Holds .big b (s.incoming.take length) [] ∧ s'.incoming = s.incoming.drop length := by
  have hrep := make_represents hbase
  obtain ⟨ret, ⟨b, s'⟩, hrun, hres⟩ :=
    fixSize_rule (readArray_answers net _ _ s hlen) (by omega) _ (receiving_start hrep s length)
  rcases hres with ⟨rfl, hst⟩ | ⟨-, left, -, -, -, hwhy⟩
  · obtain ⟨r, hr, hw, hin, -⟩ := hst.write hrep hlen
    have htake : (s.incoming.take length).length = length := length_take_of_le hle
    rw [Nat.sub_zero] at hw hin
    rw [addCapacity_write hrep (by omega) (by omega)] at hw
    obtain ⟨b', hw', hb'⟩ := (holds_make hbase).write (show (s.incoming.take length).length < 2 ^ 53 by omega)
    cases hw'.symm.trans hw
    exact ⟨b, s', hrun, hb', hin⟩
  · have := hwhy.resolve_left hnet
    omega

theorem writeFixSizeArray_delivers {e : Endian} {past rest : List UInt8}
    (h : Holds e b past rest) (hlen : rest.length < 2 ^ 63) (s : Socket) :
    ∃ b' s', writeFixSizeArray net rest.length b s = .ok (castInt rest.length, b', s') ∧ Holds e b' (past ++ rest) [] ∧
      s'.sent = s.sent ++ rest := by
  obtain ⟨b', hset, hb'⟩ := h.setPosition (show past ++ rest ++ [] = past ++ rest from append_nil _)
  obtain ⟨-, f, hrep, hpos, htake⟩ := h
  have hsize := Flat.size_of_take htake
  rw [length_append] at hsize
  obtain ⟨ret, ⟨b'', s'⟩, hrun, hres⟩ := fixSize_rule (writeArray_answers net hrep s _) hlen _ (sending_start hrep s _)
  rcases hres with ⟨rfl, k, hk, -, -, hsent, hset'⟩ | ⟨-, left, -, -, -, hwhy⟩
  · subst hk
    rw [hrep.position, hpos, ← length_append] at hset'
    cases hset.symm.trans hset'
    refine ⟨b'', s', hrun, hb', ?_⟩
    have hbytes : (f.data.drop f.position).take rest.length = rest := by
      calc (f.data.drop f.position).take rest.length
          = (f.data.take f.size).drop f.position := by
            rw [drop_take]
            congr 1
            omega
        _ = rest := by rw [htake, hpos, drop_left]
    rw [hsent, hbytes]
  · have := hwhy.resolve_left hnet
    omega

end

end CoServer.Stream
