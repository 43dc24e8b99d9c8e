/-
What is written through the templates is what is read back. `Writes` and `Reads` say what an action appends and takes
off, with their rules for sequences.

Results:
- `roundTrips_varint`, `roundTrips_string`: a number, and a string whose length fits what is written before it, with
  less than `2 ^ 53` bytes.
- `typed_roundtrip`: for every host, base size of at least 1, byte order and list of such values, the values are written
  into a new buffer, the cursor is set to 0, reading the same types gives the values, and no byte is left.
- `write_u64_string_fails`: a string of more than `2 ^ 53` bytes goes through a null pointer, since `addCapacity` counts
  in `double`.
-/
import CoServer.ByteArray.Typed

namespace CoServer.ByteArray

open CoServer.Core List Nat

/-! ## Writers and readers -/

/-- at the end of the bytes, `m` appends `bs` -/
def Writes (e : Endian) (m : Action Unit) (bs : List UInt8) : Prop :=
  ∀ b past, Holds e b past [] → ∃ b', m b = .ok ((), b') ∧ Holds e b' (past ++ bs) []

/-- where `bs` comes next, `m` takes it off and gives `a` -/
def Reads {α : Type} (e : Endian) (m : Action α) (bs : List UInt8) (a : α) : Prop :=
  ∀ b past rest, Holds e b past (bs ++ rest) → ∃ b', m b = .ok (a, b') ∧ Holds e b' (past ++ bs) rest

section Rules

variable {α β : Type} {e : Endian}

variable {m : Action α} {a : α} {k : α → Action β} {bs : List UInt8}

theorem bind_of_ok {b b1 : ByteArray} (h : m b = .ok (a, b1)) : (m >>= k) b = k a b1 :=
  calc (m >>= k) b = (m b >>= fun r => k r.1 r.2) := rfl
    _ = k a b1 := by rw [h]; rfl

theorem bind_of_error {b : ByteArray} {fault : Fault} (h : m b = .error fault) : (m >>= k) b = .error fault :=
  calc (m >>= k) b = (m b >>= fun r => k r.1 r.2) := rfl
    _ = .error fault := by rw [h]; rfl

theorem Writes.nil : Writes e (pure ()) [] := by
  intro b past h
  exact ⟨b, rfl, by rwa [append_nil]⟩

theorem Writes.append {m m' : Action Unit} {bs bs' : List UInt8} (h : Writes e m bs) (h' : Writes e m' bs') :
    Writes e (m >>= fun _ => m') (bs ++ bs') := by
  intro b past hb
  obtain ⟨b1, h1, hb1⟩ := h b past hb
  obtain ⟨b2, h2, hb2⟩ := h' b1 _ hb1
  exact ⟨b2, (bind_of_ok h1).trans h2, by rwa [← append_assoc]⟩

theorem Reads.pure (a : α) : Reads e (pure a) [] a := by
  intro b past rest h
  exact ⟨b, rfl, by rwa [append_nil]⟩

theorem Reads.bind {bs bs' : List UInt8} {c : β} (h : Reads e m bs a) (h' : Reads e (k a) bs' c) :
    Reads e (m >>= k) (bs ++ bs') c := by
  intro b past rest hb
  rw [append_assoc] at hb
  obtain ⟨b1, h1, hb1⟩ := h b past _ hb
  obtain ⟨b2, h2, hb2⟩ := h' b1 _ rest hb1
  exact ⟨b2, (bind_of_ok h1).trans h2, by rwa [← append_assoc]⟩

theorem Reads.bind_nil {c : β} (h : Reads e m bs a) (h' : Reads e (k a) [] c) : Reads e (m >>= k) bs c := by
  have := h.bind h'
  rwa [append_nil] at this

theorem Reads.map (h : Reads e m bs a) (g : α → β) : Reads e (m >>= fun x => Pure.pure (g x)) bs (g a) :=
  h.bind_nil (Reads.pure (g a))

theorem writes_put (h : bs.length < 2 ^ 53) : Writes e (put bs) bs := by
  intro b past hb
  obtain ⟨b', h1, hb'⟩ := hb.write h
  exact ⟨b', by simp only [put, h1], hb'⟩

theorem reads_take (h : bs ≠ []) : Reads e (take bs.length) bs bs := by
  intro b past rest hb
  exact hb.read h

theorem Reads.order {f : Endian → Action α} {bs : List UInt8} (h : Reads e (f e) bs a) :
    Reads e (order >>= f) bs a := by
  intro b past rest hb
  obtain ⟨b', h1, hb'⟩ := h b past rest hb
  refine ⟨b', ?_, hb'⟩
  calc (ByteArray.order >>= f) b = f b.endian b := rfl
    _ = .ok (a, b') := by rw [hb.1, h1]

end Rules

/-! ## Integers of a fixed width -/

@[simp] theorem length_memory (host : Endian) (k v : ℕ) : (memory host k v).length = k := by
  cases host <;> simp [memory]

theorem load_memory (host : Endian) {k v : ℕ} (h : v < 256 ^ k) : load host (memory host k v) = v := by
  cases host with
  | little => exact ofLeBytes_leBytes h
  | big => rw [memory, load, reverse_reverse, ofLeBytes_leBytes h]

variable {e host : Endian}

theorem memory_byteswap (hne : e ≠ host) (k v : ℕ) : memory host k (byteswap k v) = memory e k v := by
  have hrev : leBytes k (byteswap k v) = (leBytes k v).reverse := by
    have := leBytes_ofLeBytes (leBytes k v).reverse
    rwa [length_reverse, length_leBytes] at this
  cases e <;> cases host
  · exact absurd rfl hne
  · simp [memory, hrev]
  · simp only [memory, hrev]
  · exact absurd rfl hne

section

variable (e host : Endian)

theorem memory_one (v : ℕ) : memory e 1 v = memory host 1 v := by cases e <;> cases host <;> rfl

theorem byteswap_byteswap {k v : ℕ} (h : v < 256 ^ k) : byteswap k (byteswap k v) = v := by
  have := leBytes_ofLeBytes (leBytes k v).reverse
  rw [length_reverse, length_leBytes] at this
  rw [byteswap, byteswap, this, reverse_reverse, ofLeBytes_leBytes h]

theorem byteswap_lt (k v : ℕ) : byteswap k v < 256 ^ k := by
  have := ofLeBytes_lt (leBytes k v).reverse
  rwa [length_reverse, length_leBytes] at this

variable (w : Width)

theorem Width.bytes_pos : 0 < w.bytes := by cases w <;> decide

theorem Width.bytes_le : w.bytes ≤ 8 := by cases w <;> decide

theorem Width.toNat_lt {w : Width} (v : BitVec w.bits) : v.toNat < 256 ^ w.bytes := by
  calc v.toNat < 2 ^ w.bits := v.isLt
    _ = 256 ^ w.bytes := pow_mul 2 8 w.bytes

theorem memory_stored (v : ℕ) :
    memory host w.bytes (if 1 < w.bytes ∧ e ≠ host then byteswap w.bytes v else v) = memory e w.bytes v := by
  by_cases hsame : e = host
  · rw [if_neg (by simp [hsame]), hsame]
  by_cases hone : 1 < w.bytes
  · rw [if_pos ⟨hone, hsame⟩, memory_byteswap hsame]
  · have h1 : w.bytes = 1 := by have := w.bytes_pos; omega
    rw [if_neg (by simp [hone]), h1, memory_one]

theorem writeInt_eq (host : Endian) (w : Width) (v : BitVec w.bits) (b : ByteArray) :
    writeInt host w v b = put (memory b.endian w.bytes v.toNat) b := by
  rw [← memory_stored b.endian host]
  rfl

theorem writes_int (v : BitVec w.bits) :
    Writes e (writeInt host w v) (memory e w.bytes v.toNat) := by
  intro b past hb
  have hlen := w.bytes_le
  rw [writeInt_eq, hb.1]
  exact writes_put (by rw [length_memory]; omega) b past hb

theorem reads_int (v : BitVec w.bits) :
    Reads e (readInt host w) (memory e w.bytes v.toNat) v := by
  refine Reads.order ?_
  have hlen : (memory e w.bytes v.toNat).length = w.bytes := length_memory e w.bytes v.toNat
  have hne : memory e w.bytes v.toNat ≠ [] := ne_nil_of_length_pos (by have := w.bytes_pos; omega)
  have hlt := Width.toNat_lt v
  have hval : (if 1 < w.bytes ∧ e ≠ host then byteswap w.bytes (load host (memory e w.bytes v.toNat))
      else load host (memory e w.bytes v.toNat)) = v.toNat := by
    rw [← memory_stored e host]
    split_ifs
    · rw [load_memory host (byteswap_lt _ _), byteswap_byteswap hlt]
    · exact load_memory host hlt
  have := (reads_take (e := e) hne).map fun bs =>
    BitVec.ofNat w.bits (if 1 < w.bytes ∧ e ≠ host then byteswap w.bytes (load host bs) else load host bs)
  simp only [hval, hlen, BitVec.ofNat_toNat, BitVec.setWidth_eq] at this
  exact this

end

/-! ## Variable-length integers -/

variable {bs s : List UInt8} {value w : ℕ} {l : Len}

theorem or_shiftLeft {i : ℕ} {r : BitVec w} {x : ℕ} (hr : r.toNat < 2 ^ i) (hx : x * 2 ^ i + r.toNat < 2 ^ w) :
    (r ||| (BitVec.ofNat w x <<< i)).toNat = x * 2 ^ i + r.toNat := by
  have hx' : x * 2 ^ i < 2 ^ w := by omega
  have hxw : x < 2 ^ w := lt_of_le_of_lt (Nat.le_mul_of_pos_right x (Nat.two_pow_pos i)) hx'
  rw [BitVec.toNat_or, BitVec.toNat_shiftLeft, BitVec.toNat_ofNat, mod_eq_of_lt hxw, shiftLeft_eq, mod_eq_of_lt hx',
    Nat.or_comm, Nat.mul_comm x, ← two_pow_add_eq_or_of_lt hr]

theorem toNat_cont (v : ℕ) : (UInt8.ofNat ((v &&& 0x7F) ||| 0x80)).toNat = v % 128 + 128 := by
  have hand : v &&& 0x7F = v % 128 := and_two_pow_sub_one_eq_mod v 7
  have hlt : v % 128 < 2 ^ 7 := mod_lt _ (by norm_num)
  have hor : v % 128 ||| 0x80 = v % 128 + 128 := by
    rw [Nat.or_comm, Nat.add_comm]
    exact (two_pow_add_eq_or_of_lt hlt 1).symm
  rw [hand, UInt8.toNat_ofNat']
  omega

theorem and_7f_cont (v : ℕ) : (UInt8.ofNat ((v &&& 0x7F) ||| 0x80) &&& 0x7f).toNat = v % 128 := by
  rw [UInt8.toNat_and, toNat_cont]
  calc (v % 128 + 128) &&& 127 = (v % 128 + 128) % 2 ^ 7 := and_two_pow_sub_one_eq_mod _ 7
    _ = v % 128 := by omega

variable {room : ℕ}

theorem varuintBytes_isSome (h : value < 2 ^ (7 * (room + 1))) : ∃ bs, varuintBytes (room + 1) value = some bs := by
  induction room generalizing value with
  | zero =>
    have hlt : ¬ value ≥ 0x80 := by omega
    exact ⟨_, by rw [varuintBytes, if_neg hlt]⟩
  | succ room ih =>
    have hshift : value >>> 7 < 2 ^ (7 * (room + 1)) := by
      rw [shiftRight_eq_div_pow]
      refine Nat.div_lt_of_lt_mul ?_
      rwa [← Nat.pow_add, Nat.add_comm 7]
    obtain ⟨bs, hbs⟩ := ih hshift
    rw [varuintBytes]
    split_ifs
    · exact ⟨_, by rw [hbs]⟩
    · exact ⟨_, rfl⟩

theorem length_varuintBytes_le (h : varuintBytes room value = some bs) : bs.length ≤ room := by
  induction room generalizing value bs with
  | zero => cases h
  | succ room ih =>
    rw [varuintBytes] at h
    split_ifs at h
    · split at h
      · cases h
      next bs' hbs' =>
      cases h
      have := ih hbs'
      rw [length_cons]
      omega
    · cases h
      simp

theorem reads_varuint (h : varuintBytes room value = some bs) {i : ℕ}
    {result : BitVec w} (hres : result.toNat < 2 ^ i) (hval : value * 2 ^ i + result.toNat < 2 ^ w) :
    Reads e (readVaruint w room i result) bs (BitVec.ofNat w (value * 2 ^ i + result.toNat)) := by
  induction room generalizing value bs i result with
  | zero => cases h
  | succ room ih =>
    rw [varuintBytes] at h
    by_cases hge : value ≥ 0x80
    · rw [if_pos hge] at h
      split at h
      · cases h
      next bs' hbs' =>
      cases h
      -- seven bits go to `result`, the others stay in `value`
      have hsplit : value * 2 ^ i = (value >>> 7) * 2 ^ (i + 7) + value % 128 * 2 ^ i := by
        rw [shiftRight_eq_div_pow, Nat.pow_add]
        calc value * 2 ^ i = (value / 2 ^ 7 * 2 ^ 7 + value % 2 ^ 7) * 2 ^ i := by rw [div_add_mod']
          _ = value / 2 ^ 7 * (2 ^ i * 2 ^ 7) + value % 2 ^ 7 * 2 ^ i := by ring
      have hor := or_shiftLeft (x := value % 128) hres (by omega)
      have hnext : (result ||| (BitVec.ofNat w (value % 128) <<< i)).toNat < 2 ^ (i + 7) := by
        have hmod : value % 128 < 128 := mod_lt _ (by norm_num)
        rw [Nat.pow_add]
        nlinarith
      have htail := ih hbs' (i := i + 7) hnext (by rw [hor]; omega)
      rw [hor, ← add_assoc, ← hsplit] at htail
      refine (reads_take (cons_ne_nil (UInt8.ofNat ((value &&& 0x7F) ||| 0x80)) [])).bind ?_
      have hbig : ¬ UInt8.ofNat ((value &&& 0x7F) ||| 0x80) < 0x80 := by
        rw [UInt8.lt_iff_toNat_lt, toNat_cont]
        simp
      simp only [headD_cons, if_neg hbig, and_7f_cont]
      exact htail
    · rw [if_neg hge] at h
      cases h
      have hb : (UInt8.ofNat value).toNat = value := by
        rw [UInt8.toNat_ofNat']
        omega
      have hsmall : UInt8.ofNat value < 0x80 := by
        rw [UInt8.lt_iff_toNat_lt, hb]
        simpa using hge
      have hor := or_shiftLeft hres hval
      refine Reads.bind_nil (reads_take (cons_ne_nil (UInt8.ofNat value) [])) ?_
      simp only [headD_cons, if_pos hsmall, hb]
      rw [show result ||| BitVec.ofNat w value <<< i = BitVec.ofNat w (value * 2 ^ i + result.toNat) by
        rw [← hor, BitVec.ofNat_toNat, BitVec.setWidth_eq]]
      exact Reads.pure _

/-- what the one writes, the other reads -/
def RoundTrips {α : Type} (e : Endian) (m : Action Unit) (r : Action α) (v : α) : Prop :=
  ∃ bs, Writes e m bs ∧ Reads e r bs v

theorem RoundTrips.map {α β : Type} {m : Action Unit} {r : Action α} {v : α} (h : RoundTrips e m r v) (g : α → β) :
    RoundTrips e m (r >>= fun x => pure (g x)) (g v) := by
  obtain ⟨bs, h1, h2⟩ := h
  exact ⟨bs, h1, h2.map g⟩

theorem roundTrips_int (e host : Endian) (w : Width) (v : BitVec w.bits) :
    RoundTrips e (writeInt host w v) (readInt host w) v :=
  ⟨_, writes_int e host w v, reads_int e host w v⟩

theorem writes_varuint (hroom : room ≤ 10) (hbs : varuintBytes room value = some bs) :
    Writes e (writeVaruint room value) bs := by
  have hlen := length_varuintBytes_le hbs
  simp only [writeVaruint, hbs]
  exact writes_put (by omega)

theorem reads_varuint_all {v : BitVec w} (hbs : varuintBytes room v.toNat = some bs) :
    Reads e (readVaruint w room 0 0#w) bs v := by
  have hval : v.toNat * 2 ^ 0 + (0#w).toNat = v.toNat := by simp
  have := reads_varuint (e := e) hbs (show (0#w).toNat < 2 ^ 0 by simp) (by rw [hval]; exact v.isLt)
  rwa [hval, BitVec.ofNat_toNat, BitVec.setWidth_eq] at this

theorem roundTrips_varuint (e : Endian) (hroom : room < 10) (hw : w ≤ 7 * (room + 1)) (v : BitVec w) :
    RoundTrips e (writeVaruint (room + 1) v.toNat) (readVaruint w (room + 1) 0 0#w) v := by
  obtain ⟨bs, hbs⟩ := varuintBytes_isSome (v.isLt.trans_le (Nat.pow_le_pow_right (by norm_num) hw))
  exact ⟨bs, writes_varuint (by omega) hbs, reads_varuint_all hbs⟩

variable {n : ℕ}

theorem setWidth_signExtend {m : ℕ} (h : m ≤ n) (v : BitVec m) : (v.signExtend n).setWidth m = v := by
  apply BitVec.eq_of_getLsbD_eq
  intro i hi
  simp only [BitVec.getLsbD_setWidth, BitVec.getLsbD_signExtend, hi, decide_true, Bool.true_and, if_true]
  simp [show i < n by omega]

theorem roundTrips_varint (e : Endian) (signed : Bool) (w : Width) (v : BitVec w.bits) :
    RoundTrips e (writeVarint signed w v) (readVarint signed w) v := by
  unfold writeVarint readVarint
  by_cases hle : w.bytes ≤ 4
  · have hbits : w.bits ≤ 32 := by unfold Width.bits; omega
    have h32 := fun u : BitVec 32 => roundTrips_varuint e (show 4 < 10 by norm_num) (by norm_num) u
    cases signed with
    | true =>
      simp only [if_pos hle, if_true]
      have := (h32 (zigzagEncode (v.signExtend 32))).map fun u => (zigzagDecode u).setWidth w.bits
      rwa [zigzag_decode_encode (by norm_num), setWidth_signExtend hbits] at this
    | false =>
      simp only [if_pos hle, Bool.false_eq_true, if_false]
      have := (h32 (v.setWidth 32)).map fun u => u.setWidth w.bits
      rwa [BitVec.setWidth_setWidth_of_le _ hbits, BitVec.setWidth_eq] at this
  · have hbits : w.bits ≤ 64 := by unfold Width.bits; have := w.bytes_le; omega
    have h64 := fun u : BitVec 64 => roundTrips_varuint e (show 9 < 10 by norm_num) (by norm_num) u
    cases signed with
    | true =>
      simp only [if_neg hle, if_true]
      have := (h64 (zigzagEncode (v.signExtend 64))).map fun u => (zigzagDecode u).setWidth w.bits
      rwa [zigzag_decode_encode (by norm_num), setWidth_signExtend hbits] at this
    | false =>
      simp only [if_neg hle, Bool.false_eq_true, if_false]
      have := (h64 (v.setWidth 64)).map fun u => u.setWidth w.bits
      rwa [BitVec.setWidth_setWidth_of_le _ hbits, BitVec.setWidth_eq] at this

/-! ## Strings -/

def Len.bits : Len → ℕ
  | .u16 => 16
  | .u32 => 32
  | .u64 => 64
  | .varint => 64

theorem RoundTrips.toNat {m : Action Unit} {r : Action (BitVec w)}
    (h : RoundTrips e m r (BitVec.ofNat w n)) (hn : n < 2 ^ w) : RoundTrips e m (r >>= fun x => pure x.toNat) n := by
  have := h.map BitVec.toNat
  rwa [BitVec.toNat_ofNat, mod_eq_of_lt hn] at this

theorem roundTrips_len (e host : Endian) (h : n < 2 ^ l.bits) :
    RoundTrips e (writeLen host l n) (readLen host l) n := by
  cases l with
  | u16 => exact (roundTrips_int e host .w16 (BitVec.ofNat 16 n)).toNat h
  | u32 => exact (roundTrips_int e host .w32 (BitVec.ofNat 32 n)).toNat h
  | u64 => exact (roundTrips_int e host .w64 (BitVec.ofNat 64 n)).toNat h
  | varint => exact (roundTrips_varint e false .w64 (BitVec.ofNat 64 n)).toNat h

theorem writes_string (h : Writes e (writeLen host l s.length) bs)
    (hshort : s.length < 2 ^ 53) : Writes e (writeString host l s) (bs ++ s) := by
  refine h.append ?_
  by_cases hnil : s = []
  · rw [hnil]
    exact Writes.nil
  · rw [if_pos hnil]
    exact writes_put hshort

theorem reads_string (h : Reads e (readLen host l) bs s.length) : Reads e (readString host l) (bs ++ s) s := by
  refine h.bind ?_
  by_cases hnil : s = []
  · rw [hnil]
    exact Reads.pure []
  · rw [if_pos (length_pos_of_ne_nil hnil)]
    exact reads_take hnil

theorem roundTrips_string (e host : Endian) (hfit : s.length < 2 ^ l.bits) (hshort : s.length < 2 ^ 53) :
    RoundTrips e (writeString host l s) (readString host l) s := by
  obtain ⟨bs, hw, hr⟩ := roundTrips_len e host hfit
  exact ⟨bs ++ s, writes_string hw hshort, reads_string hr⟩

/-! ## Lists of values -/

/-- the length of a string fits what is written before it -/
def Fits : Typed → Prop
  | ⟨.string l, s⟩ => length s < 2 ^ l.bits
  | ⟨.int _ _, _⟩ | ⟨.float _, _⟩ | ⟨.varint _ _, _⟩ => True

/-- a string of less than `2 ^ 53` bytes -/
def Short : Typed → Prop
  | ⟨.string _, s⟩ => length s < 2 ^ 53
  | ⟨.int _ _, _⟩ | ⟨.float _, _⟩ | ⟨.varint _ _, _⟩ => True

theorem roundTrips_ty (e host : Endian) (v : Typed) (hfit : Fits v) (hshort : Short v) :
    RoundTrips e (writeTy host v.1 v.2) (readTy host v.1) v.2 := by
  obtain ⟨t, x⟩ := v
  cases t with
  | int signed w => exact roundTrips_int e host w x
  | float double => exact roundTrips_int e host (floatWidth double) x
  | varint signed w => exact roundTrips_varint e signed w x
  | string l => exact roundTrips_string e host hfit hshort

theorem roundTrips_all (e host : Endian) (vs : List Typed) (hfit : ∀ v ∈ vs, Fits v) (hshort : ∀ v ∈ vs, Short v) :
    RoundTrips e (writeAll host vs) (readAll host (vs.map Sigma.fst)) vs := by
  induction vs with
  | nil => exact ⟨[], Writes.nil, Reads.pure []⟩
  | cons v vs ih =>
    obtain ⟨bs, hw, hr⟩ := roundTrips_ty e host v (hfit v mem_cons_self) (hshort v mem_cons_self)
    obtain ⟨bs', hw', hr'⟩ := ih (fun u hu => hfit u (mem_cons_of_mem v hu)) fun u hu => hshort u (mem_cons_of_mem v hu)
    exact ⟨bs ++ bs', hw.append hw', hr.bind (hr'.map fun us => v :: us)⟩

/-- **What was written is read back.** -/
theorem typed_roundtrip (host : Endian) (base : ℕ) (hbase : 0 < base) (little : Bool) (vs : List Typed)
    (hfit : ∀ v ∈ vs, Fits v) (hshort : ∀ v ∈ vs, Short v) :
    ∃ b b0 b', writeAll host vs ((make base).setIsLittleEndian little) = .ok ((), b) ∧ b.setPosition 0 = .ok b0 ∧
      readAll host (vs.map Sigma.fst) b0 = .ok (vs, b') ∧ b'.getReadSize = 0 := by
  obtain ⟨bs, hw, hr⟩ := roundTrips_all (if little then .little else .big) host vs hfit hshort
  obtain ⟨b, h1, hb⟩ := hw _ [] ((holds_make hbase).setIsLittleEndian little)
  obtain ⟨b0, h2, hb0⟩ := hb.rewind
  obtain ⟨b', h3, hb'⟩ := hr b0 [] [] hb0
  exact ⟨b, b0, b', h1, h2, h3, hb'.getReadSize⟩

/-- the least numbers, the largest unsigned one, a float, an empty string and one over the end of a chunk -/
def mixed : List Typed :=
  [⟨.varint true .w32, BitVec.intMin 32⟩, ⟨.varint true .w64, BitVec.intMin 64⟩,
    ⟨.varint false .w64, BitVec.allOnes 64⟩,
    ⟨.int true .w16, BitVec.intMin 16⟩, ⟨.float true, 0x7ff8000000000001#64⟩, ⟨.string .varint, []⟩,
    ⟨.string .u16, [1, 2, 3, 4]⟩]

theorem typed_roundtrip_mixed : ∃ b b0 b', writeAll .little mixed ((make 3).setIsLittleEndian false) = .ok ((), b) ∧
    b.setPosition 0 = .ok b0 ∧ readAll .little (mixed.map Sigma.fst) b0 = .ok (mixed, b') ∧ b'.getReadSize = 0 :=
  typed_roundtrip .little 3 (by decide) false mixed (by simp [mixed, Fits, Len.bits]) (by simp [mixed, Short])

/-! ## More bytes than chunks -/

theorem writeNodes_short {base : ℕ} {nodes : List (List UInt8)} (hn : ∀ n ∈ nodes, n.length = base) {off : ℕ}
    (hoff : off ≤ base) (h : nodes.length * base < off + bs.length) : writeNodes nodes off bs = .error .nullNode := by
  induction nodes generalizing off bs with
  | nil => rfl
  | cons node rest ih =>
    have hnode : node.length = base := hn node mem_cons_self
    rw [length_cons, succ_mul] at h
    have hmore : ¬ base - off ≥ bs.length := by omega
    simp only [writeNodes, hnode, if_neg (not_lt.2 hoff), if_neg hmore]
    rw [ih (fun n hmem => hn n (mem_cons_of_mem node hmem)) (zero_le _) (by rw [length_drop]; omega)]

theorem write_short {b : ByteArray} {f : Flat} (h : Represents b f) (hfull : b.position = b.capacity)
    (hshort : Double.ceilDiv bs.length b.baseSize * b.baseSize < bs.length) : b.write bs = .error .nullNode := by
  have hbs : bs ≠ [] := ne_nil_of_length_pos (zero_le _ |>.trans_lt hshort)
  have hcap : b.getCapacity = 0 := by rw [getCapacity, hfull, Nat.sub_self]
  have hlen : 0 < bs.length := length_pos_of_ne_nil hbs
  have hoff : b.position % b.baseSize = 0 := by rw [hfull, h.capacity, mul_mod_left]
  unfold write addCapacity
  rw [if_neg hbs, if_neg hlen.ne', hcap, if_neg (show ¬ 0 ≥ bs.length by omega)]
  simp only [if_neg h.base_pos.ne', if_true]
  generalize Double.ceilDiv bs.length b.baseSize = count at hshort
  by_cases hzero : count = 0
  · rw [if_pos hzero]
  rw [if_neg hzero]
  simp only [hoff, drop_left]
  rw [writeNodes_short (fun n hn => by rw [eq_of_mem_replicate hn, newNode, length_replicate]) (zero_le _)
    (by rw [length_replicate, zero_add]; exact hshort)]

theorem write_make_one (hbs : bs ≠ []) (hlt : bs.length < 2 ^ 53) :
    ∃ b f, (make 1).write bs = .ok b ∧ Represents b f ∧ b.baseSize = 1 ∧ b.position = b.capacity := by
  obtain ⟨b, h1, hr, -⟩ := write_represents (make_represents one_pos) hlt
  have hlen : 0 < bs.length := length_pos_of_ne_nil hbs
  refine ⟨b, _, h1, hr, hr.base, ?_⟩
  rw [hr.position, ← hr.length_data]
  simp only [Flat.write]
  rw [length_splice (Flat.le_length_reserve _ _)]
  simp only [Flat.reserve, Flat.make, Flat.roundUp, length_append, length_replicate]
  omega

theorem writeString_u64_short (host : Endian) (hs : s.length = 2 ^ 53 + 1) :
    writeString host .u64 s (make 1) = .error .nullNode := by
  have hnil : s ≠ [] := ne_nil_of_length_pos (by omega)
  have hmem : (memory .big 8 (BitVec.ofNat 64 s.length).toNat).length = 8 := length_memory _ _ _
  obtain ⟨b, f, h1, hr, hbase, hfull⟩ :=
    write_make_one (ne_nil_of_length_pos (by rw [hmem]; norm_num)) (by rw [hmem]; norm_num)
  have hlead : writeLen host .u64 s.length (make 1) = .ok ((), b) := by
    calc writeLen host .u64 s.length (make 1) = put (memory .big 8 (BitVec.ofNat 64 s.length).toNat) (make 1) :=
          writeInt_eq host .w64 (BitVec.ofNat 64 s.length) (make 1)
      _ = .ok ((), b) := by simp only [put, h1]
  have hwrite : b.write s = .error .nullNode := by
    refine write_short hr hfull ?_
    rw [hbase, hs, Double.ceilDiv_two_pow]
    norm_num
  calc writeString host .u64 s (make 1)
      = (writeLen host .u64 s.length (make 1) >>= fun r => (if s ≠ [] then put s else pure ()) r.2) := rfl
    _ = put s b := by rw [hlead, if_pos hnil]; rfl
    _ = .error .nullNode := by simp only [put, hwrite]

theorem write_u64_string_fails : Fits ⟨.string .u64, replicate (2 ^ 53 + 1) 0⟩ ∧
    writeAll .little [⟨.string .u64, replicate (2 ^ 53 + 1) 0⟩]
    ((make 1).setIsLittleEndian false) = .error .nullNode := by
  have hs : (replicate (2 ^ 53 + 1) (0 : UInt8)).length = 2 ^ 53 + 1 := length_replicate
  constructor
  · show (replicate (2 ^ 53 + 1) (0 : UInt8)).length < 2 ^ 64
    norm_num
  · calc writeAll .little [⟨.string .u64, replicate (2 ^ 53 + 1) 0⟩] ((make 1).setIsLittleEndian false)
        = (writeString .little .u64 (replicate (2 ^ 53 + 1) 0) (make 1) >>= fun r => writeAll .little [] r.2) := rfl
      _ = .error .nullNode := by rw [writeString_u64_short .little hs]; rfl

end CoServer.ByteArray
