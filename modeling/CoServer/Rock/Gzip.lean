/-
Frames of messages that are compressed. `ZlibStream::getByteArray` leaves the cursor of its array at the end, and
neither side sets it back: `serializeTo` sends the header and returns -4 (`serializeTo_compressed`), and `parseFrom`
returns `nullptr` (`receiveBody_compressed`).

Results:
- `compressed_never`: for every message that `serializeTo` compresses, every zlib that does what it is documented to,
  and streams that accept all writes, `serializeTo` returns -4 with nothing sent but the header, whose length is that of
  the compressed bytes; and from a frame with the compressed bytes the array handed to the parsing of the message has
  all the bytes of the message before its cursor, so that `parseFrom` gives none.
- `large_request_lost`: the header says 47 bytes and none follow; and from a frame with them the message is not parsed.
-/
import CoServer.Rock.Frame

namespace CoServer.Rock

open List Rock.Config
open CoServer.ByteArray
open CoServer.Stream

/-- `c` is what `deflate` makes of `bs`, given in some pieces -/
def Gzip.Compressed (gz : Gzip) (bs c : List UInt8) : Prop :=
  ∃ pieces : List (List UInt8), pieces.flatten = bs ∧ gz.deflate.output gz.deflate.init pieces = some c

/-- what zlib is documented to do: `deflate` accepts every input, its output is not empty (it starts with a header), and
`inflate` makes the input of it again, in whatever pieces it is given -/
structure Gzip.Works (gz : Gzip) : Prop where
  accepts : ∀ pieces, ∃ c, gz.deflate.output gz.deflate.init pieces = some c
  nonempty : ∀ bs c, gz.Compressed bs c → 0 < c.length
  inverts : ∀ bs c, gz.Compressed bs c → ∀ pieces : List (List UInt8), pieces.flatten = c →
    gz.inflate.output gz.inflate.init pieces = some bs

variable {cfg : Config} {net : Net} {gz : Gzip}

/-! ## Arrays made of buffers -/

theorem fits_create (z : Zlib) : ZlibStream.Fits (ZlibStream.create z).buffs := by
  intro buff hmem
  cases hmem

variable {ba : ByteArray}

theorem compress_holds (hgz : gz.Works) {e : Endian} {past rest : List UInt8} (h : Holds e ba past rest)
    (hlen : rest.length < 2 ^ 64) :
    ∃ c ba', gz.Compressed rest c ∧ compress gz ba = .ok (.inr ba') ∧ Holds .big ba' c [] := by
  obtain ⟨pieces, hflat, hwrite⟩ := ZlibStream.write_pieces h hlen (ZlibStream.create gz.deflate)
  obtain ⟨c, hc⟩ := hgz.accepts pieces
  obtain ⟨st1, st2, h1, h2, h3, h4⟩ := ZlibStream.process_flush _ (fits_create gz.deflate) pieces hc
  obtain ⟨ba', h5, h6⟩ := ZlibStream.getByteArray_holds h4
  rw [h3] at h6
  refine ⟨c, ba', ⟨pieces, hflat, hc⟩, ?_, h6⟩
  simp only [compress, hwrite, h1, h2, h5, bind, Except.bind]
  rfl

theorem gunzip_holds (hgz : gz.Works) {bs c : List UInt8} (hc : gz.Compressed bs c) {e : Endian} {past : List UInt8}
    (h : Holds e ba past c) (hlen : c.length < 2 ^ 64) :
    ∃ ba', gunzip gz ba = .ok (some ba') ∧ Holds .big ba' bs [] := by
  obtain ⟨pieces, hflat, hwrite⟩ := ZlibStream.write_pieces h hlen (ZlibStream.create gz.inflate)
  obtain ⟨st1, st2, h1, h2, h3, h4⟩ :=
    ZlibStream.process_flush _ (fits_create gz.inflate) pieces (hgz.inverts bs c hc pieces hflat)
  obtain ⟨ba', h5, h6⟩ := ZlibStream.getByteArray_holds h4
  rw [h3] at h6
  refine ⟨ba', ?_, h6⟩
  simp only [gunzip, hwrite, h1, h2, h5, bind, Except.bind]
  rfl

theorem compress_cases {r : ℤ ⊕ ByteArray} (h : compress gz ba = .ok r) :
    (∃ ret, r = .inl ret ∧ ret < 0) ∨ ∃ ba', r = .inr ba' ∧ ba'.getReadSize = 0 := by
  simp only [compress, bind, Except.bind] at h
  cases hwrite : (ZlibStream.create gz.deflate).write ba with
  | error e => simp only [hwrite] at h; cases h
  | ok w =>
    simp only [hwrite] at h
    cases w with
    | none =>
      cases h
      exact .inl ⟨-1, rfl, by norm_num⟩
    | some st1 =>
      cases hflush : st1.flush with
      | none =>
        simp only [hflush] at h
        cases h
        exact .inl ⟨-2, rfl, by norm_num⟩
      | some st2 =>
        simp only [hflush] at h
        have hfits1 : ZlibStream.Fits st1.buffs := by
          unfold ZlibStream.write at hwrite
          split at hwrite
          · cases hwrite
          · exact ZlibStream.process_fits (fits_create gz.deflate) (Except.ok.inj hwrite)
        obtain ⟨ba', h1, h2⟩ := ZlibStream.getByteArray_holds (ZlibStream.process_fits hfits1 hflush)
        rw [h1] at h
        cases h
        exact .inr ⟨ba', rfl, h2.getReadSize⟩

/-! ## The sender -/

theorem sendFrame_at_end {host : Endian} {flag : UInt8} (h : ba.getReadSize = 0) {s s' : Socket} {ret : ℤ}
    (hrun : sendFrame host net flag ba s = .ok (ret, s')) : ret < 0 := by
  simp only [sendFrame, bind, Except.bind, h] at hrun
  split at hrun
  · cases hrun
  split_ifs at hrun
  · cases hrun
    norm_num
  · have hzero : ∀ s1, writeFixSizeArray net 0 ba s1 = .ok (castInt 0, ba, s1) := fun _ => rfl
    cases hrun
    norm_num

theorem size_of_rewind {ba' : ByteArray} (h : ba.setPosition 0 = .ok ba') : ba'.size = ba.size := by
  unfold setPosition at h
  split_ifs at h
  split at h
  · cases h
  · cases h
    exact max_eq_left (Nat.zero_le _)

theorem serializeTo_compressed_fails {host : Endian} {msg : Message}
    (hbig : ∀ ba, toByteArray host msg = .ok (some ba) → cfg.gzipMinLength.toNat ≤ (BitVec.ofNat 32 ba.size).toNat)
    {s s' : Socket} {ret : ℤ} (h : serializeTo cfg host net gz msg s = .ok (ret, s')) : ret < 0 := by
  simp only [serializeTo, bind, Except.bind] at h
  cases hto : toByteArray host msg with
  | error e => simp only [hto] at h; cases h
  | ok r =>
    simp only [hto] at h
    cases r with
    | none => cases h
    | some ba =>
      cases hset : ba.setPosition 0 with
      | error e => simp only [hset] at h; cases h
      | ok ba0 =>
        simp only [hset] at h
        have hlarge := hbig ba hto
        rw [← size_of_rewind hset] at hlarge
        rw [if_pos hlarge] at h
        cases hcomp : compress gz ba0 with
        | error e => simp only [hcomp] at h; cases h
        | ok r =>
          simp only [hcomp] at h
          rcases compress_cases hcomp with ⟨k, rfl, hk⟩ | ⟨ba', rfl, hend⟩
          · cases h
            exact hk
          · exact sendFrame_at_end hend h

theorem serializeTo_compressed (hnet : ¬ net.Fails) (hgz : gz.Works) (host : Endian) {msg : Message}
    (hlen : (encode msg).length < 2 ^ 53)
    (hbig : cfg.gzipMinLength.toNat ≤ (BitVec.ofNat 32 (encode msg).length).toNat) :
    ∃ c, gz.Compressed (encode msg) c ∧ ∀ s, ∃ s', serializeTo cfg host net gz msg s = .ok (-4, s') ∧
      s'.sent = s.sent ++ headerBytes 1 (BitVec.ofNat 32 c.length).toNat := by
  obtain ⟨ba, hto, hba⟩ := toByteArray_holds host hlen
  obtain ⟨ba0, hset, hba0⟩ := hba.rewind
  rw [append_nil] at hba0
  have hsize : ba0.size = (encode msg).length := by rw [hba0.size]; simp
  rw [← hsize] at hbig
  obtain ⟨c, ba', hc, hcomp, hba'⟩ := compress_holds hgz hba0 (by omega)
  refine ⟨c, hc, fun s => ?_⟩
  obtain ⟨s', hsend, hsent⟩ := sendFrame_delivers host hnet hba' (by simp) 1 s
  refine ⟨s', ?_, hsent⟩
  simp only [serializeTo, hto, hset, bind, Except.bind, if_pos hbig, hcomp, hsend]
  rfl

/-! ## The receiver -/

theorem receiveBody_compressed (cfg : Config) (hnet : ¬ net.Fails) (hgz : gz.Works) (host : Endian)
    {bs c rest : List UInt8}
    (hc : gz.Compressed bs c) (hmax : c.length < cfg.maxLength.toNat) (hlen : c.length < 2 ^ 31) {t : Socket}
    (hin : t.incoming = headerBytes 1 (BitVec.ofNat 32 c.length).toNat ++ (c ++ rest)) :
    ∃ ba t', receiveBody cfg host net gz t = .ok (some ba, t') ∧ Holds .big ba bs [] ∧ parseFrom cfg host net gz t = .ok
    (none, t') := by
  obtain ⟨ba, t', hba, -, hrun⟩ := receiveBody_frame cfg gz host hnet (hgz.nonempty bs c hc) hlen hmax hin
  obtain ⟨ba', hgunzip, hba'⟩ := gunzip_holds hgz hc hba (by omega)
  rw [hgunzip] at hrun
  refine ⟨ba', t', hrun, hba', ?_⟩
  -- the type of the message would be read at the end
  have hthrow : parseMessage host ba' = .error .outOfRange := by
    have htake : take 1 ba' = .error .outOfRange := hba'.read_throws (by simp)
    have hread : readInt host .w8 ba' = .error .outOfRange := (bind_of_ok rfl).trans (bind_of_error htake)
    exact bind_of_error hread
  rw [parseFrom_eq host gz hrun, hthrow]

/-! ## Messages that are compressed -/

/-- what compression is for: `serializeTo` succeeds, the length in the header is the number of bytes sent after it, and
from that frame the array handed to the parsing of the message has the bytes of the message and its cursor at 0 -/
def Delivered (cfg : Config) (host host' : Endian) (net net' : Net) (gz : Gzip) (msg : Message) (s t : Socket)
    (rest : List UInt8) : Prop :=
  ∃ ret s' length body ba t', serializeTo cfg host net gz msg s = .ok (ret, s') ∧ 0 < ret ∧
    s'.sent = s.sent ++ (headerBytes 1 length ++ body) ∧ length = body.length ∧
    receiveBody cfg host' net' gz { t with incoming := headerBytes 1 length ++ body ++ rest } = .ok (some ba, t') ∧
    Holds .big ba [] (encode msg)

/-- **No compressed message is delivered.** -/
theorem compressed_never (host host' : Endian) {net' : Net} (hnet : ¬ net.Fails) (hnet' : ¬ net'.Fails) (hgz : gz.Works)
    (msg : Message)
    (hbig : ∀ ba, toByteArray host msg = .ok (some ba) → cfg.gzipMinLength.toNat ≤ (BitVec.ofNat 32 ba.size).toNat) :
    (∀ s t rest, ¬ Delivered cfg host host' net net' gz msg s t rest) ∧
    ((encode msg).length < 2 ^ 53 → ∃ c, gz.Compressed (encode msg) c ∧ 0 < c.length ∧
      (∀ s, ∃ s', serializeTo cfg host net gz msg s = .ok (-4, s') ∧
        s'.sent = s.sent ++ headerBytes 1 (BitVec.ofNat 32 c.length).toNat) ∧
      ∀ t rest, c.length < cfg.maxLength.toNat → c.length < 2 ^ 31 →
        t.incoming = headerBytes 1 (BitVec.ofNat 32 c.length).toNat ++ (c ++ rest) →
        ∃ ba t', receiveBody cfg host' net' gz t = .ok (some ba, t') ∧ Holds .big ba (encode msg) [] ∧
          parseFrom cfg host' net' gz t = .ok (none, t')) := by
  constructor
  · rintro s t rest ⟨ret, s', length, body, ba, t', hser, hpos, -⟩
    have := serializeTo_compressed_fails hbig hser
    omega
  intro hlen
  obtain ⟨ba, hto, hba⟩ := toByteArray_holds host hlen
  have hsize : ba.size = (encode msg).length := by rw [hba.size]; simp
  have hlarge := hbig ba hto
  rw [hsize] at hlarge
  obtain ⟨c, hc, hser⟩ := serializeTo_compressed hnet hgz host hlen hlarge
  refine ⟨c, hc, hgz.nonempty _ c hc, hser, ?_⟩
  intro t rest hmax h31 hin
  exact receiveBody_compressed cfg hnet' hgz host' hc hmax h31 hin

/-! ## An example with the output of zlib -/

/-- a request with a body of 4096 bytes -/
def largeRequest : Message := .request 2#32 3#32 (replicate 4096 97)

/-- its encoding as `deflate` compresses it -/
def largeRequestGzip : List UInt8 :=
  [0x1f, 0x8b, 0x08, 0x00, 0x00, 0x00, 0x00, 0x00, 0x00, 0x03, 0xed, 0xc1, 0x01, 0x0d, 0x00, 0x20, 0x10, 0x00, 0xa1,
    0x9b, 0x16, 0xf9,
    0x6a, 0x36, 0x31, 0xba, 0x3d, 0x1c, 0x50, 0xad, 0x6a, 0xdf, 0x39, 0x00, 0x00, 0x00, 0xc0, 0xf7, 0x1e, 0x4a, 0xa7,
    0xc6, 0x6b, 0x0a,
    0x10, 0x00, 0x00]

/-- the input is collected, and `f` of it comes out at the end -/
def atEnd (f : List UInt8 → List UInt8) : Zlib :=
  ⟨List UInt8, [], fun st v finish => some (st ++ v, if finish then f (st ++ v) else [])⟩

theorem output_atEnd (f : List UInt8 → List UInt8) (st : List UInt8) (pieces : List (List UInt8)) :
    (atEnd f).output st pieces = some (f (st ++ pieces.flatten)) := by
  induction pieces generalizing st with
  | nil => rfl
  | cons v vs ih =>
    have hrest := ih (st ++ v)
    simp only [Zlib.output, atEnd] at hrest ⊢
    simp [hrest]

/-- zlib on that request; other inputs are stored behind a byte -/
def exampleGzip : Gzip where
  deflate := atEnd fun bs => if bs = encode largeRequest then largeRequestGzip else 0 :: bs
  inflate := atEnd fun c => if c = largeRequestGzip then encode largeRequest else c.tail

theorem compressed_example {bs c : List UInt8} (h : exampleGzip.Compressed bs c) :
    c = if bs = encode largeRequest then largeRequestGzip else 0 :: bs := by
  obtain ⟨pieces, rfl, hout⟩ := h
  have := output_atEnd (fun bs => if bs = encode largeRequest then largeRequestGzip else 0 :: bs) [] pieces
  exact Option.some.inj (hout.symm.trans this)

theorem exampleGzip_works : exampleGzip.Works where
  accepts pieces :=
  ⟨_, output_atEnd (fun bs => if bs = encode largeRequest then largeRequestGzip else 0 :: bs) [] pieces⟩
  nonempty bs c h := by
    rw [compressed_example h]
    split_ifs
    · decide
    · simp
  inverts bs c h pieces hflat := by
    have hout := output_atEnd (fun c => if c = largeRequestGzip then encode largeRequest else c.tail) [] pieces
    rw [nil_append, hflat, compressed_example h] at hout
    refine Eq.trans hout (congrArg some ?_)
    by_cases hbs : bs = encode largeRequest
    · simp [hbs]
    have hne : (0 : UInt8) :: bs ≠ largeRequestGzip := by
      intro heq
      exact absurd (cons.inj heq).1 (by decide)
    simp [if_neg hbs, if_neg hne]

theorem length_largeRequest : (encode largeRequest).length = 4106 := by
  simp only [largeRequest, encode, stringBytes, wordBytes, length_append, length_replicate, length_memory]
  rfl

theorem largeRequest_compressed (ba : ByteArray) (h : toByteArray .little largeRequest = .ok (some ba)) :
    default.gzipMinLength.toNat ≤ (BitVec.ofNat 32 ba.size).toNat := by
  obtain ⟨ba', hto, hba⟩ :=
    toByteArray_holds .little (show (encode largeRequest).length < 2 ^ 53 by rw [length_largeRequest]; norm_num)
  obtain rfl : ba' = ba := Option.some.inj (Except.ok.inj (hto.symm.trans h))
  rw [hba.size, length_largeRequest]
  decide

theorem compressed_never_large :
    (∀ s t rest, ¬ Delivered default .little .little threeBytes threeBytes exampleGzip largeRequest s t rest) ∧
      ∃ c : List UInt8, 0 < c.length ∧ ∃ s',
        serializeTo default .little threeBytes exampleGzip largeRequest ⟨[], [], 0⟩ = .ok (-4, s') ∧
          s'.sent = headerBytes 1 (BitVec.ofNat 32 c.length).toNat := by
  obtain ⟨h1, h2⟩ := compressed_never .little .little threeBytes_works threeBytes_works exampleGzip_works largeRequest
    largeRequest_compressed
  obtain ⟨c, -, hpos, h3, -⟩ := h2 (by rw [length_largeRequest]; norm_num)
  obtain ⟨s', h4, h5⟩ := h3 ⟨[], [], 0⟩
  exact ⟨h1, c, hpos, s', h4, h5⟩

theorem large_request_lost : default.gzipMinLength.toNat ≤ (encode largeRequest).length ∧
    (∃ s', serializeTo default .little threeBytes exampleGzip largeRequest ⟨[], [], 0⟩ = .ok (-4, s') ∧
      s'.sent = headerBytes 1 47) ∧
    ∃ ba t', receiveBody default .little threeBytes exampleGzip ⟨headerBytes 1 47 ++ largeRequestGzip, [], 0⟩ = .ok
    (some ba, t') ∧
      ba.position = 4106 ∧
      parseFrom default .little threeBytes exampleGzip ⟨headerBytes 1 47 ++ largeRequestGzip, [], 0⟩ = .ok
    (none, t') := by
  have hlen : (encode largeRequest).length < 2 ^ 53 := by rw [length_largeRequest]; norm_num
  have hbig : default.gzipMinLength.toNat ≤ (BitVec.ofNat 32 (encode largeRequest).length).toNat := by
    rw [length_largeRequest]
    decide
  obtain ⟨c, hc, hser⟩ := serializeTo_compressed threeBytes_works exampleGzip_works .little hlen hbig
  obtain rfl : c = largeRequestGzip := by rw [compressed_example hc, if_pos rfl]
  refine ⟨by rw [length_largeRequest]; decide, ?_, ?_⟩
  · obtain ⟨s', h1, h2⟩ := hser ⟨[], [], 0⟩
    exact ⟨s', h1, h2⟩
  have hin : headerBytes 1 47 ++ largeRequestGzip =
      headerBytes 1 (BitVec.ofNat 32 largeRequestGzip.length).toNat ++ (largeRequestGzip ++ []) := by
    rfl
  obtain ⟨ba, t', h1, h2, h3⟩ :=
    receiveBody_compressed default threeBytes_works exampleGzip_works .little hc (by decide)
    (by decide) (t := ⟨headerBytes 1 47 ++ largeRequestGzip, [], 0⟩) hin
  exact ⟨ba, t', h1, by rw [h2.position, length_largeRequest], h3⟩

end CoServer.Rock
