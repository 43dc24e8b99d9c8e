/-
The limits of a fragment: the maximum that `wsRecvMessage` holds a peer to, and payloads without a byte.

The running total is an `int`, the announced length has 64 bits and their sum is taken modulo 2^64. A sum that wraps
passes the check, but its length is then no positive `int`, so that nothing is read. `Guarded` is what a turn has to
keep to, in the state before it.

Results:
- `turn_ends`: a turn is defined and keeps the total below 2^31.
- `guarded`: a total that has not overflowed guards the turn.
- `bounded_iff`: every fragment that reaches the maximum is rejected unread and every write stays in the buffer iff the
  maximum is at most 2^31.
- `wsSendMessage_open`: a message that leaves the stream open is not empty, its size is returned with that of the head,
  and a client's is masked.
- `delivered_iff`: over streams that do not fail, a message shorter than the maximum and 2^31 - 2 is delivered from
  either role iff none of its fragments is empty.
- `broadcast_iff`: a message of one frame, sent on several open connections, reaches every receiver as it was, and is
  left unchanged, iff its sender is a server or every mask has only zeros where the message is.
- `maximum_overflows`: a second fragment overflows the total; where the `int` wraps, a third one of 2^31 + 8 bytes is
  taken.
- `empty_message_closes`: an empty text closes the stream of its sender, and its frame that of the receiver.
- `second_receiver_misled`: the second receiver gets 105 for 104.
-/
import CoServer.Http.Fragments

namespace CoServer.Http

open CoServer.Core List Option Session WSFrameHead
open CoServer.Stream (Net castInt castInt64 castInt_eq)

variable {net : Net} {client : Bool} {maxSize length : ℕ} {st : Partial} {s : Session} {P : Turn → Prop}

/-! ## How a turn ends -/

/-- a turn that is defined, and ends so -/
def Ends (P : Turn → Prop) (r : Option (Turn × Session)) : Prop := ∃ t s, r = some (t, s) ∧ P t

theorem castInt64_le (n : ℕ) : castInt64 n ≤ n := by
  have hcond := BitVec.toInt_eq_toNat_cond (BitVec.ofNat 64 n)
  have hn := Nat.mod_le n (2 ^ 64)
  rw [BitVec.toNat_ofNat] at hcond
  rw [castInt64]
  split_ifs at hcond
  · omega
  · omega

theorem Session.readFixSize_le (net : Net) (length : ℕ) (s : Session) :
    ∃ rt bs s', s.readFixSize net length = .ok (rt, bs, s') ∧ bs.length ≤ castInt64 length ∧
      (rt = castInt length ∨ rt ≤ 0) := by
  have hcall :
    Answers (fun left st => st.1.length + left = castInt64 length) (fun _ st => st.1.length ≤ castInt64 length)
      (readMore net) := by
    rintro left ⟨acc, s⟩ hpos hst
    have hst : acc.length + left = castInt64 length := hst
    unfold readMore read
    split_ifs with hclosed
    · exact ⟨_, _, rfl, .inl ⟨by norm_num, show (acc ++ []).length ≤ _ by rw [append_nil]; omega⟩⟩
    obtain ⟨rt, bs, t, hread, -, hle, hcase⟩ := Stream.read_cases net hpos s.socket
    rw [hread]
    refine ⟨_, _, rfl, ?_⟩
    simp only [length_append]
    rcases hcase with ⟨hrt, rfl, -⟩ | ⟨hrt, hgt⟩
    · exact .inl ⟨hrt, by rw [length_nil]; omega⟩
    · exact .inr ⟨bs.length, hrt, hgt, hle, by omega⟩
  obtain ⟨rt, ⟨bs, s'⟩, hread, hres⟩ := transfer_rule hcall (castInt length) ([], s) le_rfl (Nat.zero_add _)
  refine ⟨rt, bs, s', hread, ?_⟩
  rcases hres with ⟨hret, hdone⟩ | ⟨hret, -, -, -, hle⟩
  · exact ⟨hdone.le, .inl hret⟩
  · exact ⟨hle, .inr hret⟩

theorem Session.readOr_ends (hbroke : P .broke) {next : List UInt8 → Session → Option (Turn × Session)}
    (h : 0 < castInt length → ∀ bs s', bs.length ≤ length → Ends P (next bs s')) :
    Ends P (s.readOr net length next) := by
  obtain ⟨rt, bs, s', hread, hle, hret⟩ := s.readFixSize_le net length
  rw [readOr, hread]
  by_cases hrt : rt ≤ 0
  · exact ⟨.broke, s', if_pos hrt, hbroke⟩
  · simp only [if_neg hrt]
    exact h (by omega) bs s' (hle.trans (castInt64_le length))

/-! ## The maximum -/

theorem castInt_wrapped {total : ℕ} (htotal : total < 2 ^ 31) (hlength : length < 2 ^ 64)
    (h : 2 ^ 64 ≤ total + length) :
    castInt length ≤ 0 ∧ castInt64 length = 0 := by
  have hint := BitVec.toInt_eq_toNat_cond (BitVec.ofNat 32 length)
  have hlong := BitVec.toInt_eq_toNat_cond (BitVec.ofNat 64 length)
  rw [BitVec.toNat_ofNat] at hint hlong
  rw [castInt, castInt64]
  split_ifs at hint hlong <;> omega

/-- the total in a turn that goes on -/
def Small (t : Turn) : Prop := ∀ st, t = .again st → st.currentLength < 2 ^ 31

section

variable (hmax : maxSize ≤ 2 ^ 31) (hst : st.currentLength < 2 ^ 31)
include hmax hst

theorem recvPayload_ends (head : WSFrameHead) (hlength : length < 2 ^ 64) (s : Session) :
    Ends Small (recvPayload net maxSize head length st s) := by
  have hbroke : Small .broke := fun st h => by cases h
  have hbytes : (st.currentLength + length) % 2 ^ 64 < maxSize →
      ∀ mask s, Ends Small (recvBytes net head length mask st s) := by
    intro hpass mask s
    refine readOr_ends hbroke ?_
    intro hpos bs s' _
    have hnowrap : ¬ 2 ^ 64 ≤ st.currentLength + length := by
      intro hwrap
      have := (castInt_wrapped hst hlength hwrap).1
      omega
    rw [Nat.mod_eq_of_lt (by omega)] at hpass
    have hsum : ¬ 2 ^ 31 ≤ st.currentLength + (castInt length).toNat := by
      rw [castInt_eq (by omega)]
      omega
    simp only [if_neg hsum]
    refine ⟨_, _, rfl, ?_⟩
    intro st' hst'
    by_cases hfin : head.fin = true
    · rw [if_pos hfin] at hst'
      cases hst'
    · rw [if_neg hfin] at hst'
      cases hst'
      exact Nat.lt_of_not_le hsum
  unfold recvPayload
  split_ifs with hcheck hmask
  · exact ⟨_, _, rfl, hbroke⟩
  · exact readOr_ends hbroke fun _ mask s' _ => hbytes (by omega) mask s'
  · exact hbytes (by omega) _ s

/-- **One turn.** -/
theorem turn_ends (net : Net) (client : Bool) (s : Session) : Ends Small (recvTurn net client maxSize st s) := by
  have hbroke : Small .broke := fun st h => by cases h
  have hsame : Small (.again st) := fun st' h => by cases h; exact hst
  have hannounced : ∀ k ≤ 8, ∀ head (s : Session), Ends Small
      (s.readOr net k fun len s => recvPayload net maxSize head (ofSwapped len) st s) := by
    intro k hk head s
    refine readOr_ends hbroke ?_
    intro _ len s' hlen
    refine recvPayload_ends hmax hst head ?_ s'
    calc ofSwapped len < 256 ^ len.reverse.length := ofLeBytes_lt _
      _ ≤ 256 ^ 8 := Nat.pow_le_pow_right (by norm_num) (by rw [length_reverse]; omega)
      _ = 2 ^ 64 := by norm_num
  refine readOr_ends hbroke ?_
  intro _ bs s _
  unfold recvFrame recvData
  split_ifs
  · obtain ⟨⟨rt, left, s'⟩, hwrite⟩ : ∃ r, s.writeFixSize net (bytes { fin := true, opcode := pong }) = .ok r :=
      transfer_ok (fun left st => ⟨_, rfl⟩) _ _ _ _
    rw [wsPong, wsControl, hwrite]
    refine ⟨_, _, rfl, ?_⟩
    split_ifs
    · exact hbroke
    · exact hsame
  · exact ⟨_, _, rfl, hsame⟩
  · exact ⟨_, _, rfl, hbroke⟩
  · exact hannounced 2 (by norm_num) _ s
  · exact hannounced 8 le_rfl _ s
  · exact recvPayload_ends hmax hst _ (by have := (ofBytes bs).payload.isLt; omega) s
  · exact ⟨_, _, rfl, hsame⟩

end

/-- the fragment ends the call, and of its bytes the mask is read at most -/
def RejectsUnread (net : Net) (maxSize : ℕ) (head : WSFrameHead) (length : ℕ) (st : Partial) (s : Session) : Prop :=
  ∃ s', recvPayload net maxSize head length st s = some (.broke, s') ∧
  (s' = s ∨ ∃ rt bs, s.readFixSize net 4 = .ok (rt, bs, s'))

/-- the bytes that are read and then those that are unmasked are written inside the buffer, after it is resized -/
def WritesWithin (net : Net) (length : ℕ) (st : Partial) (s : Session) : Prop :=
  ∀ rt bs s', s.readFixSize net length = .ok (rt, bs, s') →
    (∀ i < bs.length, (st.currentLength + i) % 2 ^ 64 < (st.currentLength + length) % 2 ^ 64) ∧
      (0 < rt → ∀ i < length, (st.currentLength + i) % 2 ^ 64 < (st.currentLength + length) % 2 ^ 64)

/-- whatever length is announced next -/
structure Guarded (net : Net) (maxSize : ℕ) (st : Partial) : Prop where
  rejects : ∀ head length s, length < 2 ^ 64 → maxSize ≤ st.currentLength + length →
    RejectsUnread net maxSize head length st s
  writes : ∀ length s, length < 2 ^ 64 → (st.currentLength + length) % 2 ^ 64 < maxSize → WritesWithin net length st s

theorem guarded (net : Net) (hmax : maxSize < 2 ^ 32) (hst : st.currentLength < 2 ^ 31) : Guarded net maxSize st := by
  refine ⟨?_, ?_⟩
  · intro head length s hlength hsum
    have hempty : ∀ mask s, 2 ^ 64 ≤ st.currentLength + length →
        recvBytes net head length mask st s = some (.broke, s) := by
      intro mask s hwrap
      obtain ⟨hint, hlong⟩ := castInt_wrapped hst hlength hwrap
      have hread : s.readFixSize net length = .ok (castInt length, [], s) := by
        rw [readFixSize, Stream.fixSize, hlong, transfer]
      rw [recvBytes, readOr, hread]
      exact if_pos hint
    unfold RejectsUnread recvPayload
    split_ifs with hcheck hmask
    · exact ⟨s, rfl, .inl rfl⟩
    · obtain ⟨rt, bs, s', hread, -⟩ := s.readFixSize_le net 4
      refine ⟨s', ?_, .inr ⟨rt, bs, hread⟩⟩
      rw [readOr, hread]
      by_cases hrt : rt ≤ 0
      · exact if_pos hrt
      · exact (if_neg hrt).trans (hempty bs s' (by omega))
    · exact ⟨s, hempty _ s (by omega), .inl rfl⟩
  · intro length s hlength hpass rt bs s' hread
    obtain ⟨rt', bs', s'', hread', hle, hret⟩ := s.readFixSize_le net length
    obtain ⟨rfl, rfl, rfl⟩ : rt' = rt ∧ bs' = bs ∧ s'' = s' := by simpa [hread] using hread'.symm
    have hle' := castInt64_le length
    by_cases hwrap : 2 ^ 64 ≤ st.currentLength + length
    · obtain ⟨hint, hlong⟩ := castInt_wrapped hst hlength hwrap
      exact ⟨fun i hi => by omega, fun hpos => by omega⟩
    · refine ⟨fun i hi => ?_, fun _ i hi => ?_⟩
      · omega
      · omega

/-- the turns of a call that has gone on so far -/
inductive Reached (net : Net) (client : Bool) (maxSize : ℕ) (s₀ : Session) : Partial → Session → Prop where
  | start : Reached net client maxSize s₀ {} s₀
  | turn {st st' : Partial} {s s' : Session} : Reached net client maxSize s₀ st s →
      recvTurn net client maxSize st s = some (.again st', s') → Reached net client maxSize s₀ st' s'

/-- whatever the peer sends, every turn of the call is guarded and defined -/
def Bounded (maxSize : ℕ) : Prop :=
  ∀ net client s₀ st s, Reached net client maxSize s₀ st s → Guarded net maxSize st ∧
  recvTurn net client maxSize st s ≠ none

/-- a message in two fragments from a server, the second of one byte -/
def twoFragments (bs : List UInt8) : List Frame := [⟨false, textFrame, none, bs⟩, ⟨true, continueFrame, none, [0]⟩]

theorem last_byte_overflows (hst : st.currentLength = 2 ^ 31 - 1) (hmax : 2 ^ 31 < maxSize)
    (hs : s.At (stream [⟨true, continueFrame, none, [0]⟩])) : recvTurn byThrees true maxSize st s = none := by
  obtain ⟨s₁, hs₁, hhead⟩ := recvTurn_head byThrees_not_fails { fin := true, payload := 1 } hs
  obtain ⟨s₂, -, hread⟩ := read_delivers byThrees_not_fails (cons_ne_nil 0 []) (by norm_num) hs₁
  have hpass : ¬ maxSize ≤ (st.currentLength + 1) % 2 ^ 64 := by
    rw [hst]
    omega
  have hsum : 2 ^ 31 ≤ st.currentLength + (castInt 1).toNat := by
    rw [hst]
    decide
  rw [hhead]
  calc recvPayload byThrees maxSize { fin := true, payload := 1 } 1 st s₁
      = recvBytes byThrees { fin := true, payload := 1 } 1 [0, 0, 0, 0] st s₁ := if_neg hpass
    _ = none := (hread _).trans (if_pos hsum)

theorem total_overflows (bs : List UInt8) (hlen : bs.length = 2 ^ 31 - 1) (hmax : 2 ^ 31 < maxSize) :
    ∃ st s, Reached byThrees true maxSize ⟨⟨stream (twoFragments bs), [], 0⟩, false⟩ st s ∧
      st.currentLength = 2 ^ 31 - 1 ∧
      recvTurn byThrees true maxSize st s = none := by
  have hfirst : Accepted true maxSize {} ⟨false, textFrame, none, bs⟩ := by
    refine ⟨rfl, .inl rfl, ne_nil_of_length_pos (by rw [hlen]; norm_num), ?_, ?_⟩
    · simp only [hlen]
      omega
    · simp only [hlen]
      norm_num
  obtain ⟨s₁, hs₁, hturn⟩ := recvTurn_data byThrees_not_fails hfirst rfl
    (⟨rfl, rfl⟩ : At ⟨⟨stream (twoFragments bs), [], 0⟩, false⟩ _)
  have htotal : 0 + bs.length = 2 ^ 31 - 1 := (Nat.zero_add _).trans hlen
  exact ⟨_, s₁, .turn .start hturn, htotal, last_byte_overflows htotal hmax hs₁⟩

/-- **The maximum.** -/
theorem bounded_iff (maxSize : BitVec 32) : Bounded maxSize.toNat ↔ maxSize.toNat ≤ 2 ^ 31 := by
  constructor
  · intro h
    by_contra hlt
    obtain ⟨st, s, hreached, -, hnone⟩ := total_overflows _ (length_replicate (a := (0 : UInt8))) (Nat.lt_of_not_le hlt)
    exact (h _ _ _ _ _ hreached).2 hnone
  · intro hmax net client s₀ st s hreached
    have hsmall : st.currentLength < 2 ^ 31 := by
      induction hreached with
      | start => norm_num
      | turn _ hturn ih =>
        obtain ⟨t, s', hends, hsmall⟩ := turn_ends hmax ih net client _
        rw [hturn] at hends
        cases hends
        exact hsmall _ rfl
    obtain ⟨t, s', hends, -⟩ := turn_ends hmax hsmall net client s
    exact ⟨guarded net maxSize.isLt hsmall, by rw [hends]; exact some_ne_none _⟩

/-- 2^31 bytes are collected and the `int` has wrapped: what the check adds to the length -/
def wrapped (st : Partial) : Partial := { st with currentLength := 2 ^ 64 - 2 ^ 31 }

/-- the beginning of a third fragment's payload -/
def seven : Session := ⟨⟨[1, 2, 3, 4, 5, 6, 7], [], 0⟩, false⟩

theorem read_seven :
    seven.readFixSize byThrees (2 ^ 31 + 8) = .ok (0, [1, 2, 3, 4, 5, 6, 7], ⟨⟨[], [], 4⟩, false⟩) := rfl

theorem third_not_rejected (head : WSFrameHead) (hmask : head.mask = false) (st : Partial) :
    ¬ RejectsUnread byThrees (2 ^ 32 - 1) head (2 ^ 31 + 8) (wrapped st) seven ∧
      ¬ WritesWithin byThrees (2 ^ 31 + 8) (wrapped st) seven := by
  constructor
  · rintro ⟨s', hbroke, hunread⟩
    have hpass : ¬ 2 ^ 32 - 1 ≤ ((wrapped st).currentLength + (2 ^ 31 + 8)) % 2 ^ 64 := by norm_num [wrapped]
    rw [recvPayload, if_neg hpass, hmask, if_neg (by decide), recvBytes, readOr, read_seven] at hbroke
    obtain rfl : ⟨⟨[], [], 4⟩, false⟩ = s' := (Prod.mk.inj (some.inj hbroke)).2
    rcases hunread with hsame | ⟨rt, bs, hfour⟩
    · cases hsame
    · cases hfour
  · intro h
    have hfirst := (h _ _ _ read_seven).1 0 (by decide)
    norm_num [wrapped] at hfirst

theorem maximum_overflows :
    ∃ st s, Reached byThrees true (2 ^ 32 - 1) ⟨⟨stream (twoFragments (zeros (2 ^ 31 - 1)).data), [], 0⟩, false⟩ st s ∧
      st.currentLength + 1 < 2 ^ 32 - 1 ∧ recvTurn byThrees true (2 ^ 32 - 1) st s = none ∧
      2 ^ 32 - 1 ≤ st.currentLength + 1 + (2 ^ 31 + 8) ∧
      ¬ RejectsUnread byThrees (2 ^ 32 - 1) { fin := true, payload := 127 } (2 ^ 31 + 8) (wrapped st) seven ∧
      ¬ WritesWithin byThrees (2 ^ 31 + 8) (wrapped st) seven := by
  obtain ⟨st, s, hreached, htotal, hnone⟩ := total_overflows (zeros (2 ^ 31 - 1)).data length_replicate
    (show 2 ^ 31 < 2 ^ 32 - 1 by norm_num)
  refine ⟨st, s, hreached, ?_, hnone, ?_, third_not_rejected _ rfl st⟩ <;> rw [htotal] <;> norm_num

/-! ## Empty fragments -/

section

variable {msg m : WSFrameMessage} {v : ℤ} {s' : Session}

/-- the message as a send leaves it -/
def WSFrameMessage.left (msg : WSFrameMessage) (client : Bool) (randValue : BitVec 32) : WSFrameMessage :=
  ⟨msg.opcode, if client then applyMask (leBytes 4 randValue.toNat) msg.data else msg.data⟩

theorem Session.writeOr_open {bs : List UInt8} {next : Session → Option (ℤ × WSFrameMessage × Session)}
    (h : s.writeOr net bs msg next = some (v, m, s')) (hopen : s'.closed = false) :
    bs ≠ [] ∧ ∃ s₁, next s₁ = some (v, m, s') := by
  unfold writeOr at h
  cases hwrite : s.writeFixSize net bs with
  | error e =>
    rw [hwrite] at h
    cases h
  | ok r =>
    obtain ⟨rt, left, s₁⟩ := r
    simp only [hwrite] at h
    by_cases hrt : rt ≤ 0
    · rw [if_pos hrt] at h
      cases h
      cases hopen
    rw [if_neg hrt] at h
    refine ⟨?_, s₁, h⟩
    rintro rfl
    cases hwrite
    exact hrt le_rfl

theorem sendPayload_open (h : sendPayload net msg s = some (v, m, s')) (hopen : s'.closed = false) :
    msg.data ≠ [] ∧ v = castInt (msg.data.length + 2) ∧ m = msg := by
  obtain ⟨hne, s₁, hnext⟩ := writeOr_open h hopen
  cases hnext
  exact ⟨hne, rfl, rfl⟩

theorem sendMasked_open {randValue : BitVec 32} (h : sendMasked net client randValue msg s = some (v, m, s'))
    (hopen : s'.closed = false) :
    msg.data ≠ [] ∧ v = castInt (msg.data.length + 2) ∧ m = msg.left client randValue := by
  cases client with
  | false => exact sendPayload_open h hopen
  | true =>
    obtain ⟨-, s₁, hnext⟩ := writeOr_open h hopen
    obtain ⟨hne, hv, hm⟩ := sendPayload_open hnext hopen
    simp only [length_applyMask] at hv
    refine ⟨?_, hv, hm⟩
    rintro hnil
    exact hne (by rw [hnil]; rfl)

/-- **A message that leaves the stream open.** -/
theorem wsSendMessage_open {fin : Bool} {randValue : BitVec 32}
    (h : wsSendMessage net client fin randValue msg s = some (v, m, s')) (hopen : s'.closed = false) :
    msg.data ≠ [] ∧ v = castInt (msg.data.length + 2) ∧ m = msg.left client randValue := by
  obtain ⟨-, s₁, hnext⟩ := writeOr_open h hopen
  split_ifs at hnext
  · obtain ⟨-, s₂, hnext⟩ := writeOr_open hnext hopen
    exact sendMasked_open hnext hopen
  · obtain ⟨-, s₂, hnext⟩ := writeOr_open hnext hopen
    exact sendMasked_open hnext hopen
  · exact sendMasked_open hnext hopen

end

/-- what a call returns, and the stream -/
def SendOp.result (net : Net) (client : Bool) (s : Session) : SendOp → Option (ℤ × Session)
  | .ping => wsPing net s
  | .pong => wsPong net s
  | .message msg fin randValue => (wsSendMessage net client fin randValue msg s).map fun r => (r.1, r.2.2)

/-- every call returns a positive count and leaves the stream open -/
def AllSent (net : Net) (client : Bool) : List SendOp → Session → Session → Prop
  | [], s, s' => s' = s
  | o :: ops, s, s' => ∃ v s₁, o.result net client s = some (v, s₁) ∧ 0 < v ∧ s₁.closed = false ∧
      AllSent net client ops s₁ s'

/-- one message in fragments of any size, the last one with `fin`, among pings and pongs -/
def Fragmented : Bool → List SendOp → Prop
  | _, [] => False
  | inside, .ping :: ops => Fragmented inside ops
  | inside, .pong :: ops => Fragmented inside ops
  | inside, .message msg fin _ :: ops =>
    (if inside then msg.opcode = 0 else msg.opcode = 1 ∨ msg.opcode = 2) ∧ if fin then ops = [] else Fragmented true ops

/-- no fragment is empty -/
def NoneEmpty (ops : List SendOp) : Prop := ∀ msg fin randValue, SendOp.message msg fin randValue ∈ ops → msg.data ≠ []

/-- the calls succeed, and the other side receives the message with the data of all fragments -/
def Delivered (sendNet recvNet : Net) (client : Bool) (maxSize : ℕ) (ops : List SendOp) (s : Session) : Prop :=
  ∃ (s' : Session) (bytes : List UInt8), AllSent sendNet client ops s s' ∧ s'.socket.sent = s.socket.sent ++ bytes ∧
    ∀ (r : Session) (rest : List UInt8), r.At (bytes ++ rest) →
      ∃ r' : Session, wsRecvMessage recvNet (!client) maxSize r = some (some ⟨firstOpcode ops, allData ops⟩, r') ∧
      r'.At rest

variable {ops : List SendOp}

theorem Fragmented.fragments {inside : Bool} (h : Fragmented inside ops) (hne : NoneEmpty ops) :
    Fragments inside ops := by
  induction ops generalizing inside with
  | nil => exact h.elim
  | cons o ops ih =>
    have hrest : NoneEmpty ops := fun msg fin randValue hmem => hne msg fin randValue (mem_cons_of_mem _ hmem)
    cases o with
    | ping | pong => exact ih h hrest
    | message msg fin randValue =>
      refine ⟨hne msg fin randValue mem_cons_self, h.1, ?_⟩
      cases fin with
      | true => exact h.2
      | false => exact ih h.2 hrest

theorem AllSent.noneEmpty {s' : Session} (h : AllSent net client ops s s') : NoneEmpty ops := by
  induction ops generalizing s with
  | nil => exact fun _ _ _ hmem => absurd hmem not_mem_nil
  | cons o ops ih =>
    obtain ⟨v, s₁, hresult, -, hopen, hrest⟩ := h
    intro msg fin randValue hmem
    rcases mem_cons.1 hmem with rfl | hmem
    · obtain ⟨⟨v', m, s₂⟩, hcall, hpair⟩ := map_eq_some_iff.1 hresult
      cases hpair
      exact (wsSendMessage_open hcall hopen).1
    · exact ih hrest msg fin randValue hmem

theorem wsControl_open {opcode : BitVec 4} {v : ℤ} {s' : Session} (h : wsControl net opcode s = some (v, s'))
    (hopen : s'.closed = false) : 0 < v := by
  unfold wsControl at h
  split at h
  · cases h
  cases h
  by_contra hle
  rw [if_pos (not_lt.1 hle)] at hopen
  cases hopen

theorem SendOp.result_pos {o : SendOp} {v : ℤ} {s' : Session} (h : o.result net client s = some (v, s'))
    (hopen : s'.closed = false) (hlen : o.data.length + 2 < 2 ^ 31) : 0 < v := by
  cases o with
  | ping | pong => exact wsControl_open h hopen
  | message msg fin randValue =>
    obtain ⟨⟨v', m, s₂⟩, hcall, hpair⟩ := map_eq_some_iff.1 h
    cases hpair
    have hv : v' = castInt (msg.data.length + 2) := (wsSendMessage_open hcall hopen).2.1
    have hint : castInt (msg.data.length + 2) = (msg.data.length + 2 : ℕ) := castInt_eq hlen
    show 0 < v'
    omega

theorem allSent (hnet : ¬ net.Fails) (client : Bool) (hne : NoneEmpty ops)
    (hint : ∀ o ∈ ops, o.data.length + 2 < 2 ^ 31) (hs : s.closed = false) :
    ∃ s', AllSent net client ops s s' ∧ s'.socket.sent = s.socket.sent ++ stream (ops.map (SendOp.frame client)) := by
  induction ops generalizing s with
  | nil => exact ⟨s, rfl, (append_nil _).symm⟩
  | cons o ops ih =>
    have ho := hint o mem_cons_self
    obtain ⟨s₁, hcall, hopen, hsent⟩ := call_sends hnet client
      (fun msg fin randValue heq =>
        ⟨hne msg fin randValue (heq ▸ mem_cons_self), by subst heq; exact Nat.lt_of_add_right_lt ho⟩) hs
    obtain ⟨v, hresult⟩ : ∃ v, o.result net client s = some (v, s₁) := by
      have hcall' : (o.result net client s).map Prod.snd = some s₁ := by
        rw [← hcall]
        cases o with
        | ping | pong => rfl
        | message => exact map_map _ _ _
      obtain ⟨⟨v, s₂⟩, hresult, rfl⟩ := map_eq_some_iff.1 hcall'
      exact ⟨v, hresult⟩
    obtain ⟨s₂, hrest, hsent₂⟩ := ih (fun msg fin randValue hmem => hne msg fin randValue (mem_cons_of_mem _ hmem))
      (fun o ho => hint o (mem_cons_of_mem _ ho)) hopen
    refine ⟨s₂, ⟨v, s₁, hresult, SendOp.result_pos hresult hopen ho, hopen, hrest⟩, ?_⟩
    rw [hsent₂, hsent, map_cons, stream, stream, flatMap_cons, append_assoc]

/-- **Delivery.** -/
theorem delivered_iff (sendNet recvNet : Net) (hsend : ¬ sendNet.Fails) (hrecv : ¬ recvNet.Fails) (client : Bool)
    (maxSize : ℕ) (ops : List SendOp) (hops : Fragmented false ops) (hmax : (allData ops).length < maxSize)
    (hint : (allData ops).length + 2 < 2 ^ 31) (s : Session) (hs : s.closed = false) :
    Delivered sendNet recvNet client maxSize ops s ↔ NoneEmpty ops := by
  constructor
  · rintro ⟨s', bytes, hsent, -⟩
    exact hsent.noneEmpty
  · intro hne
    obtain ⟨s', hcalls, hsent⟩ := allSent hsend client hne (fun o ho => by have := length_data_le ho; omega) hs
    exact ⟨s', _, hcalls, hsent, fun r rest hr => (hops.fragments hne).received hrecv hmax (by omega) hr⟩

theorem delivered_iff_greeting : Delivered byThrees byThrees true 100 clientGreeting ⟨⟨[], [], 0⟩, false⟩ := by
  refine (delivered_iff byThrees byThrees byThrees_not_fails byThrees_not_fails true 100 clientGreeting
    ⟨Or.inr rfl, rfl, rfl⟩ (by decide)
    (by decide) ⟨⟨[], [], 0⟩, false⟩ rfl).2 ?_
  intro msg fin randValue hmem
  simp only [clientGreeting, mem_cons, reduceCtorEq, SendOp.message.injEq, not_mem_nil, false_or, or_false] at hmem
  rcases hmem with ⟨rfl, -⟩ | ⟨rfl, -⟩ <;> decide

theorem empty_message_closes :
    Fragmented false [.message ⟨1, []⟩ true 0] ∧
      (wsSendMessage byThrees false true 0 ⟨1, []⟩ ⟨⟨[], [], 0⟩, false⟩).map (fun r => (r.1, r.2.2.closed)) = some
    (-1, true) ∧
      (wsRecvMessage byThrees true 100 ⟨⟨(WSFrameMessage.frame ⟨1, []⟩ false true 0).bytes, [], 0⟩, false⟩).map
        (fun r => (r.1, r.2.closed)) = some (none, true) :=
  ⟨⟨Or.inl rfl, rfl⟩, by decide +kernel, by decide +kernel⟩

/-! ## One message on several connections -/

/-- a connection, and what `rand` returns for the message sent on it -/
structure Connection where
  net : Net
  session : Session
  randValue : BitVec 32

/-- the message sent on each connection in turn: as it is left, and the streams -/
def broadcast (client : Bool) : List Connection → WSFrameMessage → Option (WSFrameMessage × List Session)
  | [], msg => some (msg, [])
  | c :: conns, msg =>
    match wsSendMessage c.net client true c.randValue msg c.session with
    | none => none
    | some (_, msg, s) => (broadcast client conns msg).map fun r => (r.1, s :: r.2)

/-- what is sent on a connection is received on the other side as this message -/
def Reaches (recvNet : Net) (client : Bool) (maxSize : ℕ) (msg : WSFrameMessage) (c : Connection)
    (s : Session) : Prop :=
  ∃ bytes, s.socket.sent = c.session.socket.sent ++ bytes ∧ ∀ (r : Session) (rest : List UInt8), r.At (bytes ++ rest) →
    ∃ r' : Session, wsRecvMessage recvNet (!client) maxSize r = some (some msg, r') ∧ r'.At rest

theorem Reaches.unique {recvNet : Net} {msg msg' : WSFrameMessage} {c : Connection}
    (h : Reaches recvNet client maxSize msg c s) (h' : Reaches recvNet client maxSize msg' c s) : msg = msg' := by
  obtain ⟨bytes, hsent, hrecv⟩ := h
  obtain ⟨bytes', hsent', hrecv'⟩ := h'
  obtain rfl : bytes = bytes' := append_cancel_left (hsent.symm.trans hsent')
  have hat : At ⟨⟨bytes ++ [], [], 0⟩, false⟩ (bytes ++ []) := ⟨rfl, rfl⟩
  obtain ⟨r₁, hcall, -⟩ := hrecv _ [] hat
  obtain ⟨r₂, hcall', -⟩ := hrecv' _ [] hat
  rw [hcall] at hcall'
  cases hcall'
  rfl

/-- the mask has only zeros where it is applied -/
def Blank (randValue : BitVec 32) (size : ℕ) : Prop := ∀ i < size, (leBytes 4 randValue.toNat).getD (i % 4) 0 = 0

theorem left_eq_self_iff (msg : WSFrameMessage) (client : Bool) (randValue : BitVec 32) :
    msg.left client randValue = msg ↔ client = false ∨ Blank randValue msg.data.length := by
  cases client with
  | false => exact iff_of_true rfl (Or.inl rfl)
  | true =>
    have hxor : ∀ b m : UInt8, b = b ^^^ m ↔ m = 0 := by
      intro b m
      rw [eq_comm, ← UInt8.xor_right_inj b (b := 0), UInt8.xor_zero]
    have hdata : msg.left true randValue = msg ↔ applyMask (leBytes 4 randValue.toNat) msg.data = msg.data :=
      ⟨fun h => congrArg WSFrameMessage.data h, fun h => congrArg (WSFrameMessage.mk msg.opcode) h⟩
    rw [hdata, applyMask, mapIdx_eq_iff, or_iff_right (by decide)]
    refine forall_congr' fun i => ?_
    by_cases hi : i < msg.data.length
    · simp only [getElem?_eq_getElem hi, map_some, some.injEq, hxor, hi, true_imp_iff]
    · simp [hi]

theorem length_left (msg : WSFrameMessage) (client : Bool) (randValue : BitVec 32) :
    (msg.left client randValue).data.length = msg.data.length := by
  cases client with
  | false => rfl
  | true => exact length_applyMask _ _

/-- a text or binary message that can be sent and received as one frame -/
structure OneFrame (maxSize opcode size : ℕ) : Prop where
  opcode : opcode = 1 ∨ opcode = 2
  pos : 0 < size
  max : size < maxSize
  int : size < 2 ^ 31

theorem OneFrame.reaches {msg : WSFrameMessage} (h : OneFrame maxSize msg.opcode msg.data.length) {recvNet : Net}
    (hrecv : ¬ recvNet.Fails) {c : Connection}
    (hnet : ¬ c.net.Fails) (hopen : c.session.closed = false) (client : Bool) :
    ∃ v s, wsSendMessage c.net client true c.randValue msg c.session = some (v, msg.left client c.randValue, s) ∧
      Reaches recvNet client maxSize msg c s := by
  have hne : msg.data ≠ [] := ne_nil_of_length_pos h.pos
  obtain ⟨v, m, s, hcall, hopen', hsent⟩ := wsSendMessage_sends client true c.randValue hnet hne h.int c.session hopen
  have hops : Fragments false [.message msg true c.randValue] := ⟨hne, h.opcode, rfl⟩
  have hall : allData [.message msg true c.randValue] = msg.data := append_nil _
  refine ⟨v, s, ?_, _, hsent, ?_⟩
  · rw [hcall, (wsSendMessage_open hcall hopen').2.2]
  intro r rest hr
  have hgot := hops.received hrecv (by rw [hall]; exact h.max) (by rw [hall]; exact h.int)
    (show r.At (stream [msg.frame client true c.randValue] ++ rest) by rwa [stream, flatMap_singleton])
  rwa [hall] at hgot

theorem broadcast_spec {recvNet : Net} (hrecv : ¬ recvNet.Fails) {conns : List Connection}
    (hconns : ∀ c ∈ conns, ¬ c.net.Fails ∧ c.session.closed = false) {m : WSFrameMessage}
    (hm : OneFrame maxSize m.opcode m.data.length) (msg : WSFrameMessage) :
    ∃ m' ss, broadcast client conns m = some (m', ss) ∧
      (Forall₂ (Reaches recvNet client maxSize msg) conns ss ∧ m' = msg ↔
        m = msg ∧ (client = false ∨ ∀ c ∈ conns, Blank c.randValue msg.data.length)) := by
  induction conns generalizing m with
  | nil => exact ⟨m, [], rfl, by simp⟩
  | cons c conns ih =>
    obtain ⟨⟨hnet, hopen⟩, hrest⟩ := forall_mem_cons.1 hconns
    obtain ⟨v, s, hcall, hreach⟩ := hm.reaches hrecv hnet hopen client
    obtain ⟨m', ss, hruns, hiff⟩ := ih hrest (m := m.left client c.randValue) (by rw [length_left]; exact hm)
    have hfirst : Reaches recvNet client maxSize msg c s ↔ m = msg := ⟨hreach.unique, fun h => h ▸ hreach⟩
    refine ⟨m', s :: ss, by rw [broadcast, hcall]; simp only [hruns, map_some], ?_⟩
    rw [forall₂_cons, and_assoc, hiff, hfirst, forall_mem_cons, or_and_left, ← left_eq_self_iff msg]
    exact and_congr_right fun h => by rw [h]

/-- **One message on several connections.** -/
theorem broadcast_iff (recvNet : Net) (hrecv : ¬ recvNet.Fails) (client : Bool) (maxSize : ℕ) (conns : List Connection)
    (hconns : ∀ c ∈ conns, ¬ c.net.Fails ∧ c.session.closed = false) (msg : WSFrameMessage)
    (hmsg : OneFrame maxSize msg.opcode msg.data.length) :
    ∃ msg' sessions, broadcast client conns msg = some (msg', sessions) ∧
      (Forall₂ (Reaches recvNet client maxSize msg) conns sessions ∧ msg' = msg ↔
        client = false ∨ ∀ c ∈ conns, Blank c.randValue msg.data.length) := by
  obtain ⟨msg', sessions, hruns, hiff⟩ := broadcast_spec hrecv hconns hmsg msg
  exact ⟨msg', sessions, hruns, hiff.trans (and_iff_right rfl)⟩

/-- two connections of a client; `rand` returns 1 for both -/
def pair : List Connection := [⟨byThrees, ⟨⟨[], [], 0⟩, false⟩, 1⟩, ⟨byThrees, ⟨⟨[], [], 0⟩, false⟩, 1⟩]

/-- from a server to both, and from a client not -/
theorem broadcast_iff_pair :
    (∃ sessions, broadcast false pair ⟨1, [104]⟩ = some (⟨1, [104]⟩, sessions) ∧
      Forall₂ (Reaches byThrees false 100 ⟨1, [104]⟩) pair sessions) ∧
    ∃ msg' sessions, broadcast true pair ⟨1, [104]⟩ = some (msg', sessions) ∧
      ¬ (Forall₂ (Reaches byThrees true 100 ⟨1, [104]⟩) pair sessions ∧ msg' = ⟨1, [104]⟩) := by
  have hconns : ∀ c ∈ pair, ¬ c.net.Fails ∧ c.session.closed = false :=
    forall_mem_cons.2 ⟨⟨byThrees_not_fails, rfl⟩, forall_mem_singleton.2 ⟨byThrees_not_fails, rfl⟩⟩
  have hmsg : OneFrame 100 1 1 := ⟨Or.inl rfl, by decide, by decide, by decide⟩
  constructor
  · obtain ⟨msg', sessions, hruns, hiff⟩ :=
      broadcast_iff byThrees byThrees_not_fails false 100 pair hconns ⟨1, [104]⟩ hmsg
    obtain ⟨hreach, rfl⟩ := hiff.2 (.inl rfl)
    exact ⟨sessions, hruns, hreach⟩
  · obtain ⟨msg', sessions, hruns, hiff⟩ :=
      broadcast_iff byThrees byThrees_not_fails true 100 pair hconns ⟨1, [104]⟩ hmsg
    refine ⟨msg', sessions, hruns, fun h => ?_⟩
    rcases hiff.1 h with h | h
    · cases h
    · exact absurd (h _ mem_cons_self 0 Nat.one_pos) (by decide)

theorem second_receiver_misled :
    ((broadcast true pair ⟨1, [104]⟩).map fun r => r.2.map fun s =>
      (wsRecvMessage byThrees false 100 ⟨⟨s.socket.sent, [], 0⟩, false⟩).map Prod.fst) =
    some [some (some ⟨1, [104]⟩), some (some ⟨1, [105]⟩)] := by
  decide +kernel

end CoServer.Http
