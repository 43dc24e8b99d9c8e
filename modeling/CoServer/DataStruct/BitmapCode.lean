/-
The code of a compressed `Bitmap`: what `compress` writes, and what a loop over it reads.

`compress` is compared with the segments of the words of the bitmap (`Core.Seg`). `encode` is what it writes for a
segment: the word, the single word of a run of one, or the count of the values in words of 14 bits.

Results:
- `compress_eq`: `compress` of a plain bitmap writes the code of its segments.
- `takeRun_countWords`: the count of a run is put together again, if it fits 32 bits and no further word of that run
  follows.
- `forTokens_code`: a loop over the code sees the segments, if no word of mixed values has bit 15 set.
-/
import CoServer.Core.RunLength
import CoServer.DataStruct.Bitmap

namespace CoServer.DataStruct.Bitmap

open CoServer.Core List Nat Seg

@[simp] theorem ok_bind {α β : Type} (a : α) (f : α → Except Fault β) : (Except.ok a >>= f) = f a := rfl

/-! ## Bits of words -/

variable (w : Word)

theorem and_posBit (i : ℕ) : (w &&& posBit i != 0) = w.getLsbD i := by
  rw [posBit, ← BitVec.twoPow_eq, BitVec.and_twoPow]
  cases h : w.getLsbD i with
  | false => simp
  | true =>
    have hi : i < 16 := BitVec.lt_of_getLsbD h
    have hne : BitVec.twoPow 16 i ≠ 0 := by
      intro h0
      have hbit := congrArg (fun x => BitVec.getLsbD x i) h0
      simp [hi] at hbit
    simpa using hne

theorem isRun_eq : isRun w = w.getLsbD 15 := and_posBit w 15

theorem runValue_eq : runValue w = w.getLsbD 14 := and_posBit w 14

theorem getLsbD_countMask (i : ℕ) : countMask.getLsbD i = decide (i < 14) := by
  rw [show countMask = BitVec.ofNat 16 (2 ^ 14 - 1) from rfl, BitVec.getLsbD_ofNat, testBit_two_pow_sub_one,
    ← Bool.decide_and,
    decide_eq_decide]
  omega

theorem getLsbD_fill (v : Bool) (i : ℕ) : (fill v).getLsbD i = (decide (i < 14) && v) := by
  cases v <;> simp [fill, getLsbD_countMask]

theorem countBits_eq_zero : countBits (w &&& countMask) = 0 ↔ w &&& countMask = fill false := by
  simp only [countBits, countP_eq_zero, mem_range, Bool.not_eq_true]
  constructor
  · intro h
    apply BitVec.eq_of_getLsbD_eq
    intro i hi
    rw [h i hi, getLsbD_fill, Bool.and_false]
  · intro h i hi
    rw [h, getLsbD_fill, Bool.and_false]

theorem countBits_eq_valueSize : countBits (w &&& countMask) = valueSize ↔ w &&& countMask = fill true := by
  have hrange : List.range 16 = List.range 14 ++ [14, 15] := rfl
  have hcount : countBits (w &&& countMask) = (List.range 14).countP fun i => (w &&& countMask).getLsbD i := by
    simp [countBits, hrange, getLsbD_countMask]
  rw [hcount, show valueSize = (List.range 14).length from rfl, countP_eq_length]
  simp only [mem_range]
  constructor
  · intro h
    apply BitVec.eq_of_getLsbD_eq
    intro i hi
    by_cases h14 : i < 14
    · rw [h i h14, getLsbD_fill]
      simp [h14]
    · simp [getLsbD_countMask, getLsbD_fill, h14]
  · intro h i hi
    rw [h, getLsbD_fill]
    simp [hi]

/-- the value of a word of which all values are the same -/
def kind : Option Bool :=
  if w &&& countMask = fill false then some false else if w &&& countMask = fill true then some true else none

variable {w : Word} {cap n : ℕ} {out : List Word}

theorem kind_eq_some {u : Bool} : kind w = some u ↔ w &&& countMask = fill u := by
  have hne : fill false ≠ fill true := by decide
  unfold kind
  split_ifs with h0 h1
  · rw [h0]
    cases u <;> simp [hne]
  · rw [h1]
    cases u <;> simp [hne.symm]
  · cases u <;> simp [h0, h1]

section

variable (v : Bool) (count : ℕ)

theorem isRun_fill : isRun (fill v) = false := by cases v <;> rfl

theorem fill_and_countMask : fill v &&& countMask = fill v := by cases v <;> rfl

/-! ## Count words -/

/-- a word of a count -/
def countWord : Word :=
  (if v then compressMask ||| valueMask else compressMask) ||| (BitVec.ofNat 16 count &&& countMask)

theorem isRun_countWord : isRun (countWord v count) = true := by
  rw [isRun_eq]
  cases v <;> simp [countWord, compressMask]

theorem runValue_countWord : runValue (countWord v count) = v := by
  simp only [runValue_eq, countWord, BitVec.getLsbD_or, BitVec.getLsbD_and, getLsbD_countMask, lt_irrefl, decide_false,
    Bool.and_false, Bool.or_false]
  cases v <;> rfl

theorem toNat_countWord : (countWord v count &&& countMask).toNat = count % 2 ^ 14 := by
  have hmask : countWord v count &&& countMask = BitVec.ofNat 16 count &&& countMask := by
    have htag : (if v then compressMask ||| valueMask else compressMask) &&& countMask = 0#16 := by cases v <;> rfl
    rw [countWord, BitVec.and_or_distrib_right, htag, BitVec.and_assoc, BitVec.and_self, BitVec.zero_or]
  rw [hmask, BitVec.toNat_and, BitVec.toNat_ofNat, show countMask.toNat = 2 ^ 14 - 1 from rfl,
    and_two_pow_sub_one_eq_mod]
  omega

theorem countWords_succ (fuel : ℕ) {count : ℕ} (h : count ≠ 0) :
    countWords v (fuel + 1) count = countWord v count :: countWords v fuel (count / 2 ^ 14) := by
  rw [countWords, if_neg h, shiftRight_eq_div_pow]
  rfl

@[simp] theorem countWords_zero (fuel : ℕ) : countWords v fuel 0 = [] := by cases fuel <;> rfl

theorem length_countWords_le (fuel k count : ℕ) (h : count < 2 ^ (14 * k)) : (countWords v fuel count).length ≤ k := by
  induction fuel generalizing k count with
  | zero => exact zero_le k
  | succ fuel ih =>
    by_cases h0 : count = 0
    · simp [h0]
    cases k with
    | zero => omega
    | succ k =>
      rw [countWords_succ v fuel h0]
      apply succ_le_succ
      apply ih
      rw [div_lt_iff_lt_mul (by positivity), ← pow_add]
      exact h

theorem takeRun_stop (k count : ℕ) {rest : List Word} (h : ∀ w ∈ rest.head?, isRun w = true → runValue w ≠ v) :
    takeRun v k count rest = .ok (count, rest) := by
  cases rest with
  | nil => rfl
  | cons w ws =>
    have hw : (isRun w && runValue w == v) = false := by
      have := h w rfl
      cases hr : isRun w with
      | false => rfl
      | true => simpa using this hr
    simp [takeRun, hw]

/-- **The count is put together again.** -/
theorem takeRun_countWords (fuel k count c : ℕ) {rest : List Word} (hc : c < 2 ^ (14 * fuel))
    (hcount : count < 2 ^ (14 * k))
    (hsum : count + c * 2 ^ (14 * k) < 2 ^ 32) (hrest : ∀ w ∈ rest.head?, isRun w = true → runValue w ≠ v) :
    takeRun v k count (countWords v fuel c ++ rest) = .ok (count + c * 2 ^ (14 * k), rest) := by
  induction fuel generalizing k count c with
  | zero =>
    obtain rfl : c = 0 := by omega
    simpa using takeRun_stop v k count hrest
  | succ fuel ih =>
    by_cases h0 : c = 0
    · subst h0
      simpa using takeRun_stop v k count hrest
    have hpow : 2 ^ (14 * (k + 1)) = 2 ^ (14 * k) * 2 ^ 14 := by rw [← pow_add]; rfl
    have hdigit : c % 2 ^ 14 * 2 ^ (14 * k) ≤ c * 2 ^ (14 * k) := mul_le_mul_right _ (mod_le _ _)
    have hle : 1 * 2 ^ (14 * k) ≤ c * 2 ^ (14 * k) := mul_le_mul_right _ (by omega)
    -- the shift is by less than 32, since the digit is part of a count below 2 ^ 32
    have hshift : 14 * k < 32 := (Nat.pow_lt_pow_iff_right (by norm_num : 1 < 2)).1 (by omega)
    have hor :
        ((countWord v c &&& countMask).toNat <<< (14 * k)) % 2 ^ 32 ||| count = count + c % 2 ^ 14 * 2 ^ (14 * k) := by
      rw [toNat_countWord, mod_eq_of_lt (by rw [shiftLeft_eq]; omega), ← shiftLeft_add_eq_or_of_lt hcount,
        shiftLeft_eq, add_comm]
    have hsplit : c % 2 ^ 14 * 2 ^ (14 * k) + c / 2 ^ 14 * 2 ^ (14 * (k + 1)) = c * 2 ^ (14 * k) := by
      rw [hpow, mul_comm (2 ^ (14 * k)), ← mul_assoc, ← add_mul, mod_add_div']
    have hnext := ih (k + 1) (count + c % 2 ^ 14 * 2 ^ (14 * k)) (c / 2 ^ 14)
      (by rw [div_lt_iff_lt_mul (by positivity), ← pow_add]; exact hc)
      (by
        have : c % 2 ^ 14 * 2 ^ (14 * k) ≤ (2 ^ 14 - 1) * 2 ^ (14 * k) := mul_le_mul_right _ (by omega)
        omega)
      (by omega)
    rw [countWords_succ v fuel h0, cons_append, takeRun, isRun_countWord, runValue_countWord,
      show valueSize = 14 from rfl]
    simp only [beq_self_eq_true, Bool.and_self, if_true, not_le.2 hshift, if_false, hor]
    rw [hnext, add_assoc, hsplit]

end

/-! ## What `compress` writes -/

/-- the words written for a segment: a run of one word is a literal, a longer one a count of values -/
def encode : Seg Word Bool → List Word
  | .lit w => [w]
  | .run v n => if n = 1 then [fill v] else countWords v 5 (valueSize * n)

theorem length_encode_run (v : Bool) (hn : n ≠ 0) (h : valueSize * n < 2 ^ 33) : (encode (.run v n)).length ≤ n := by
  simp only [encode, valueSize] at h ⊢
  split_ifs with h1
  · simp [h1]
  by_cases hs : 14 * n < 2 ^ 28
  · have := length_countWords_le v 5 2 (14 * n) hs
    omega
  · have := length_countWords_le v 5 3 (14 * n) (by omega)
    omega

theorem length_encode_pending (v : Bool) (h : valueSize * n < 2 ^ 33) : ((pending v n).flatMap encode).length ≤ n := by
  unfold pending
  split_ifs with hn
  · simp
  · simpa using length_encode_run v hn h

theorem emit_ok {ws : List Word} (h : out.length + ws.length ≤ cap) : emit cap out ws = .ok (out ++ ws) := by
  rw [emit, if_neg (by omega)]

theorem flush_eq (v : Bool) (hcap : out.length + n ≤ cap) (h : valueSize * n < 2 ^ 33) :
    flush cap v (valueSize * n) out = .ok (out ++ (pending v n).flatMap encode) := by
  have hlen := length_encode_pending v h
  have hdiv : valueSize * n / valueSize = n := Nat.mul_div_cancel_left n (by decide)
  unfold flush
  rw [hdiv]
  rcases lt_trichotomy n 1 with hn | hn | hn
  · obtain rfl : n = 0 := by omega
    simp [pending]
  · subst hn
    exact emit_ok (by simpa using hcap)
  have hp : (pending v n).flatMap encode = countWords v 5 (valueSize * n) := by
    simp [pending, show n ≠ 0 by omega, encode, show n ≠ 1 by omega]
  rw [hp] at hlen ⊢
  rw [if_pos hn]
  exact emit_ok (by omega)

theorem countBits_of_some {u : Bool} (h : kind w = some u) :
    countBits (w &&& countMask) = if u then valueSize else 0 := by
  have hw := kind_eq_some.1 h
  cases u with
  | false => exact (countBits_eq_zero w).2 hw
  | true => exact (countBits_eq_valueSize w).2 hw

theorem countBits_of_none (h : kind w = none) : countBits (w &&& countMask) ≠ 0 ∧
    countBits (w &&& countMask) ≠ valueSize := by
  constructor
  · intro h0
    rw [kind_eq_some.2 ((countBits_eq_zero w).1 h0)] at h
    simp at h
  · intro h1
    rw [kind_eq_some.2 ((countBits_eq_valueSize w).1 h1)] at h
    simp at h

theorem compressWord_same (cap : ℕ) {v : Bool} (out : List Word) (hk : kind w = some v)
    (hn : valueSize * (n + 1) < 2 ^ 33) :
    compressWord cap ⟨v, valueSize * n, out⟩ w = .ok ⟨v, valueSize * (n + 1), out⟩ := by
  have hmod : (valueSize * n + valueSize) % 2 ^ 64 = valueSize * (n + 1) := by
    unfold valueSize at hn ⊢
    omega
  simp only [compressWord, countBits_of_some hk, hmod]
  cases v <;> simp

theorem compressWord_other {v u : Bool} (hk : kind w = some u) (hu : u ≠ v) (hcap : out.length + n ≤ cap)
    (hn : valueSize * n < 2 ^ 33) :
    compressWord cap ⟨v, valueSize * n, out⟩ w = .ok ⟨u, valueSize * 1, out ++ (pending v n).flatMap encode⟩ := by
  have hsize : valueSize ≠ 0 := by decide
  simp only [compressWord, countBits_of_some hk, flush_eq v hcap hn, mul_mod_right]
  cases u <;> simp_all [hsize.symm]

theorem compressWord_mixed {v : Bool} (hk : kind w = none) (hcap : out.length + n + 1 ≤ cap)
    (hn : valueSize * n < 2 ^ 33) :
    compressWord cap ⟨v, valueSize * n, out⟩ w = .ok
      ⟨v, valueSize * 0, out ++ (pending v n).flatMap encode ++ [w]⟩ := by
  obtain ⟨h0, h1⟩ := countBits_of_none hk
  have hlen := length_encode_pending v hn
  have hemit :
      emit cap (out ++ (pending v n).flatMap encode) [w] = .ok (out ++ (pending v n).flatMap encode ++ [w]) := by
    apply emit_ok
    rw [length_append, length_singleton]
    omega
  simp only [compressWord, h0, h1, flush_eq v (show out.length + n ≤ cap by omega) hn, mul_mod_right, ok_bind, hemit]
  simp

theorem compressWords_eq (ws : List Word) (v : Bool) (n : ℕ) (out : List Word) (hcap : out.length + n + ws.length ≤ cap)
    (hn : valueSize * (n + ws.length) < 2 ^ 33) :
    (do let s ← compressWords cap ⟨v, valueSize * n, out⟩ ws; flush cap s.value s.count s.out) =
      .ok (out ++ (Seg.segments kind v n ws).flatMap encode) := by
  have hmono : ∀ {i j : ℕ}, i ≤ j → valueSize * j < 2 ^ 33 → valueSize * i < 2 ^ 33 := fun hij hj =>
    lt_of_le_of_lt (mul_le_mul_left _ hij) hj
  induction ws generalizing v n out with
  | nil => exact flush_eq v (by simpa using hcap) (by simpa using hn)
  | cons w ws ih =>
    rw [length_cons] at hcap hn
    have hlen := length_encode_pending v (hmono (show n ≤ n + (ws.length + 1) by omega) hn)
    unfold compressWords Seg.segments
    cases hk : kind w with
    | none =>
      rw [compressWord_mixed hk (by omega) (hmono (by omega) hn)]
      have hnext := ih v 0 (out ++ (pending v n).flatMap encode ++ [w])
        (by simp only [length_append, length_singleton]; omega) (hmono (by omega) hn)
      simpa [encode] using hnext
    | some u =>
      by_cases hu : u = v
      · subst hu
        rw [compressWord_same cap out hk (hmono (by omega) hn)]
        have hnext := ih u (n + 1) out (by omega) (hmono (by omega) hn)
        simpa using hnext
      · rw [compressWord_other hk hu (by omega) (hmono (by omega) hn)]
        have hnext := ih u 1 (out ++ (pending v n).flatMap encode) (by rw [length_append]; omega) (hmono (by omega) hn)
        simpa [hu] using hnext

/-- the segments of the words of a bitmap -/
def segments (b : Bitmap) : List (Seg Word Bool) := Seg.segments kind false 0 (b.data.take b.dataSize)

/-- the words of its compressed form -/
def code (b : Bitmap) : List Word := (segments b).flatMap encode

/-- a plain bitmap of which positions fit in 32 bits -/
structure Plain (b : Bitmap) : Prop where
  plain : b.compressed = false
  allocated : b.dataSize ≤ b.data.length
  small : valueSize * b.dataSize < 2 ^ 32

theorem compress_ok {b : Bitmap} (hc : b.compressed = false) (hlen : b.dataSize ≤ b.data.length)
    (hn : valueSize * b.dataSize < 2 ^ 33) : compress b = .ok ⟨true, b.size, (code b).length, code b⟩ := by
  have hread : readWords b = .ok (b.data.take b.dataSize) := by rw [readWords, if_neg (by omega)]
  have htake : (b.data.take b.dataSize).length = b.dataSize := by
    rw [length_take]
    omega
  have hrun : (do
      let s ← compressWords b.dataSize ⟨false, 0, []⟩ (b.data.take b.dataSize)
      flush b.dataSize s.value s.count s.out) = .ok (code b) :=
    compressWords_eq _ false 0 [] (by simp) (by rwa [htake, zero_add])
  simp only [compress, hc, Bool.false_eq_true, if_false, hread, ok_bind]
  rw [← bind_assoc, hrun, ok_bind]

theorem compress_eq {b : Bitmap} (h : Plain b) : compress b = .ok ⟨true, b.size, (code b).length, code b⟩ :=
  compress_ok h.plain h.allocated (h.small.trans (by decide))

theorem readWords_compress {b c : Bitmap} (h : Plain b) (hc : compress b = .ok c) : readWords c = .ok (code b) := by
  rw [compress_eq h, Except.ok.injEq] at hc
  subst hc
  simp [readWords]

/-! ## What a loop over the code reads -/

/-- what a loop sees of a segment -/
def token : Seg Word Bool → Token
  | .lit w => .literal (w &&& countMask)
  | .run v n => if n = 1 then .literal (fill v) else .run v (valueSize * n)

/-- segments of which the code can be read: mixed words without the tag, runs that are not empty and have a 32-bit
length -/
def Readable : Seg Word Bool → Prop
  | .lit w => isRun w = false
  | .run _ n => n ≠ 0 ∧ valueSize * n < 2 ^ 32

theorem encode_cons {s : Seg Word Bool} (h : Readable s) :
    ∃ w ws, encode s = w :: ws ∧ (isRun w = true → ∃ n, s = .run (runValue w) n) := by
  cases s with
  | lit w =>
    refine ⟨w, [], rfl, ?_⟩
    intro hw
    rw [show isRun w = false from h] at hw
    simp at hw
  | run v n =>
    by_cases h1 : n = 1
    · subst h1
      refine ⟨fill v, [], rfl, ?_⟩
      simp [isRun_fill]
    have h0 : valueSize * n ≠ 0 := mul_ne_zero (by decide) h.1
    refine ⟨countWord v (valueSize * n), countWords v 4 (valueSize * n / 2 ^ 14), ?_, ?_⟩
    · rw [encode, if_neg h1, countWords_succ v 4 h0]
    · intro _
      exact ⟨n, by rw [runValue_countWord]⟩

theorem nextToken_encode {s : Seg Word Bool} (h : Readable s) {ws rest : List Word} (hs : encode s = w :: ws)
    (hrest : ∀ v n, s = .run v n → ∀ x ∈ rest.head?, isRun x = true → runValue x ≠ v) :
    nextToken w (ws ++ rest) = .ok (token s, rest) := by
  cases s with
  | lit x =>
    obtain ⟨rfl, rfl⟩ := cons.inj hs
    rw [nextToken, show isRun x = false from h]
    rfl
  | run v n =>
    by_cases h1 : n = 1
    · subst h1
      obtain ⟨rfl, rfl⟩ := cons.inj hs
      rw [nextToken, isRun_fill, fill_and_countMask]
      rfl
    · have h0 : valueSize * n ≠ 0 := mul_ne_zero (by decide) h.1
      have hlt := h.2
      rw [encode, if_neg h1, countWords_succ v 4 h0] at hs
      obtain ⟨rfl, rfl⟩ := cons.inj hs
      have hsum : valueSize * n % 2 ^ 14 + valueSize * n / 2 ^ 14 * 2 ^ (14 * 1) = valueSize * n := mod_add_div' _ _
      have hrun :=
        takeRun_countWords v 4 1 (valueSize * n % 2 ^ 14) (valueSize * n / 2 ^ 14) (by omega) (mod_lt _ (by norm_num))
        (by rw [hsum]; exact hlt) (hrest v n rfl)
      rw [nextToken, isRun_countWord, runValue_countWord, toNat_countWord, hrun, hsum]
      simp [token, h1]

/-- a loop over tokens -/
def runTokens {σ ρ : Type} (body : σ → Token → Except Fault (ρ ⊕ σ)) : List Token → σ → Except Fault (ρ ⊕ σ)
  | [], s => .ok (.inr s)
  | t :: ts, s => do
    match ← body s t with
    | .inl r => .ok (.inl r)
    | .inr s => runTokens body ts s

theorem forTokens_encode {σ ρ : Type} (body : σ → Token → Except Fault (ρ ⊕ σ)) (segs : List (Seg Word Bool))
    (hread : ∀ s ∈ segs, Readable s) (hchain : segs.IsChain Distinct) (fuel : ℕ)
    (hfuel : (segs.flatMap encode).length ≤ fuel)
    (st : σ) : forTokens body fuel (segs.flatMap encode) st = runTokens body (segs.map token) st := by
  induction segs generalizing fuel st with
  | nil => cases fuel <;> rfl
  | cons s segs ih =>
    obtain ⟨w, ws, hs, -⟩ := encode_cons (hread s mem_cons_self)
    obtain ⟨hhead, htail⟩ := isChain_cons.1 hchain
    -- what follows a run is not a run of the same value
    have hrest : ∀ v n, s = .run v n → ∀ x ∈ (segs.flatMap encode).head?, isRun x = true → runValue x ≠ v := by
      intro v n hrun x hx htag
      cases segs with
      | nil => simp at hx
      | cons t segs =>
        obtain ⟨y, ys, ht, hty⟩ := encode_cons (hread t (by simp))
        rw [flatMap_cons, ht, cons_append, head?_cons, Option.mem_some_iff] at hx
        subst hx
        obtain ⟨m, hm⟩ := hty htag
        have hd := hhead t rfl
        rw [hrun, hm] at hd
        exact hd
    rw [flatMap_cons, hs, cons_append] at hfuel ⊢
    cases fuel with
    | zero => simp at hfuel
    | succ fuel =>
      have hnext := ih (fun t ht => hread t (mem_cons_of_mem s ht)) htail fuel
        (by rw [length_cons, length_append] at hfuel; omega)
      simp only [forTokens, nextToken_encode (hread s mem_cons_self) hs hrest, ok_bind, map_cons, runTokens]
      cases body st (token s) with
      | error e => rfl
      | ok r =>
        cases r with
        | inl r => rfl
        | inr st' => exact hnext st'

/-- no word of mixed values has bit 15 set -/
def Clean (ws : List Word) : Prop := ∀ w ∈ ws, kind w = none → isRun w = false

-- over the list: the search would go over all words
instance (ws : List Word) : Decidable (Clean ws) := decidableBAll (fun w => kind w = none → isRun w = false) ws

/-- **A loop over a compressed bitmap sees its segments.** -/
theorem forTokens_code {σ ρ : Type} (body : σ → Token → Except Fault (ρ ⊕ σ)) {b : Bitmap} (h : Plain b)
    (hclean : Clean (b.data.take b.dataSize)) (st : σ) :
    forTokens body (code b).length (code b) st = runTokens body ((segments b).map token) st := by
  apply forTokens_encode body (segments b) _ (Seg.isChain_segments kind false 0 _) _ le_rfl
  refine Seg.forall_segments (P := Readable) kind false 0 hclean ?_
  intro v m hm hle
  rw [length_take] at hle
  exact ⟨hm, lt_of_le_of_lt (mul_le_mul_left valueSize (by omega)) h.small⟩

end CoServer.DataStruct.Bitmap
