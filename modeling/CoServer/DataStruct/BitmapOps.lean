/-
The loops of `Bitmap`, word by word: those over 64-bit words (`zipWords_eq`, `crossWords_eq`), and those over the code
of a bitmap (`applyWords_code` for `&=`, `|=` and `uncompress`, `compressCross_code`), each a step lemma for one segment
lifted over the segments.
-/
import CoServer.Core.Splice
import CoServer.DataStruct.BitmapCode

namespace CoServer.DataStruct.Bitmap

open CoServer.Core List

theorem words_eq {size : ℕ} (h : size < 2 ^ 32) : words size = (size + 13) / 14 := by
  rcases Nat.eq_zero_or_pos size with rfl | hs
  · decide +kernel
  · rw [words, valueSize, Double.ceilDiv_eq hs (by omega) (by decide)]
    omega

theorem maxSize_add_tailSize {b : Bitmap} (h : b.size < 2 ^ 32) (hd : b.dataSize = words b.size) :
    4 * b.maxSize + b.tailSize = b.dataSize := by
  rw [words_eq h] at hd
  simp only [tailSize, maxSize, valueSize]
  omega

/-! ## 64-bit words -/

theorem unpack_pack (a b c d : Word) : unpack (pack a b c d) = [a, b, c, d] := by
  have h₁ : ∀ j, (pack a b c d).getLsbD j = if j < 16 then a.getLsbD j else (d ++ c ++ b).getLsbD (j - 16) :=
    fun j => BitVec.getLsbD_append
  have h₂ : ∀ j, (d ++ c ++ b).getLsbD j = if j < 16 then b.getLsbD j else (d ++ c).getLsbD (j - 16) :=
    fun j => BitVec.getLsbD_append
  have h₃ : ∀ j, (d ++ c).getLsbD j = if j < 16 then c.getLsbD j else d.getLsbD (j - 16) :=
    fun j => BitVec.getLsbD_append
  simp only [unpack, cons.injEq, and_true]
  refine ⟨?_, ?_, ?_, ?_⟩ <;> apply BitVec.eq_of_getLsbD_eq <;> intro i hi <;>
    rw [BitVec.getLsbD_extractLsb', decide_eq_true hi, Bool.true_and, h₁]
  · rw [if_pos (by omega), Nat.zero_add]
  · rw [if_neg (by omega), h₂, if_pos (by omega), Nat.add_sub_cancel_left]
  · rw [if_neg (by omega), h₂, if_neg (by omega), h₃, if_pos (by omega), show 32 + i - 16 - 16 = i by omega]
  · rw [if_neg (by omega), h₂, if_neg (by omega), h₃, if_neg (by omega), show 48 + i - 16 - 16 - 16 = i by omega]

/-- an operation on 64-bit words that is one on words -/
def Wordwise (op64 : BitVec 64 → BitVec 64 → BitVec 64) (op : Word → Word → Word) : Prop :=
  ∀ a b c d a' b' c' d', op64 (pack a b c d) (pack a' b' c' d') = pack (op a a') (op b b') (op c c') (op d d')

theorem wordwise_of_append (op : ∀ n, BitVec n → BitVec n → BitVec n)
    (h : ∀ {m n} {x x' : BitVec m} {y y' : BitVec n}, op (m + n) (x ++ y) (x' ++ y') = op m x x' ++ op n y y') :
    Wordwise (op 64) (op 16) := by
  intro a b c d a' b' c' d'
  change op (16 + 16 + 16 + 16) (d ++ c ++ b ++ a) (d' ++ c' ++ b' ++ a') = _
  rw [h, h, h]
  rfl

theorem wordwise_and : Wordwise (· &&& ·) (· &&& ·) := wordwise_of_append (fun _ x y => x &&& y) BitVec.and_append

theorem wordwise_or : Wordwise (· ||| ·) (· ||| ·) := wordwise_of_append (fun _ x y => x ||| y) BitVec.or_append

theorem pack_eq_zero {a b c d : Word} : pack a b c d = 0 ↔ a = 0 ∧ b = 0 ∧ c = 0 ∧ d = 0 := by
  constructor
  · intro h
    have hw := congrArg unpack h
    rw [unpack_pack] at hw
    simpa [unpack] using hw
  · rintro ⟨rfl, rfl, rfl, rfl⟩
    rfl

theorem exists_four {l : List Word} (h : 4 ≤ l.length) : ∃ a b c d l', l = a :: b :: c :: d :: l' := by
  match l, h with
  | [], h | [_], h | [_, _], h | [_, _, _], h => simp at h
  | a :: b :: c :: d :: l', _ => exact ⟨a, b, c, d, l', rfl⟩

theorem zipTail_eq (op : Word → Word → Word) (n : ℕ) (as bs : List Word) (ha : n ≤ as.length) (hb : n ≤ bs.length) :
    zipTail op n as bs = .ok (zipWith op (as.take n) bs ++ as.drop n) := by
  induction n generalizing as bs with
  | zero => simp [zipTail]
  | succ n ih =>
    cases as with
    | nil => simp at ha
    | cons a as =>
      cases bs with
      | nil => simp at hb
      | cons b bs =>
        rw [zipTail, ih as bs (by simpa using ha) (by simpa using hb)]
        simp

variable {op : Word → Word → Word}

theorem zipWords_eq {op64 : BitVec 64 → BitVec 64 → BitVec 64} (h64 : Wordwise op64 op) (n tail : ℕ)
    (as bs : List Word) (ha : 4 * n + tail ≤ as.length) (hb : 4 * n + tail ≤ bs.length) :
    zipWords op64 op n tail as bs = .ok (zipWith op (as.take (4 * n + tail)) bs ++ as.drop (4 * n + tail)) := by
  induction n generalizing as bs with
  | zero => simpa [zipWords] using zipTail_eq op tail as bs (by omega) (by omega)
  | succ n ih =>
    obtain ⟨a₀, a₁, a₂, a₃, as, rfl⟩ := exists_four (show 4 ≤ as.length by omega)
    obtain ⟨b₀, b₁, b₂, b₃, bs, rfl⟩ := exists_four (show 4 ≤ bs.length by omega)
    simp only [length_cons] at ha hb
    rw [zipWords, ih as bs (by omega) (by omega), h64, unpack_pack, show 4 * (n + 1) + tail = 4 * n + tail + 4 by omega]
    simp

/-- some pair of words in the same place has a bit in common -/
def meet (as bs : List Word) : Bool := (zipWith (· &&& ·) as bs).any (· != 0)

@[simp] theorem meet_nil (as : List Word) : meet as [] = false := by simp [meet]

@[simp] theorem meet_cons (a b : Word) (as bs : List Word) :
    meet (a :: as) (b :: bs) = (a &&& b != 0 || meet as bs) := rfl

theorem ite_ok_true (c m : Bool) : (if c then .ok true else .ok m : Except Fault Bool) = .ok (c || m) := by
  cases c <;> rfl

theorem crossTail_eq (n : ℕ) (as bs : List Word) (ha : n ≤ as.length) (hb : n ≤ bs.length) :
    crossTail n as bs = .ok (meet (as.take n) bs) := by
  induction n generalizing as bs with
  | zero => simp [crossTail, meet]
  | succ n ih =>
    cases as with
    | nil => simp at ha
    | cons a as =>
      cases bs with
      | nil => simp at hb
      | cons b bs =>
        rw [crossTail, ih as bs (by simpa using ha) (by simpa using hb), ite_ok_true, take_succ_cons, meet_cons]

theorem crossWords_eq (n tail : ℕ) (as bs : List Word) (ha : 4 * n + tail ≤ as.length) (hb : 4 * n + tail ≤ bs.length) :
    crossWords n tail as bs = .ok (meet (as.take (4 * n + tail)) bs) := by
  induction n generalizing as bs with
  | zero => simpa [crossWords] using crossTail_eq tail as bs (by omega) (by omega)
  | succ n ih =>
    obtain ⟨a₀, a₁, a₂, a₃, as, rfl⟩ := exists_four (show 4 ≤ as.length by omega)
    obtain ⟨b₀, b₁, b₂, b₃, bs, rfl⟩ := exists_four (show 4 ≤ bs.length by omega)
    simp only [length_cons] at ha hb
    -- the test for zero in front of the conjunction changes nothing
    have htest : (pack a₀ a₁ a₂ a₃ != 0 && pack a₀ a₁ a₂ a₃ &&& pack b₀ b₁ b₂ b₃ != 0) =
        (a₀ &&& b₀ != 0 || (a₁ &&& b₁ != 0 || (a₂ &&& b₂ != 0 || a₃ &&& b₃ != 0))) := by
      have hzero : pack a₀ a₁ a₂ a₃ = 0 → pack a₀ a₁ a₂ a₃ &&& pack b₀ b₁ b₂ b₃ = 0 := by
        intro h
        rw [h]
        exact BitVec.zero_and
      have hand : pack a₀ a₁ a₂ a₃ &&& pack b₀ b₁ b₂ b₃ = pack _ _ _ _ := wordwise_and ..
      rw [Bool.eq_iff_iff]
      simp only [hand, Bool.and_eq_true, Bool.or_eq_true, bne_iff_ne, ne_eq, pack_eq_zero] at hzero ⊢
      tauto
    rw [crossWords, ih as bs (by omega) (by omega), htest, ite_ok_true,
      show 4 * (n + 1) + tail = 4 * n + tail + 4 by omega]
    simp [Bool.or_assoc]

/-! ## Loops over the code of a bitmap -/

variable (s : Seg Word Bool)

/-- the words of a segment -/
def segWords : List Word := s.elems (· &&& countMask) fill

/-- the words of segments -/
def allWords (segs : List (Seg Word Bool)) : List Word := Seg.expand (· &&& countMask) fill segs

theorem allWords_cons (segs : List (Seg Word Bool)) :
    allWords (s :: segs) = segWords s ++ allWords segs := rfl

theorem token_cases {chunk : List Word} (hlen : chunk.length = (segWords s).length) :
    (∃ w x, token s = .literal w ∧ segWords s = [w] ∧ chunk = [x]) ∨
      ∃ v, token s = .run v (valueSize * chunk.length) ∧ segWords s = replicate chunk.length (fill v) := by
  cases s with
  | lit w =>
    obtain ⟨x, rfl⟩ := length_eq_one_iff.1 hlen
    exact .inl ⟨_, x, rfl, rfl, rfl⟩
  | run v n =>
    obtain rfl : chunk.length = n := hlen.trans length_replicate
    by_cases h : chunk.length = 1
    · obtain ⟨x, rfl⟩ := length_eq_one_iff.1 h
      exact .inl ⟨fill v, x, rfl, rfl, rfl⟩
    · exact .inr ⟨v, by rw [token, if_neg h], rfl⟩

variable {s : Seg Word Bool}

theorem split_words {data : List Word} {segs : List (Seg Word Bool)} (h : data.length = (allWords (s :: segs)).length) :
    ∃ chunk rest, data = chunk ++ rest ∧ chunk.length = (segWords s).length ∧ rest.length = (allWords segs).length := by
  rw [allWords_cons, length_append] at h
  refine ⟨data.take (segWords s).length, data.drop (segWords s).length, (take_append_drop _ _).symm, ?_, ?_⟩
  · rw [length_take]
    omega
  · rw [length_drop]
    omega

theorem eq_nil_of_values {chunk : List Word} (h : valueSize * chunk.length = 0) : chunk = [] := by
  unfold valueSize at h
  exact eq_nil_of_length_eq_zero (by omega)

theorem range_eq {p n : ℕ} (h : valueSize * (p + n) < 2 ^ 32) :
    range (valueSize * p) (valueSize * n) = .ok (p, p + n) := by
  have hsum : (valueSize * p + valueSize * n) % 2 ^ 32 = valueSize * (p + n) := by
    rw [← Nat.mul_add, Nat.mod_eq_of_lt h]
  simp only [range, hsum, Nat.mul_mod_right, and_self, if_true,
    Nat.mul_div_cancel_left _ (show 0 < valueSize by decide)]

theorem fillWords_eq (pre chunk rest : List Word) (w : Word) :
    fillWords (pre ++ (chunk ++ rest)) pre.length (pre.length + chunk.length) w =
      .ok (pre ++ (replicate chunk.length w ++ rest)) := by
  unfold fillWords
  rw [if_neg (by simp)]
  congr 1
  apply ext_getElem?
  intro k
  simp only [getElem?_mapIdx, getElem?_append, length_replicate, getElem?_replicate]
  by_cases h₁ : k < pre.length
  · simp [h₁]
  · by_cases h₂ : k - pre.length < chunk.length
    · simp [h₁, h₂, show k < pre.length + chunk.length by omega]
    · simp [h₂, show ¬ k < pre.length + chunk.length by omega]

theorem setRange_eq (pre chunk rest : List Word) (v : Bool) (h : valueSize * (pre.length + chunk.length) < 2 ^ 32) :
    setRange (pre ++ (chunk ++ rest)) (valueSize * pre.length) (valueSize * chunk.length) v =
      .ok (pre ++ (replicate chunk.length (fill v) ++ rest)) := by
  unfold setRange
  split_ifs with h0
  · rw [eq_nil_of_values h0]
    rfl
  · rw [range_eq h]
    exact fillWords_eq pre chunk rest (fill v)

theorem zipWith_replicate (op : Word → Word → Word) (chunk : List Word) (a : Word) :
    zipWith op chunk (replicate chunk.length a) = chunk.map (op · a) := by
  induction chunk with
  | nil => rfl
  | cons x chunk ih => rw [length_cons, replicate_succ, zipWith_cons_cons, ih, map_cons]

theorem advance {pre chunk : List Word} (h : valueSize * (pre.length + chunk.length) < 2 ^ 32) :
    (valueSize * pre.length + valueSize * chunk.length) % 2 ^ 32 = valueSize * (pre.length + chunk.length) := by
  rw [← Nat.mul_add]
  exact Nat.mod_eq_of_lt h

variable {onRun : Bool → Bool}

theorem applyToken_eq (pre : List Word) {chunk : List Word} (rest : List Word)
    (hlen : chunk.length = (segWords s).length) (hop : ∀ x ∈ chunk, ∀ v, op x (fill v) = if onRun v then fill v else x)
    (h : valueSize * (pre.length + chunk.length) < 2 ^ 32) :
    applyToken op onRun (pre ++ (chunk ++ rest), valueSize * pre.length) (token s) =
      .ok (.inr (pre ++ (zipWith op chunk (segWords s) ++ rest), valueSize * (pre.length + chunk.length))) := by
  rcases token_cases s hlen with ⟨w, x, ht, hw, rfl⟩ | ⟨v, ht, hw⟩
  · rw [hw]
    have hpos : (valueSize * pre.length + valueSize) % 2 ^ 32 = valueSize * (pre.length + [x].length) := by
      exact Nat.mod_eq_of_lt h
    have hmod : modifyWord (pre ++ ([x] ++ rest)) (valueSize * pre.length / valueSize) (fun y => op y w) =
        .ok (pre ++ ([op x w] ++ rest)) := by
      rw [Nat.mul_div_cancel_left _ (by decide), modifyWord, if_pos (by simp)]
      exact congrArg _ (modify_append_cons pre x rest _)
    simp only [applyToken, ht, hmod, ok_bind, hpos]
    rfl
  · have hpos := advance h
    have hmap : zipWith op chunk (replicate chunk.length (fill v)) =
        if onRun v then replicate chunk.length (fill v) else chunk := by
      rw [zipWith_replicate]
      cases hr : onRun v with
      | false =>
        have hid : ∀ x ∈ chunk, op x (fill v) = id x := fun x hx => by simpa [hr] using hop x hx v
        rw [map_congr_left hid, map_id]
        rfl
      | true =>
        have hconst : ∀ x ∈ chunk, op x (fill v) = fill v := fun x hx => by simpa [hr] using hop x hx v
        rw [map_congr_left hconst, map_const']
        rfl
    rw [hw, hmap]
    simp only [applyToken, ht]
    cases onRun v with
    | false => simp only [Bool.false_eq_true, if_false, ok_bind, hpos]
    | true => simp only [if_true, setRange_eq pre chunk rest v h, ok_bind, hpos]

theorem runTokens_apply (segs : List (Seg Word Bool)) (pre data : List Word)
    (hlen : data.length = (allWords segs).length) (hop : ∀ x ∈ data, ∀ v, op x (fill v) = if onRun v then fill v else x)
    (h : valueSize * (pre.length + data.length) < 2 ^ 32) :
    runTokens (applyToken op onRun) (segs.map token) (pre ++ data, valueSize * pre.length) =
      .ok (.inr (pre ++ zipWith op data (allWords segs), valueSize * (pre.length + data.length))) := by
  induction segs generalizing pre data with
  | nil =>
    obtain rfl := eq_nil_of_length_eq_zero hlen
    rfl
  | cons s segs ih =>
    obtain ⟨chunk, rest, rfl, hchunk, hlen⟩ := split_words hlen
    rw [length_append] at h ⊢
    have hstep := applyToken_eq pre rest hchunk (fun x hx => hop x (mem_append_left rest hx))
      (Nat.lt_of_le_of_lt (Nat.mul_le_mul_left _ (by omega)) h)
    have hzip : (zipWith op chunk (segWords s)).length = chunk.length := by rw [length_zipWith, hchunk, Nat.min_self]
    have hnext := ih (pre ++ zipWith op chunk (segWords s)) rest hlen (fun x hx => hop x (mem_append_right chunk hx))
      (by rw [length_append, hzip, Nat.add_assoc]; exact h)
    rw [length_append, hzip, append_assoc] at hnext
    rw [map_cons, runTokens, hstep, ok_bind]
    simp only
    rw [hnext, allWords_cons, zipWith_append hchunk]
    simp [Nat.add_assoc]

theorem allWords_segments (b : Bitmap) : allWords (segments b) = (b.data.take b.dataSize).map (· &&& countMask) := by
  rw [allWords, segments, Seg.expand_segments kind fun w u h => kind_eq_some.1 h]
  rfl

theorem length_allWords {b : Bitmap} (h : Plain b) : (allWords (segments b)).length = b.dataSize := by
  rw [allWords_segments, length_map, length_take, Nat.min_eq_left h.allocated]

theorem applyWords_code {data : List Word} {b c : Bitmap} (h : Plain b)
    (hc : compress b = .ok c) (hclean : Clean (b.data.take b.dataSize)) (hlen : data.length = b.dataSize)
    (hop : ∀ x ∈ data, ∀ v, op x (fill v) = if onRun v then fill v else x) :
    applyWords op onRun data c = .ok (zipWith op data ((b.data.take b.dataSize).map (· &&& countMask))) := by
  have hloop :=
    runTokens_apply (segments b) [] data (hlen.trans (length_allWords h).symm) hop (by simpa [hlen] using h.small)
  rw [nil_append, nil_append, allWords_segments, show valueSize * ([] : List Word).length = 0 from rfl] at hloop
  simp [applyWords, readWords_compress h hc, forTokens_code _ h hclean, hloop]

theorem meet_append {as bs : List Word} (h : as.length = bs.length) (as' bs' : List Word) :
    meet (as ++ as') (bs ++ bs') = (meet as bs || meet as' bs') := by
  rw [meet, zipWith_append h, any_append]
  rfl

theorem anyWord_eq (chunk rest : List Word) :
    anyWord true chunk.length (chunk ++ rest) = .ok (chunk.any (· &&& countMask != 0)) := by
  induction chunk with
  | nil => rfl
  | cons w chunk ih =>
    rw [length_cons, cons_append, anyWord, ih]
    exact ite_ok_true _ _

theorem getRange_eq (pre chunk rest : List Word) (h : valueSize * (pre.length + chunk.length) < 2 ^ 32) :
    getRange (pre ++ (chunk ++ rest)) (valueSize * pre.length) (valueSize * chunk.length) true =
      .ok (meet chunk (replicate chunk.length (fill true))) := by
  have hmeet : meet chunk (replicate chunk.length (fill true)) = chunk.any (· &&& countMask != 0) := by
    rw [meet, zipWith_replicate, any_map]
    rfl
  unfold getRange
  split_ifs with h0
  · rw [eq_nil_of_values h0]
    rfl
  · rw [range_eq h, ok_bind, hmeet]
    simp only [Nat.add_sub_cancel_left, drop_left]
    exact anyWord_eq chunk rest

theorem crossToken_eq (pre : List Word) {chunk : List Word} (rest : List Word)
    (hlen : chunk.length = (segWords s).length) (h : valueSize * (pre.length + chunk.length) < 2 ^ 32) :
    crossToken (pre ++ (chunk ++ rest)) (valueSize * pre.length) (token s) =
      .ok (if meet chunk (segWords s) then .inl () else .inr (valueSize * (pre.length + chunk.length))) := by
  rcases token_cases s hlen with ⟨w, x, ht, hw, rfl⟩ | ⟨v, ht, hw⟩
  · rw [hw]
    have hpos : (valueSize * pre.length + valueSize) % 2 ^ 32 = valueSize * (pre.length + [x].length) := by
      exact Nat.mod_eq_of_lt h
    have hget : (pre ++ ([x] ++ rest))[valueSize * pre.length / valueSize]? = some x := by
      rw [Nat.mul_div_cancel_left _ (by decide)]
      simp
    simp only [crossToken, ht, hget, hpos, meet_cons, meet_nil, Bool.or_false]
    cases x &&& w != 0 <;> rfl
  · have hpos := advance h
    rw [hw]
    simp only [crossToken, ht]
    cases v with
    | false =>
      have hmeet : meet chunk (replicate chunk.length (fill false)) = false := by
        rw [meet, zipWith_replicate]
        simp [fill]
      simp only [Bool.false_eq_true, if_false, ok_bind, hpos, hmeet]
    | true =>
      simp only [if_true, getRange_eq pre chunk rest h, ok_bind, hpos]
      cases meet chunk (replicate chunk.length (fill true)) <;> rfl

theorem runTokens_cross (segs : List (Seg Word Bool)) (pre data : List Word)
    (hlen : data.length = (allWords segs).length) (h : valueSize * (pre.length + data.length) < 2 ^ 32) :
    runTokens (crossToken (pre ++ data)) (segs.map token) (valueSize * pre.length) =
      .ok (if meet data (allWords segs) then .inl () else .inr (valueSize * (pre.length + data.length))) := by
  induction segs generalizing pre data with
  | nil =>
    obtain rfl := eq_nil_of_length_eq_zero hlen
    rfl
  | cons s segs ih =>
    obtain ⟨chunk, rest, rfl, hchunk, hlen⟩ := split_words hlen
    rw [length_append, ← Nat.add_assoc] at h ⊢
    have hstep := crossToken_eq pre rest hchunk (Nat.lt_of_le_of_lt (Nat.mul_le_mul_left _ (by omega)) h)
    have hnext := ih (pre ++ chunk) rest hlen (by rw [length_append]; exact h)
    rw [length_append, append_assoc] at hnext
    rw [map_cons, runTokens, hstep, allWords_cons, meet_append hchunk]
    cases meet chunk (segWords s) with
    | true => rfl
    | false => exact hnext

theorem compressCross_code {a b c : Bitmap} (h : Plain b) (hc : compress b = .ok c)
    (hclean : Clean (b.data.take b.dataSize)) (hlen : a.data.length = b.dataSize) :
    compressCross a c = .ok (meet a.data ((b.data.take b.dataSize).map (· &&& countMask))) := by
  have hloop :=
    runTokens_cross (segments b) [] a.data (hlen.trans (length_allWords h).symm) (by simpa [hlen] using h.small)
  rw [nil_append, allWords_segments, show valueSize * ([] : List Word).length = 0 from rfl] at hloop
  simp only [compressCross, readWords_compress h hc, ok_bind, forTokens_code _ h hclean, hloop]
  cases meet a.data ((b.data.take b.dataSize).map (· &&& countMask)) <;> rfl

end CoServer.DataStruct.Bitmap
