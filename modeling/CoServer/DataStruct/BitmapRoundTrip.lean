/-
A `Bitmap` and its compressed form.

Results:
- `uncompress_compress`: `uncompress` of `compress` gives back a bitmap made by any sequence of operations if no word of
  mixed values has bit 15 set in it.
- `complement_tags_words`: `~` flips the tag bits of plain words too. A bitmap of 14 values of which one is set becomes
  the word `0xFFFE`; in the compressed form it stands for a run of 16382 ones, and `uncompress` stops at the assertion
  of `set(from, size, v)`.
- `compressed_operand`: for two bitmaps of one size, `&=`, `|=` and `cross` do the same with the compressed form of the
  right one as with itself, and `cross` says whether some position is set in both.
-/
import CoServer.DataStruct.BitmapOps

namespace CoServer.DataStruct.Bitmap

open List BitVec Bool

/-! ## Sequences of operations -/

/-- the operations that change or replace a plain bitmap; the right operands are any bitmaps -/
inductive Op where
  | set (idx : ℕ) (v : Bool)
  | setRange (start count : ℕ) (v : Bool)
  | andAssign (b : Bitmap)
  | orAssign (b : Bitmap)
  | complement
  | resize (size : BitVec 32) (v : Bool)
  | copy

def step (b : Bitmap) : Op → Except Fault Bitmap
  | .set idx v => b.set idx v
  | .setRange start count v => do
    let data ← setRange b.data start count v
    .ok { b with data := data }
  | .andAssign c => andAssign b c
  | .orAssign c => orAssign b c
  | .complement => complement b
  | .resize size v => b.resize size.toNat v
  | .copy => b.copy

/-- the operations one after the other -/
def build : Bitmap → List Op → Except Fault Bitmap
  | b, [] => .ok b
  | b, o :: ops => do
    let b ← step b o
    build b ops

theorem bind_eq_ok {α β : Type} {x : Except Fault α} {f : α → Except Fault β} {r : β} (h : x >>= f = .ok r) :
    ∃ a, x = .ok a ∧ f a = .ok r := by
  cases x with
  | error e => simp [bind, Except.bind] at h
  | ok a => exact ⟨a, rfl, h⟩

/-! ## What every operation keeps -/

/-- a plain bitmap with as many words as its size takes -/
structure Shaped (b : Bitmap) : Prop where
  plain : b.compressed = false
  size_lt : b.size < 2 ^ 32
  dataSize_eq : b.dataSize = words b.size
  allocated : b.dataSize ≤ b.data.length

variable {a b c : Bitmap} {op : Word → Word → Word} {data' : List Word} {i : ℕ}
  {op64 : BitVec 64 → BitVec 64 → BitVec 64} {onRun : Bool → Bool}

variable {data : List Word}

theorem Shaped.of_length (h : Shaped b) (hd : data.length = b.data.length) :
    Shaped { b with data := data } := ⟨h.plain, h.size_lt, h.dataSize_eq, by rw [hd]; exact h.allocated⟩

theorem shaped_new {size : ℕ} (h : size < 2 ^ 32) (byte : BitVec 8) : Shaped (new size byte) :=
  ⟨rfl, h, rfl, by simp [new]⟩

theorem modifyWord_eq_ok {f : Word → Word} (h : modifyWord data i f = .ok data') : data' = data.modify i f := by
  by_cases hi : i < data.length
  · rw [modifyWord, if_pos hi] at h
    exact (Except.ok.inj h).symm
  · rw [modifyWord, if_neg hi] at h
    cases h

theorem modifyWord_length {f : Word → Word} (h : modifyWord data i f = .ok data') : data'.length = data.length := by
  rw [modifyWord_eq_ok h, length_modify]

theorem setRange_length {start count : ℕ} {v : Bool} (h : setRange data start count v = .ok data') :
    data'.length = data.length := by
  unfold setRange at h
  split_ifs at h
  · cases h
    rfl
  obtain ⟨⟨i, j⟩, -, h⟩ := bind_eq_ok h
  simp only [fillWords] at h
  split_ifs at h
  rw [← Except.ok.inj h, length_mapIdx]

variable {n : ℕ} {as bs : List Word}

theorem zipTail_length {r : List Word} (h : zipTail op n as bs = .ok r) : r.length = as.length := by
  induction n generalizing as bs r with
  | zero =>
    cases h
    rfl
  | succ n ih =>
    cases as with
    | nil => simp [zipTail] at h
    | cons a as =>
      cases bs with
      | nil => simp [zipTail] at h
      | cons b bs =>
        obtain ⟨rest, hrest, h⟩ := bind_eq_ok h
        rw [← Except.ok.inj h, length_cons, length_cons, ih hrest]

theorem zipWords_length {tail : ℕ} {r : List Word} (h : zipWords op64 op n tail as bs = .ok r) :
    r.length = as.length := by
  fun_induction zipWords op64 op n tail as bs generalizing r with
  | case1 => exact zipTail_length h
  | case2 tail n a₀ a₁ a₂ a₃ as b₀ b₁ b₂ b₃ bs ih =>
    obtain ⟨rest, hrest, h⟩ := bind_eq_ok h
    rw [← Except.ok.inj h, length_append, ih hrest]
    simp only [unpack, length_cons, length_nil]
    omega
  | case3 => cases h

theorem applyToken_length {s s' : List Word × ℕ} {t : Token} (h : applyToken op onRun s t = .ok (.inr s')) :
    s'.1.length = s.1.length := by
  cases t with
  | literal w =>
    obtain ⟨data, hdata, h⟩ := bind_eq_ok h
    cases h
    exact modifyWord_length hdata
  | run v count =>
    simp only [applyToken] at h
    split_ifs at h
    · obtain ⟨data, hdata, h⟩ := bind_eq_ok h
      cases h
      exact setRange_length hdata
    · cases h
      rfl

theorem forTokens_inv {σ ρ : Type} {body : σ → Token → Except Fault (ρ ⊕ σ)} {P : σ → Prop}
    (hstep : ∀ s t s', P s → body s t = .ok (.inr s') → P s') (fuel : ℕ) (ws : List Word) {s s' : σ} (hs : P s)
    (h : forTokens body fuel ws s = .ok (.inr s')) : P s' := by
  induction fuel generalizing ws s with
  | zero =>
    cases h
    exact hs
  | succ fuel ih =>
    cases ws with
    | nil =>
      cases h
      exact hs
    | cons w ws =>
      obtain ⟨⟨t, rest⟩, -, h⟩ := bind_eq_ok h
      obtain ⟨r, hr, h⟩ := bind_eq_ok h
      cases r with
      | inl r => cases h
      | inr s₁ => exact ih rest (hstep s t s₁ hs hr) h

theorem applyWords_length (h : applyWords op onRun data b = .ok data') : data'.length = data.length := by
  obtain ⟨ws, -, h⟩ := bind_eq_ok h
  obtain ⟨r, hr, h⟩ := bind_eq_ok h
  cases r with
  | inl e => exact e.elim
  | inr s =>
    cases h
    exact forTokens_inv (P := fun s => s.1.length = data.length)
      (fun s t s' hs ht => (applyToken_length ht).trans hs) _ _ rfl hr

theorem combine_shaped {name : String} (ha : Shaped a) (h : combine name op64 op onRun a b = .ok c) : Shaped c := by
  unfold combine at h
  split_ifs at h
  · obtain ⟨data, hdata, h⟩ := bind_eq_ok h
    cases h
    exact ha.of_length (zipWords_length hdata)
  · obtain ⟨data, hdata, h⟩ := bind_eq_ok h
    cases h
    exact ha.of_length (applyWords_length hdata)

theorem complement_shaped (hb : Shaped b) (h : complement b = .ok c) : Shaped c := by
  rw [complement, if_neg (Nat.not_lt.2 hb.allocated), if_neg (by simp [hb.plain])] at h
  obtain ⟨data, hdata, h⟩ := bind_eq_ok h
  cases h
  exact hb.of_length (zipWords_length hdata)

theorem resize_shaped {size : ℕ} {v : Bool} (hb : Shaped b) (hsize : size < 2 ^ 32) (h : resize b size v = .ok c) :
    Shaped c := by
  have hlen := hb.allocated
  simp only [resize, hb.plain, false_eq_true, if_false] at h
  by_cases hgrow : b.dataSize < words size
  · rw [if_pos hgrow] at h
    by_cases hbad : b.data.length < b.dataSize ∨ b.dataSize = 0
    · rw [if_pos hbad] at h
      cases h
    rw [if_neg hbad] at h
    cases h
    refine ⟨rfl, hsize, rfl, ?_⟩
    simp only [length_modify, length_append, length_take, length_replicate]
    omega
  · rw [if_neg hgrow] at h
    cases h
    exact ⟨rfl, hsize, rfl, by simp only; omega⟩

theorem step_shaped {o : Op} (hb : Shaped b) (h : step b o = .ok c) : Shaped c := by
  cases o with
  | set idx v =>
    obtain ⟨data, hdata, h⟩ := bind_eq_ok h
    cases h
    exact hb.of_length (modifyWord_length hdata)
  | setRange start count v =>
    obtain ⟨data, hdata, h⟩ := bind_eq_ok h
    cases h
    exact hb.of_length (setRange_length hdata)
  | andAssign d | orAssign d => exact combine_shaped hb h
  | complement => exact complement_shaped hb h
  | resize size v => exact resize_shaped hb size.isLt h
  | copy =>
    simp only [step, copy, Nat.not_lt.2 hb.allocated, if_false] at h
    cases h
    exact ⟨hb.plain, hb.size_lt, hb.dataSize_eq, by simp [hb.allocated]⟩

theorem build_shaped {ops : List Op} (hb : Shaped b) (h : build b ops = .ok c) : Shaped c := by
  induction ops generalizing b with
  | nil =>
    cases h
    exact hb
  | cons o ops ih =>
    obtain ⟨b', hstep, h⟩ := bind_eq_ok h
    exact ih (step_shaped hb hstep) h

theorem Shaped.toPlain (h : Shaped b) (hsize : b.size ≤ 2 ^ 32 - 14) : Plain b := by
  refine ⟨h.plain, h.allocated, ?_⟩
  rw [h.dataSize_eq, words_eq h.size_lt, valueSize]
  omega

/-! ## `uncompress` and `compress` -/

theorem get_eq {w : Word} (h : b.data[i / valueSize]? = some w) : b.get i = .ok (w.getLsbD (i % valueSize)) := by
  simp only [get, h, and_posBit]

theorem zipWith_snd (h : as.length = bs.length) : zipWith (fun _ w => w) as bs = bs := by
  induction as generalizing bs with
  | nil => rw [eq_nil_of_length_eq_zero h.symm]; rfl
  | cons a as ih =>
    cases bs with
    | nil => simp at h
    | cons b bs => rw [zipWith_cons_cons, ih (by simpa using h)]

theorem uncompress_eq (hs : Shaped b) (hp : Plain b) (hc : compress b = .ok c)
    (hclean : Clean (b.data.take b.dataSize)) :
    uncompress c = .ok ⟨false, b.size, b.dataSize, (b.data.take b.dataSize).map (· &&& countMask)⟩ := by
  have hlen : (new b.size 0).data.length = b.dataSize := by rw [new, length_replicate, hs.dataSize_eq]
  have hwords : applyWords (fun _ w => w) (fun _ => true) (new b.size 0).data c =
      .ok ((b.data.take b.dataSize).map (· &&& countMask)) := by
    rw [applyWords_code hp hc hclean hlen (fun x _ v => rfl), zipWith_snd]
    rw [hlen, length_map, length_take, Nat.min_eq_left hs.allocated]
  cases (compress_eq hp).symm.trans hc
  rw [uncompress, if_pos rfl, hwords, hs.dataSize_eq]
  rfl

/-- **Round trip.** -/
theorem uncompress_compress (size : BitVec 32) (byte : BitVec 8) (ops : List Op) {b : Bitmap}
    (hb : build (new size.toNat byte) ops = .ok b) (hsize : b.size ≤ 2 ^ 32 - 14)
    (hclean : Clean (b.data.take b.dataSize)) :
    ∃ c d, compress b = .ok c ∧ uncompress c = .ok d ∧ d.size = b.size ∧
      ∀ i < b.size, ∃ v, b.get i = .ok v ∧ d.get i = .ok v := by
  have hs := build_shaped (shaped_new size.isLt byte) hb
  have hp := hs.toPlain hsize
  refine ⟨_, _, compress_eq hp, uncompress_eq hs hp (compress_eq hp) hclean, rfl, ?_⟩
  intro i hi
  have hword : i / valueSize < b.dataSize := by
    rw [hs.dataSize_eq, words_eq hs.size_lt, valueSize]
    omega
  obtain ⟨w, hget⟩ : ∃ w, b.data[i / valueSize]? = some w :=
    ⟨_, getElem?_eq_getElem (Nat.lt_of_lt_of_le hword hs.allocated)⟩
  refine ⟨_, get_eq hget, ?_⟩
  have hback : ((b.data.take b.dataSize).map (· &&& countMask))[i / valueSize]? = some (w &&& countMask) := by
    rw [getElem?_map, getElem?_take_of_lt hword, hget]
    rfl
  have hmod : i % valueSize < 14 := Nat.mod_lt i (by decide)
  rw [get_eq hback, getLsbD_and, getLsbD_countMask, decide_eq_true hmod, Bool.and_true]

/-- a bitmap of 60 values, one of them set -/
def oneOfSixty : Bitmap := ⟨false, 60, 5, [8, 0, 0, 0, 0]⟩

theorem uncompress_compress_one :
    ∃ c d, compress oneOfSixty = .ok c ∧ uncompress c = .ok d ∧ d.size = 60 ∧
      ∀ i < 60, ∃ v, oneOfSixty.get i = .ok v ∧ d.get i = .ok v :=
  uncompress_compress 60 0 [.set 3 true] (by decide +kernel) (by decide) (by decide +kernel)

/-- **The code's bug.** -/
theorem complement_tags_words :
    build (new 14 0) [.set 0 true, .complement] = .ok ⟨false, 14, 1, [0xFFFE#16]⟩ ∧
      compress ⟨false, 14, 1, [0xFFFE#16]⟩ = .ok ⟨true, 14, 1, [0xFFFE#16]⟩ ∧
      uncompress ⟨true, 14, 1, [0xFFFE#16]⟩ = .error .assertion := by
  decide +kernel

/-! ## The compressed form as right operand -/

/-- bitmaps of size `n` made by the constructor with the default, `set` below the size, and `&=` and `|=` with such
bitmaps -/
inductive Built (n : ℕ) : Bitmap → Prop
  | new : Built n (new n 0)
  | set {a c : Bitmap} (ha : Built n a) (idx : ℕ) (hidx : idx < n) (v : Bool) (h : a.set idx v = .ok c) : Built n c
  | andAssign {a b c : Bitmap} (ha : Built n a) (hb : Built n b) (h : andAssign a b = .ok c) : Built n c
  | orAssign {a b c : Bitmap} (ha : Built n a) (hb : Built n b) (h : orAssign a b = .ok c) : Built n c

/-- only bits of positions below `n` are set -/
def Below (n : ℕ) (data : List Word) : Prop :=
  ∀ j w, data[j]? = some w → ∀ k, w.getLsbD k = true → k < valueSize ∧ valueSize * j + k < n

/-- what all of them have in common -/
structure Tidy (n : ℕ) (b : Bitmap) : Prop where
  plain : b.compressed = false
  size_eq : b.size = n
  dataSize_eq : b.dataSize = words n
  length_eq : b.data.length = words n
  below : Below n b.data

section

variable {n : ℕ} (hn : n < 2 ^ 32)

theorem tidy_new : Tidy n (new n 0) := by
  refine ⟨rfl, rfl, rfl, by simp [new], ?_⟩
  intro j w hw k hk
  have hzero : w = 0 := by exact eq_of_mem_replicate (mem_of_getElem? hw)
  rw [hzero] at hk
  simp at hk

theorem getLsbD_posBit {k : ℕ} (h : (posBit i).getLsbD k = true) : k = i := by
  rw [posBit, ← twoPow_eq, getLsbD_twoPow] at h
  simp only [and_eq_true, decide_eq_true_eq] at h
  exact h.2.symm

theorem Tidy.set (ha : Tidy n a) {idx : ℕ} (hidx : idx < n) {v : Bool} (h : a.set idx v = .ok c) : Tidy n c := by
  obtain ⟨data, hdata, h⟩ := bind_eq_ok h
  cases h
  refine ⟨ha.plain, ha.size_eq, ha.dataSize_eq, (modifyWord_length hdata).trans ha.length_eq, ?_⟩
  -- the bit of the position is the only new one
  have hbits : ∀ (w : Word) (k : ℕ),
    (if v then w ||| posBit (idx % valueSize) else w &&& nposBit (idx % valueSize)).getLsbD k = true →
      w.getLsbD k = true ∨ k = idx % valueSize := by
    intro w k hk
    cases v with
    | false =>
      rw [if_neg (by decide), getLsbD_and, and_eq_true] at hk
      exact Or.inl hk.1
    | true =>
      rw [if_pos rfl, getLsbD_or, or_eq_true] at hk
      exact hk.imp_right getLsbD_posBit
  intro j w hw k hk
  simp only [modifyWord_eq_ok hdata, getElem?_modify, Option.map_eq_map, Option.map_eq_some_iff] at hw
  obtain ⟨w₀, hw₀, rfl⟩ := hw
  by_cases hj : idx / valueSize = j
  · rw [if_pos hj] at hk
    rcases hbits w₀ k hk with hk | hk
    · exact ha.below j w₀ hw₀ k hk
    · subst hj hk
      rw [Nat.div_add_mod]
      exact ⟨Nat.mod_lt _ (by decide), hidx⟩
  · rw [if_neg hj] at hk
    exact ha.below j w₀ hw₀ k hk

include hn in
theorem Tidy.loops (ha : Tidy n a) : 4 * a.maxSize + a.tailSize = words n := by
  have hsize : a.size < 2 ^ 32 := ha.size_eq ▸ hn
  exact (maxSize_add_tailSize hsize (by rw [ha.dataSize_eq, ha.size_eq])).trans ha.dataSize_eq

include hn in
theorem Tidy.combine {name : String} (h64 : Wordwise op64 op) (onRun : Bool → Bool) (ha : Tidy n a) (hb : Tidy n b) :
    combine name op64 op onRun a b = .ok { a with data := zipWith op a.data b.data } := by
  have hm := ha.loops hn
  have hzip := zipWords_eq h64 a.maxSize a.tailSize a.data b.data (by rw [hm, ha.length_eq]) (by rw [hm, hb.length_eq])
  rw [hm, ← ha.length_eq, take_length, drop_length, append_nil] at hzip
  rw [Bitmap.combine, if_neg (by rw [ha.size_eq, hb.size_eq]; simp), if_pos (by simp [ha.plain, hb.plain]),
    hzip, ok_bind]

theorem Tidy.zip (hop : ∀ x y k, (op x y).getLsbD k = true → getLsbD x k = true ∨ getLsbD y k = true)
    (ha : Tidy n a) (hb : Tidy n b) : Tidy n { a with data := zipWith op a.data b.data } := by
  refine ⟨ha.plain, ha.size_eq, ha.dataSize_eq, by simp [ha.length_eq, hb.length_eq], ?_⟩
  intro j w hw k hk
  obtain ⟨x, y, hx, hy, rfl⟩ := getElem?_zipWith_eq_some.1 hw
  rcases hop x y k hk with hk | hk
  · exact ha.below j x hx k hk
  · exact hb.below j y hy k hk

end

theorem Tidy.andAssign (hn : n < 2 ^ 32) (ha : Tidy n a) (hb : Tidy n b) :
    andAssign a b = .ok { a with data := zipWith (· &&& ·) a.data b.data } := Tidy.combine hn wordwise_and _ ha hb

theorem Tidy.orAssign (hn : n < 2 ^ 32) (ha : Tidy n a) (hb : Tidy n b) :
    orAssign a b = .ok { a with data := zipWith (· ||| ·) a.data b.data } := Tidy.combine hn wordwise_or _ ha hb

theorem Built.tidy (hn : n < 2 ^ 32) (h : Built n b) : Tidy n b := by
  induction h with
  | new => exact tidy_new
  | set _ idx hidx v h ih => exact ih.set hidx h
  | andAssign _ _ h iha ihb =>
    rw [iha.andAssign hn ihb] at h
    cases h
    apply Tidy.zip _ iha ihb
    intro x y k hk
    rw [getLsbD_and, and_eq_true] at hk
    exact Or.inl hk.1
  | orAssign _ _ h iha ihb =>
    rw [iha.orAssign hn ihb] at h
    cases h
    apply Tidy.zip _ iha ihb
    intro x y k hk
    rw [getLsbD_or, or_eq_true] at hk
    exact hk

theorem Tidy.and_countMask (h : Tidy n b) {w : Word} (hw : w ∈ b.data) : w &&& countMask = w := by
  obtain ⟨j, hj⟩ := mem_iff_getElem?.1 hw
  apply eq_of_getLsbD_eq
  intro k _
  rw [getLsbD_and, getLsbD_countMask]
  cases hk : w.getLsbD k with
  | false => rfl
  | true => exact decide_eq_true (h.below j w hj k hk).1

theorem Tidy.clean (h : Tidy n b) : Clean (b.data.take b.dataSize) := by
  intro w hw _
  rw [isRun_eq, ← h.and_countMask (mem_of_mem_take hw), getLsbD_and]
  exact and_false _

theorem Tidy.toPlain (hn : n ≤ 2 ^ 32 - 14) (h : Tidy n b) : Plain b := by
  refine ⟨h.plain, by rw [h.dataSize_eq, h.length_eq], ?_⟩
  rw [h.dataSize_eq, words_eq (by omega), valueSize]
  omega

theorem Tidy.words_eq (h : Tidy n b) : (b.data.take b.dataSize).map (· &&& countMask) = b.data := by
  have hid : ∀ w ∈ b.data, w &&& countMask = id w := fun w hw => h.and_countMask hw
  rw [take_of_length_le (by rw [h.length_eq, h.dataSize_eq]), map_congr_left hid, map_id]

theorem Tidy.combine_compressed (hn : n ≤ 2 ^ 32 - 14) {name : String} (ha : Tidy n a) (hb : Tidy n b)
    (hc : compress b = .ok c) (hop : ∀ x ∈ a.data, ∀ v, op x (fill v) = if onRun v then fill v else x) :
    Bitmap.combine name op64 op onRun a c = .ok { a with data := zipWith op a.data b.data } := by
  have hp := hb.toPlain hn
  have hwords := applyWords_code hp hc hb.clean (ha.length_eq.trans hb.dataSize_eq.symm) hop
  rw [hb.words_eq] at hwords
  cases (compress_eq hp).symm.trans hc
  rw [Bitmap.combine, if_neg (by simp [ha.size_eq, hb.size_eq]), if_neg (by simp), if_pos (by simp [ha.plain]),
    if_neg (by simp [ha.plain]), hwords, ok_bind]

theorem Tidy.cross_eq (hn : n < 2 ^ 32) (ha : Tidy n a) (hb : Tidy n b) : cross a b = .ok (meet a.data b.data) := by
  have hm := ha.loops hn
  have hloop := crossWords_eq a.maxSize a.tailSize a.data b.data (by rw [hm, ha.length_eq]) (by rw [hm, hb.length_eq])
  rw [hm, ← ha.length_eq, take_length] at hloop
  rw [cross, if_neg (by simp [hb.plain]), if_pos (by simp [ha.plain, hb.plain]), normalCross, hloop]

theorem Tidy.cross_compressed (hn : n ≤ 2 ^ 32 - 14) (ha : Tidy n a) (hb : Tidy n b)
    (hc : compress b = .ok c) : cross a c = .ok (meet a.data b.data) := by
  have hp := hb.toPlain hn
  have hloop := compressCross_code (a := a) hp hc hb.clean (ha.length_eq.trans hb.dataSize_eq.symm)
  rw [hb.words_eq] at hloop
  cases (compress_eq hp).symm.trans hc
  rw [cross, if_pos (by simp [ha.plain]), hloop]

theorem and_ne_zero_iff (x y : Word) : x &&& y ≠ 0 ↔ ∃ k, x.getLsbD k = true ∧ y.getLsbD k = true := by
  constructor
  · intro h
    by_contra hno
    apply h
    apply eq_of_getLsbD_eq
    intro k _
    rw [getLsbD_and]
    cases hx : x.getLsbD k with
    | false => simp
    | true =>
      cases hy : y.getLsbD k with
      | false => simp
      | true => exact absurd ⟨k, hx, hy⟩ hno
  · rintro ⟨k, hx, hy⟩ h
    have hk := congrArg (fun z => getLsbD z k) h
    simp [hx, hy] at hk

theorem Tidy.meet_iff (hn : n < 2 ^ 32) (ha : Tidy n a) (hb : Tidy n b) :
    meet a.data b.data = true ↔ ∃ i < n, a.get i = .ok true ∧ b.get i = .ok true := by
  simp only [meet, any_eq_true, bne_iff_ne]
  constructor
  · rintro ⟨z, hz, hne⟩
    obtain ⟨j, hj⟩ := mem_iff_getElem?.1 hz
    obtain ⟨x, y, hx, hy, rfl⟩ := getElem?_zipWith_eq_some.1 hj
    obtain ⟨k, hxk, hyk⟩ := (and_ne_zero_iff x y).1 hne
    obtain ⟨hk, hlt⟩ := ha.below j x hx k hxk
    have hdiv : (valueSize * j + k) / valueSize = j := by
      rw [Nat.mul_add_div (by decide), Nat.div_eq_of_lt hk, Nat.add_zero]
    have hmod : (valueSize * j + k) % valueSize = k := by rw [Nat.mul_add_mod, Nat.mod_eq_of_lt hk]
    refine ⟨valueSize * j + k, hlt, ?_, ?_⟩
    · rw [get_eq (by rw [hdiv]; exact hx), hmod, hxk]
    · rw [get_eq (by rw [hdiv]; exact hy), hmod, hyk]
  · rintro ⟨i, hi, hai, hbi⟩
    have hword : i / valueSize < words n := by
      rw [Bitmap.words_eq hn, valueSize]
      omega
    obtain ⟨x, hx⟩ : ∃ x, a.data[i / valueSize]? = some x :=
      ⟨_, getElem?_eq_getElem (by rw [ha.length_eq]; exact hword)⟩
    obtain ⟨y, hy⟩ : ∃ y, b.data[i / valueSize]? = some y :=
      ⟨_, getElem?_eq_getElem (by rw [hb.length_eq]; exact hword)⟩
    rw [get_eq hx, Except.ok.injEq] at hai
    rw [get_eq hy, Except.ok.injEq] at hbi
    refine ⟨x &&& y, ?_, (and_ne_zero_iff x y).2 ⟨_, hai, hbi⟩⟩
    exact mem_of_getElem? (getElem?_zipWith_eq_some.2 ⟨x, y, hx, hy, rfl⟩)

theorem Tidy.and_fill (ha : Tidy n a) : ∀ x ∈ a.data, ∀ v, x &&& fill v = if !v then fill v else x := by
  intro x hx v
  cases v with
  | false => exact and_zero
  | true => exact ha.and_countMask hx

theorem Tidy.or_fill (ha : Tidy n a) : ∀ x ∈ a.data, ∀ v, x ||| fill v = if v then fill v else x := by
  intro x hx v
  cases v with
  | false => exact or_zero
  | true =>
    have habs : x ||| countMask = countMask := by
      rw [← ha.and_countMask hx]
      apply eq_of_getLsbD_eq
      intro k _
      rw [getLsbD_or, getLsbD_and]
      cases countMask.getLsbD k <;> simp
    exact habs

/-- **The compressed form as right operand.** -/
theorem compressed_operand {n : ℕ} (hn : n ≤ 2 ^ 32 - 14) {a b : Bitmap} (ha : Built n a) (hb : Built n b) :
    ∃ c, compress b = .ok c ∧ c.compressed = true ∧
      (∃ r, andAssign a b = .ok r ∧ andAssign a c = .ok r) ∧
      (∃ r, orAssign a b = .ok r ∧ orAssign a c = .ok r) ∧
      ∃ r, cross a b = .ok r ∧ cross a c = .ok r ∧ (r = true ↔ ∃ i < n, a.get i = .ok true ∧ b.get i = .ok true) := by
  have hlt : n < 2 ^ 32 := by omega
  have ta := ha.tidy hlt
  have tb := hb.tidy hlt
  have hc := compress_eq (tb.toPlain hn)
  refine ⟨_, hc, rfl, ⟨_, ta.andAssign hlt tb, ?_⟩, ⟨_, ta.orAssign hlt tb, ?_⟩, ?_⟩
  · exact ta.combine_compressed hn tb hc ta.and_fill
  · exact ta.combine_compressed hn tb hc ta.or_fill
  · exact ⟨_, ta.cross_eq hlt tb, ta.cross_compressed hn tb hc, ta.meet_iff hlt tb⟩

theorem built_oneOfSixty : Built 60 oneOfSixty := Built.new.set 3 (by decide) true (by decide +kernel)

theorem compressed_operand_one :
    ∃ c, compress oneOfSixty = .ok c ∧ c.compressed = true ∧
      (∃ r, andAssign oneOfSixty oneOfSixty = .ok r ∧ andAssign oneOfSixty c = .ok r) ∧
      (∃ r, orAssign oneOfSixty oneOfSixty = .ok r ∧ orAssign oneOfSixty c = .ok r) ∧
      ∃ r, cross oneOfSixty oneOfSixty = .ok r ∧ cross oneOfSixty c = .ok r ∧
        (r = true ↔ ∃ i < 60, oneOfSixty.get i = .ok true ∧ oneOfSixty.get i = .ok true) :=
  compressed_operand (by decide) built_oneOfSixty built_oneOfSixty

end CoServer.DataStruct.Bitmap
