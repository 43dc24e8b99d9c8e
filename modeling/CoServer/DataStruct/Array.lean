/-
`Array` (include/datastruct/array.h): the two binary searches, `insert` and `erase`.

The indexes are `int64_t`; an array has fewer than 2^62 elements, so that no sum of two of them overflows. A search
gives `none` while its loop goes on and for an access outside the data. `memmove` and `realloc` act on the list of the
elements; what `realloc` leaves in the new place is arbitrary.

Results:
- `exists_spec`: the search in a strictly increasing array ends with the index of the value or its insertion point.
- `array_refines_set`: so it does there, and every sequence of insertions and removals keeps the array strictly
  increasing, with the answers and the contents of the set.
- `existsCmp_right_iff`: in an increasing array the search with a comparison ends with the result of the other search
  iff every element is smaller than the value or the value is where the search looks on its way to the right.
- `existsCmp_never_ends`: the first element that is looked at is larger.
-/
import CoServer.Core.Refine
import Mathlib.Data.Finset.Insert

namespace CoServer.DataStruct.Array

open CoServer.Core List

variable {T : Type}

/-! ## The code -/

/-- the loop of a search; `left` is what the branch for a smaller value makes of `end` -/
def searchLoop (less : T → T → Bool) (left : ℤ → ℤ → ℤ) (v : T) (data : List T) : ℕ → ℤ → ℤ → Option ℤ
  | 0, _, _ => none
  | fuel + 1, first, last =>
    if first ≤ last then
      let m := (first + last) / 2
      match data[m.toNat]? with
      | none => none
      | some x =>
        if less v x then searchLoop less left v data fuel first (left last m)
        else if less x v then searchLoop less left v data fuel (m + 1) last
        else some m
    else some (-first - 1)

/-- the loop of `exists(v, cmp)`: `end == m - 1;` has no effect -/
def existsCmpLoop (cmp : T → T → Bool) (v : T) (data : List T) : ℕ → ℤ → ℤ → Option ℤ :=
  searchLoop cmp (fun last _ => last) v data

def memmove (l : List T) (dst src n : ℕ) : List T := l.take dst ++ (l.drop src).take n ++ l.drop (dst + n)

/-- `insert(int64_t idx, const T& v)`; `fresh` is what `realloc` leaves in the new place -/
def insertAt (fresh : T) (data : List T) (idx : ℤ) (v : T) : List T :=
  let i := (-idx - 1).toNat
  (memmove (data ++ [fresh]) (i + 1) i (data.length - i)).set i v

def erase (data : List T) (idx : ℤ) : List T :=
  let size := data.length - 1
  (memmove data idx.toNat (idx.toNat + 1) (size - idx.toNat)).take size

section

variable [LinearOrder T]

/-- the order of the elements, as `operator<` -/
def lt (a b : T) : Bool := decide (a < b)

def existsLoop (v : T) (data : List T) : ℕ → ℤ → ℤ → Option ℤ := searchLoop lt (fun _ m => m - 1) v data

/-- `exists(const T& v)`; a round shortens the interval, so the size bounds their number -/
def exists_ (v : T) (data : List T) : Option ℤ := existsLoop v data (data.length + 1) 0 (data.length - 1)

/-- `insert(const T& v)` -/
def insert (fresh : T) (data : List T) (v : T) : Option (List T × Bool) :=
  match exists_ v data with
  | none => none
  | some idx => some (if 0 ≤ idx then (data.set idx.toNat v, false) else (insertAt fresh data idx v, true))

end

/-! ## The search -/

section

variable [LinearOrder T] {v : T} {data a b c : List T}

/-- what the search says: the index of the value, or the point where it belongs -/
def Placed (v : T) (data : List T) (r : ℤ) : Prop :=
  (∃ a c, data = a ++ v :: c ∧ r = a.length) ∨
  ∃ a c, data = a ++ c ∧ (∀ x ∈ a, x < v) ∧ (∀ x ∈ c, v < x) ∧ r = -a.length - 1

theorem existsLoop_spec (hsorted : data.Pairwise (· < ·)) (fuel : ℕ) (hdata : data = a ++ b ++ c) (ha : ∀ x ∈ a, x < v)
    (hc : ∀ x ∈ c, v < x) (hfuel : b.length < fuel) :
    ∃ r, existsLoop v data fuel a.length (a.length + b.length - 1) = some r ∧ Placed v data r := by
  induction fuel generalizing a b c with
  | zero => exact absurd hfuel (Nat.not_lt_zero _)
  | succ fuel ih =>
    rw [existsLoop, searchLoop]
    by_cases hb : b = []
    · subst hb
      rw [append_nil] at hdata
      exact ⟨_, if_neg (by simp), Or.inr ⟨a, c, hdata, ha, hc, rfl⟩⟩
    have hpos := length_pos_of_ne_nil hb
    -- the middle of what is left
    obtain ⟨b₁, x, b₂, rfl, hmid⟩ : ∃ b₁ x b₂, b = b₁ ++ x :: b₂ ∧ b₁.length = (b.length - 1) / 2 := by
      have hi : (b.length - 1) / 2 < b.length := by omega
      exact ⟨_, _, _, by rw [getElem_cons_drop hi, take_append_drop], length_take_of_le hi.le⟩
    have hm : ((a.length : ℤ) + (a.length + (b₁ ++ x :: b₂).length - 1)) / 2 = (a ++ b₁).length := by
      simp only [length_append, length_cons] at hmid ⊢
      omega
    have hdata' : data = (a ++ b₁) ++ x :: (b₂ ++ c) := by simp [hdata]
    have hx : data[(a ++ b₁).length]? = some x := by simp [hdata']
    obtain ⟨-, htail, hlow⟩ := pairwise_append.1 (hdata' ▸ hsorted)
    simp only [hm, Int.toNat_natCast, hx, lt, decide_eq_true_eq]
    rw [if_pos (by omega)]
    simp only [length_append, length_cons] at hfuel
    rcases lt_trichotomy v x with hlt | rfl | hlt
    · rw [if_pos hlt, length_append, Nat.cast_add]
      refine ih (c := x :: (b₂ ++ c)) (by simp [hdata]) ha ?_ (by omega)
      exact forall_mem_cons.2 ⟨hlt, fun y hy => hlt.trans ((pairwise_cons.1 htail).1 y hy)⟩
    · rw [if_neg (lt_irrefl _), if_neg (lt_irrefl _)]
      exact ⟨_, rfl, Or.inl ⟨_, _, hdata', rfl⟩⟩
    · rw [if_neg hlt.asymm, if_pos hlt]
      have hnext := ih (a := a ++ b₁ ++ [x]) (b := b₂) (by simp [hdata]) ?_ hc (by omega)
      · simpa [existsLoop, add_assoc, add_comm (1 : ℤ)] using hnext
      exact forall_mem_append.2 ⟨fun y hy => (hlow y hy x mem_cons_self).trans hlt, forall_mem_singleton.2 hlt⟩

/-- **The search.** -/
theorem exists_spec (hsorted : data.Pairwise (· < ·)) (v : T) : ∃ r, exists_ v data = some r ∧ Placed v data r := by
  have hloop :=
    existsLoop_spec (v := v) hsorted (data.length + 1) (a := []) (b := data) (c := []) (by simp) (by simp) (by simp)
    (Nat.lt_succ_self _)
  simpa [exists_] using hloop

end

/-! ## Insertion and removal -/

theorem insertAt_eq (fresh : T) (a c : List T) (v : T) : insertAt fresh (a ++ c) (-a.length - 1) v = a ++ v :: c := by
  cases c with
  | nil => simp [insertAt, memmove, take_of_length_le]
  | cons x c =>
    have hend : a.length + 1 + (c.length + 1) - a.length = c.length + 2 := by omega
    have hle : a.length ≤ a.length + 1 + (c.length + 1) := by omega
    simp [insertAt, memmove, take_append, drop_append, take_of_length_le, drop_eq_nil_of_le, hend, hle]

theorem erase_eq (a c : List T) (v : T) : erase (a ++ v :: c) a.length = a ++ c := by
  simp [erase, memmove, take_append, drop_append, take_of_length_le, drop_eq_nil_of_le]

inductive Op (T : Type) where
  /-- `insert(v)`, with what `realloc` leaves in the new place -/
  | insert (v fresh : T)
  /-- `erase` at the index of `v`, if `exists(v)` finds it -/
  | erase (v : T)

variable [LinearOrder T]

def step (data : List T) : Op T → Option (List T × Bool)
  | .insert v fresh => insert fresh data v
  | .erase v =>
    match exists_ v data with
    | none => none
    | some idx => some (if 0 ≤ idx then (erase data idx, true) else (data, false))

/-- the abstract set -/
def setStep (s : Finset T) : Op T → Finset T × Bool
  | .insert v _ => (Insert.insert v s, decide (v ∉ s))
  | .erase v => (s.erase v, decide (v ∈ s))

/-- the array is strictly increasing and holds the set -/
def Holds (data : List T) (s : Finset T) : Prop := data.Pairwise (· < ·) ∧ data.toFinset = s

theorem toFinset_middle (a c : List T) (v : T) : (a ++ v :: c).toFinset = Insert.insert v (a ++ c).toFinset := by
  rw [toFinset_eq_of_perm _ _ perm_middle, toFinset_cons]

theorem absent {a c : List T} {v : T} (ha : ∀ x ∈ a, x < v) (hc : ∀ x ∈ c, v < x) : v ∉ (a ++ c).toFinset := by
  rw [mem_toFinset, mem_append]
  rintro (h | h)
  · exact lt_irrefl _ (ha v h)
  · exact lt_irrefl _ (hc v h)

theorem step_simulates : Simulates Holds (step (T := T)) setStep fun _ _ => True := by
  rintro data s o ⟨hsorted, rfl⟩ -
  have hneg : ∀ a : List T, ¬ (0 : ℤ) ≤ -a.length - 1 := fun a => by omega
  cases o with
  | insert v fresh =>
    obtain ⟨r, hr, ⟨a, c, rfl, rfl⟩ | ⟨a, c, rfl, ha, hc, rfl⟩⟩ := exists_spec hsorted v
    · refine ⟨a ++ v :: c, by simp [step, insert, hr, setStep], hsorted, ?_⟩
      exact (Finset.insert_eq_of_mem (by simp)).symm
    obtain ⟨hsa, hsc, hac⟩ := pairwise_append.1 hsorted
    refine ⟨a ++ v :: c, ?_, pairwise_append.2 ⟨hsa, pairwise_cons.2 ⟨hc, hsc⟩, ?_⟩, toFinset_middle a c v⟩
    · simp only [step, insert, hr, if_neg (hneg a), insertAt_eq, setStep, absent ha hc, not_false_eq_true, decide_true]
    · exact fun x hx => forall_mem_cons.2 ⟨ha x hx, hac x hx⟩
  | erase v =>
    obtain ⟨r, hr, ⟨a, c, rfl, rfl⟩ | ⟨a, c, rfl, ha, hc, rfl⟩⟩ := exists_spec hsorted v
    · obtain ⟨-, hsc, hac⟩ := pairwise_append.1 hsorted
      have hv := absent (fun x hx => hac x hx v mem_cons_self) (pairwise_cons.1 hsc).1
      refine ⟨a ++ c, by simp [step, hr, erase_eq, setStep], hsorted.sublist (by simp), ?_⟩
      rw [setStep, toFinset_middle, Finset.erase_insert hv]
    · refine ⟨a ++ c, ?_, hsorted, (Finset.erase_eq_of_notMem (absent ha hc)).symm⟩
      simp only [step, hr, if_neg (hneg a), setStep, absent ha hc, decide_false]

/-- **The array as a set.** -/
theorem array_refines_set (data : List T) (hsorted : data.Pairwise (· < ·)) (ops : List (Op T)) :
    (∀ v, ∃ r, exists_ v data = some r ∧ Placed v data r) ∧
    ∃ data', exec step data ops = some (data', (play setStep data.toFinset ops).2) ∧ data'.Pairwise (· < ·) ∧
      data'.toFinset = (play setStep data.toFinset ops).1 :=
  ⟨exists_spec hsorted, step_simulates.exec_eq ⟨hsorted, rfl⟩ (Meets.always _ ops)⟩

theorem array_refines_set_pair :
    (∀ v, ∃ r, exists_ v [1, 3] = some r ∧ Placed v [1, 3] r) ∧
    ∃ data', exec step [1, 3] [.insert 2 0] = some (data', (play setStep [1, 3].toFinset [.insert 2 0]).2) ∧
      data'.Pairwise (· < ·) ∧ data'.toFinset = (play setStep [1, 3].toFinset [.insert 2 0]).1 :=
  array_refines_set [1, 3] (by decide) [.insert (2 : ℕ) 0]

/-! ## The search with a comparison -/

/-- where the search looks if every element so far was smaller -/
def probe (size first : ℕ) : ℕ → ℕ
  | 0 => (first + size - 1) / 2
  | k + 1 => probe size ((first + size - 1) / 2 + 1) k

theorem le_probe {size first : ℕ} (hpos : 0 < size) (hfirst : first ≤ size) (k : ℕ) :
    (first + size - 1) / 2 ≤ probe size first k := by
  induction k generalizing first with
  | zero => exact le_rfl
  | succ k ih => exact le_trans (by omega) (ih (by omega))

variable {v : T} {data : List T} {first fuel : ℕ}

theorem le_of_index_le (hsorted : data.Pairwise (· ≤ ·)) {i j : ℕ} {x y : T} (hij : i ≤ j) (hi : data[i]? = some x)
    (hj : data[j]? = some y) : x ≤ y := by
  obtain ⟨hi', rfl⟩ := List.getElem?_eq_some_iff.1 hi
  obtain ⟨hj', rfl⟩ := List.getElem?_eq_some_iff.1 hj
  rcases hij.eq_or_lt with rfl | hlt
  · exact le_rfl
  · exact pairwise_iff_getElem.1 hsorted i j hi' hj' hlt

theorem searchLoop_round (fuel : ℕ) (hlt : first < data.length) :
    ∃ x ∈ data, data[(first + data.length - 1) / 2]? = some x ∧ ∀ left,
      searchLoop lt left v data (fuel + 1) first (data.length - 1) =
        if v < x then searchLoop lt left v data fuel first (left (data.length - 1) ((first + data.length - 1) / 2 : ℕ))
        else if x < v then searchLoop lt left v data fuel ((first + data.length - 1) / 2 + 1 : ℕ) (data.length - 1)
        else some ((first + data.length - 1) / 2 : ℕ) := by
  have hm : (first + data.length - 1) / 2 < data.length := by omega
  have hmid : ((first : ℤ) + (data.length - 1)) / 2 = ((first + data.length - 1) / 2 : ℕ) := by omega
  have hx := getElem?_eq_getElem hm
  refine ⟨_, getElem_mem hm, hx, fun left => ?_⟩
  rw [searchLoop, if_pos (by omega)]
  simp only [hmid, Int.toNat_natCast, hx, lt, decide_eq_true_eq, Nat.cast_succ]

/-- the search goes right to the end, or to the value -/
def Straight (v : T) (data : List T) (first : ℕ) : Prop :=
  (∀ x ∈ data, x < v) ∨ ∃ k, data[probe data.length first k]? = some v

section

variable (hsorted : data.Pairwise (· ≤ ·))
include hsorted

theorem Straight.ends (h : Straight v data first) (hfirst : first ≤ data.length) (hfuel : data.length - first < fuel) :
    ∃ r, ∀ left, searchLoop lt left v data fuel first (data.length - 1) = some r := by
  induction fuel generalizing first with
  | zero => omega
  | succ fuel ih =>
    by_cases hlt : first < data.length
    · obtain ⟨x, hmem, hx, hround⟩ := searchLoop_round (v := v) fuel hlt
      have hle : x ≤ v := by
        rcases h with h | ⟨k, hk⟩
        · exact (h x hmem).le
        · exact le_of_index_le hsorted (le_probe (by omega) hfirst k) hx hk
      simp only [hround, if_neg hle.not_gt]
      by_cases hxv : x < v
      · simp only [if_pos hxv]
        refine ih (h.imp_right ?_) (by omega) (by omega)
        rintro ⟨k | k, hk⟩
        · cases hx.symm.trans hk
          exact absurd hxv (lt_irrefl _)
        · exact ⟨k, hk⟩
      · exact ⟨_, fun left => if_neg hxv⟩
    · exact ⟨_, fun left => if_neg (by omega)⟩

theorem straight_of_ends {r : ℤ} (hlow : ∀ i x, i < first → data[i]? = some x → x < v)
    (h : searchLoop lt (fun last _ => last) v data fuel first (data.length - 1) = some r) : Straight v data first := by
  induction fuel generalizing first with
  | zero => cases h
  | succ fuel ih =>
    by_cases hlt : first < data.length
    · obtain ⟨x, -, hx, hround⟩ := searchLoop_round (v := v) fuel hlt
      rw [hround] at h
      split_ifs at h with hvx hxv
      · exact ih hlow h
      · refine (ih (fun i y hi hy => ?_) h).imp_right fun ⟨k, hk⟩ => ⟨k + 1, hk⟩
        exact (le_of_index_le hsorted (Nat.lt_succ_iff.1 hi) hy hx).trans_lt hxv
      · obtain rfl : x = v := le_antisymm (not_lt.1 hvx) (not_lt.1 hxv)
        exact Or.inr ⟨0, hx⟩
    · refine Or.inl fun x hx => ?_
      obtain ⟨i, hi, rfl⟩ := getElem_of_mem hx
      exact hlow i _ (by omega) (getElem?_eq_getElem hi)

end

/-- **The search with a comparison.** -/
theorem existsCmp_right_iff (cmp : T → T → Bool) (hcmp : ∀ a b, cmp a b = true ↔ a < b) (data : List T)
    (hsorted : data.Pairwise (· ≤ ·)) (v : T) :
    (∃ fuel r, existsCmpLoop cmp v data fuel 0 (data.length - 1) = some r ∧ exists_ v data = some r) ↔
      (∀ x ∈ data, x < v) ∨ ∃ k, data[probe data.length 0 k]? = some v := by
  obtain rfl : cmp = lt := by
    funext a b
    rw [Bool.eq_iff_iff, hcmp, lt, decide_eq_true_eq]
  constructor
  · rintro ⟨fuel, r, hends, -⟩
    exact straight_of_ends hsorted (fun i x hi => absurd hi (Nat.not_lt_zero i)) hends
  · intro h
    obtain ⟨r, hr⟩ := Straight.ends hsorted h (Nat.zero_le _) (Nat.lt_succ_self _)
    exact ⟨data.length + 1, r, hr _, hr _⟩

theorem existsCmp_right_iff_pair :
    ∃ fuel r, existsCmpLoop (fun a b => decide (a < b)) 3 [1, 3] fuel 0 (([1, 3] : List ℕ).length - 1) = some r ∧
      exists_ 3 [1, 3] = some r :=
  (existsCmp_right_iff (fun a b => decide (a < b)) (fun _ _ => decide_eq_true_iff) [1, 3] (by decide) 3).2
  (.inr ⟨1, by decide⟩)

theorem existsCmp_never_ends : exists_ 0 [1] = some (-1) ∧ ∀ fuel, existsCmpLoop (fun a b : ℕ => decide (a < b)) 0
    [1] fuel 0 0 = none := by
  refine ⟨rfl, fun fuel => ?_⟩
  induction fuel with
  | zero => rfl
  | succ fuel ih => exact ih

end CoServer.DataStruct.Array
