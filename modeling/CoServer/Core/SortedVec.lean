/-
Sorted vectors: search by halving (`std::lower_bound`), insertion of a last element by one pass of swaps, sorting
(`std::sort`). The order is a comparator `less` that compares keys in a linear order (`OrderedSet.Keyed`).
-/
import CoServer.Core.OrderedSet
import Mathlib.Data.List.Sort

namespace CoServer.Core.SortedVec

open List OrderedSet

variable {α κ : Type}

/-! ## Search by halving -/

/-- the loop of `std::lower_bound`; the length bounds its rounds -/
def lowerBoundLoop (p : α → Bool) (l : List α) : ℕ → ℕ → ℕ → ℕ
  | 0, first, _ => first
  | fuel + 1, first, len =>
    if len = 0 then first
    else
      match l[first + len / 2]? with
      | none => first
      | some x =>
        if p x then lowerBoundLoop p l fuel (first + len / 2 + 1) (len - len / 2 - 1)
        else lowerBoundLoop p l fuel first (len / 2)

/-- the place where `p` stops to hold -/
def lowerBound (p : α → Bool) (l : List α) : ℕ := lowerBoundLoop p l l.length 0 l.length

theorem lowerBoundLoop_append {p : α → Bool} {a b : List α} (ha : ∀ x ∈ a, p x = true) (hb : ∀ x ∈ b, p x = false)
    (fuel first len : ℕ) (hfuel : len ≤ fuel) (hfirst : first ≤ a.length) (hlast : a.length ≤ first + len)
    (hlen : first + len ≤ a.length + b.length) : lowerBoundLoop p (a ++ b) fuel first len = a.length := by
  induction fuel generalizing first len with
  | zero =>
    rw [lowerBoundLoop]
    omega
  | succ fuel ih =>
    rw [lowerBoundLoop]
    by_cases hzero : len = 0
    · rw [if_pos hzero]
      omega
    rw [if_neg hzero]
    have hmid : first + len / 2 < (a ++ b).length := by
      rw [length_append]
      omega
    rw [getElem?_eq_getElem hmid]
    by_cases hside : first + len / 2 < a.length
    · have hp : p (a ++ b)[first + len / 2] = true := by
        rw [getElem_append_left hside]
        exact ha _ (getElem_mem hside)
      simp only [hp, if_true]
      exact ih _ _ (by omega) (by omega) (by omega) (by omega)
    · have hp : p (a ++ b)[first + len / 2] = false := by
        rw [getElem_append_right (Nat.not_lt.1 hside)]
        exact hb _ (getElem_mem _)
      simp only [hp, Bool.false_eq_true, if_false]
      exact ih _ _ (by omega) hfirst (by omega) (by omega)

theorem lowerBound_append {p : α → Bool} {a b : List α} (ha : ∀ x ∈ a, p x = true) (hb : ∀ x ∈ b, p x = false) :
    lowerBound p (a ++ b) = a.length :=
  lowerBoundLoop_append ha hb _ _ _ le_rfl (Nat.zero_le _) (by simp) (by simp)

theorem lowerBound_lt {p : α → Bool} {l : List α} {x : α} (hx : l.getLast? = some x) (hp : p x = false) :
    lowerBound p l < l.length := by
  have hloop (fuel first len : ℕ) (hfirst : first < l.length) : lowerBoundLoop p l fuel first len < l.length := by
    induction fuel generalizing first len with
    | zero => exact hfirst
    | succ fuel ih =>
      rw [lowerBoundLoop]
      split_ifs
      · exact hfirst
      split
      · exact hfirst
      next y hy =>
      obtain ⟨hlt, -⟩ := List.getElem?_eq_some_iff.1 hy
      split_ifs with hpy
      · -- the middle is not the last element
        refine ih _ _ (Nat.lt_of_le_of_ne hlt fun he => ?_)
        rw [getLast?_eq_getElem?, ← he, Nat.add_sub_cancel, hy] at hx
        rw [← Option.some.inj hx, hpy] at hp
        cases hp
      · exact ih _ _ hfirst
  exact hloop _ _ _ (length_pos_of_mem (mem_of_getLast? hx))

/-- the position of an element equivalent to `v`, if there is one -/
def binarySearch (less : α → α → Bool) (v : α) (l : List α) : Option ℕ :=
  match l[lowerBound (fun x => less x v) l]? with
  | none => none
  | some x => if less v x then none else some (lowerBound (fun x => less x v) l)

section

variable [LinearOrder κ] {less : α → α → Bool} {key : α → κ} {v x : α} {l : List α}

/-- in order of the keys, equal keys allowed -/
def Ordered (key : α → κ) (l : List α) : Prop := l.Pairwise fun a b => key a ≤ key b

theorem Ordered.of_sorted (h : Sorted key l) : Ordered key l := h.imp le_of_lt

theorem Ordered.split (h : Ordered key l) (k : κ) : ∃ a b, l = a ++ b ∧ (∀ x ∈ a, key x < k) ∧ ∀ x ∈ b, k ≤ key x := by
  induction l with
  | nil => exact ⟨[], [], rfl, by simp, by simp⟩
  | cons y l ih =>
    obtain ⟨hy, hl⟩ := pairwise_cons.1 h
    rcases lt_or_ge (key y) k with hlt | hge
    · obtain ⟨a, b, rfl, ha, hb⟩ := ih hl
      refine ⟨y :: a, b, rfl, fun x hx => ?_, hb⟩
      rcases mem_cons.1 hx with rfl | hx
      · exact hlt
      · exact ha x hx
    · refine ⟨[], y :: l, rfl, by simp, fun x hx => ?_⟩
      rcases mem_cons.1 hx with rfl | hx
      · exact hge
      · exact hge.trans (hy x hx)

theorem binarySearch_spec (hless : Keyed less key) (h : Ordered key l) (v : α) :
    (∃ a x b, l = a ++ x :: b ∧ key x = key v ∧ (∀ y ∈ a, key y < key v) ∧ binarySearch less v l = some a.length) ∨
    (∀ x ∈ l, key x ≠ key v) ∧ binarySearch less v l = none := by
  obtain ⟨a, b, rfl, ha, hb⟩ := h.split (key v)
  have hlb : lowerBound (fun x => less x v) (a ++ b) = a.length := by
    exact lowerBound_append (fun x hx => (hless x v).2 (ha x hx)) fun x hx => hless.eq_false_iff.2 (hb x hx)
  unfold binarySearch
  rw [hlb, getElem?_append_right le_rfl]
  cases b with
  | nil =>
    refine Or.inr ⟨fun x hx => ?_, rfl⟩
    rw [append_nil] at hx
    exact (ha x hx).ne
  | cons x b =>
    have hx : key v ≤ key x := hb x mem_cons_self
    rcases eq_or_lt_of_le hx with heq | hlt
    · refine Or.inl ⟨a, x, b, rfl, heq.symm, ha, ?_⟩
      have hfalse : less v x = false := hless.eq_false_iff.2 heq.ge
      simp [hfalse]
    · refine Or.inr ⟨fun y hy => ?_, by simp [(hless v x).2 hlt]⟩
      rcases mem_append.1 hy with hy | hy
      · exact (ha y hy).ne
      have hxy : key x ≤ key y := by
        rcases mem_cons.1 hy with rfl | hy
        · exact le_rfl
        · have := (pairwise_append.1 h).2.1
          exact (pairwise_cons.1 this).1 y hy
      exact (hlt.trans_le hxy).ne'

end

/-! ## One pass of swaps -/

/-- the loop of `sortLast` with `i + 1` elements below the one that moves -/
def sortLastLoop (less : α → α → Bool) : ℕ → List α → List α
  | 0, l => l
  | i + 1, l =>
    match l[i]?, l[i + 1]? with
    | some x, some y => if less y x then sortLastLoop less i ((l.set i y).set (i + 1) x) else l
    | _, _ => l

/-- `sortLast(data, size)` -/
def sortLast (less : α → α → Bool) (l : List α) (size : ℤ) : List α :=
  if size ≤ 1 then l else sortLastLoop less (size - 1).toNat l

theorem sortLastLoop_append (less : α → α → Bool) (a : List α) (y : α) (b : List α) :
    ∃ a' a'', a = a' ++ a'' ∧ sortLastLoop less a.length (a ++ y :: b) = a' ++ y :: (a'' ++ b) ∧
      (∀ x ∈ a'', less y x = true) ∧ ∀ x ∈ a'.getLast?, less y x = false := by
  induction a using reverseRecOn generalizing b with
  | nil => exact ⟨[], [], rfl, rfl, by simp, by simp⟩
  | append_singleton a x ih =>
    have hstep : sortLastLoop less (a ++ [x]).length ((a ++ [x]) ++ y :: b) =
        if less y x then sortLastLoop less a.length (a ++ y :: (x :: b)) else (a ++ [x]) ++ y :: b := by
      rw [length_append, length_singleton, sortLastLoop]
      simp
    rw [hstep]
    cases hless : less y x with
    | false => exact ⟨a ++ [x], [], by simp, by simp, by simp, by simp [hless]⟩
    | true =>
      obtain ⟨a', a'', rfl, hrun, hall, hlast⟩ := ih (x :: b)
      refine ⟨a', a'' ++ [x], by simp, ?_, ?_, hlast⟩
      · simp only [if_true, hrun]
        simp
      exact forall_mem_append.2 ⟨hall, forall_mem_singleton.2 hless⟩

section

variable [LinearOrder κ] {less : α → α → Bool} {key : α → κ} {x : α} {l : List α}

theorem sortLast_spec (hless : Keyed less key) (h : Sorted key l) (hx : ∀ y ∈ l, key y ≠ key x) :
    (sortLast less (l ++ [x]) ((l.length : ℤ) + 1)).Perm (x :: l) ∧
      Sorted key (sortLast less (l ++ [x]) ((l.length : ℤ) + 1)) := by
  have hrun : sortLast less (l ++ [x]) ((l.length : ℤ) + 1) = sortLastLoop less l.length (l ++ x :: []) := by
    unfold sortLast
    split_ifs with hone
    · have hnil : l.length = 0 := by omega
      rw [hnil]
      rfl
    · congr 1
      omega
  obtain ⟨a, b, rfl, heq, hb, hlast⟩ := sortLastLoop_append less l x []
  rw [append_nil] at heq
  rw [hrun, heq]
  refine ⟨perm_middle, ?_⟩
  obtain ⟨ha, hsb, hab⟩ := pairwise_append.1 h
  -- everything below the place is less than the element: the last one there is
  have hax : ∀ y ∈ a, key y < key x := by
    intro y hy
    obtain ⟨z, hz⟩ : ∃ z, a.getLast? = some z := by
      cases hlast' : a.getLast? with
      | some z => exact ⟨z, rfl⟩
      | none =>
        rw [getLast?_eq_none_iff] at hlast'
        rw [hlast'] at hy
        cases hy
    have hzx : key z < key x :=
      lt_of_le_of_ne (hless.eq_false_iff.1 (hlast z hz)) (hx z (mem_append_left _ (mem_of_getLast? hz)))
    have hyz : key y ≤ key z := by
      rw [← dropLast_append_getLast? z hz] at hy ha
      rcases mem_append.1 hy with hy | hy
      · exact ((pairwise_append.1 ha).2.2 y hy z (by simp)).le
      · rw [mem_singleton.1 hy]
    exact hyz.trans_lt hzx
  refine pairwise_append.2 ⟨ha, pairwise_cons.2 ⟨fun y hy => (hless x y).1 (hb y hy), hsb⟩, fun y hy z hz => ?_⟩
  rcases mem_cons.1 hz with rfl | hz
  · exact hax y hy
  · exact hab y hy z hz

/-! ## Sorting -/

/-- `std::sort` -/
def sort (less : α → α → Bool) (l : List α) : List α := l.insertionSort fun a b => less b a = false

theorem sort_perm (less : α → α → Bool) (l : List α) : (sort less l).Perm l := perm_insertionSort _ l

theorem sort_ordered (hless : Keyed less key) (l : List α) : Ordered key (sort less l) := by
  have hle : ∀ a b, less b a = false ↔ key a ≤ key b := fun a b => hless.eq_false_iff
  have htotal : Std.Total fun a b => less b a = false := ⟨fun a b => by rw [hle, hle]; exact le_total _ _⟩
  have htrans : IsTrans α fun a b => less b a = false := ⟨fun a b c => by rw [hle, hle, hle]; exact le_trans⟩
  exact (pairwise_insertionSort _ l).imp fun hab => (hle _ _).1 hab

theorem sort_sorted (hless : Keyed less key) (h : (l.map key).Nodup) : Sorted key (sort less l) := by
  have hnodup : ((sort less l).map key).Nodup := ((sort_perm less l).map key).nodup_iff.2 h
  have hne : (sort less l).Pairwise fun a b => key a ≠ key b := pairwise_map.1 hnodup
  exact (Pairwise.and (sort_ordered hless l) hne).imp fun hab => lt_of_le_of_ne hab.1 hab.2

end

end CoServer.Core.SortedVec
