/-
An ordered set with a comparator (`std::set`), as the list of its elements in order.

Two elements neither of which is less than the other are equivalent, and a set holds at most one of them. The results
are for comparators that come from a key in a linear order (`Keyed`). A comparator that reads mutable objects changes
with them; a change that leaves the keys of the members alone leaves the set sorted (`Sorted.congr`).
-/
import Mathlib.Data.List.TakeWhile
import Mathlib.Tactic

namespace CoServer.Core.OrderedSet

open List

variable {α κ : Type}

/-- insertion; an equivalent element that is already there stays and the new one is dropped -/
def insert (lt : α → α → Bool) (x : α) : List α → List α
  | [] => [x]
  | y :: l => if lt x y then x :: y :: l else if lt y x then y :: insert lt x l else y :: l

variable (lt : α → α → Bool)

/-- the element equivalent to `x` -/
def find (x : α) (l : List α) : Option α := l.find? fun y => !lt x y && !lt y x

/-- the comparator compares keys -/
def Keyed [LinearOrder κ] (key : α → κ) : Prop := ∀ a b, lt a b = true ↔ key a < key b

def Sorted [LinearOrder κ] (key : α → κ) (l : List α) : Prop := l.Pairwise fun a b => key a < key b

theorem insert_perm (x : α) (l : List α) : (insert lt x l).Perm (x :: l) ∨ insert lt x l = l := by
  induction l with
  | nil => exact .inl (Perm.refl _)
  | cons y l ih =>
    unfold insert
    split_ifs with h1 h2
    · exact .inl (Perm.refl _)
    · rcases ih with ih | ih
      · exact .inl ((ih.cons y).trans (Perm.swap x y l))
      · exact .inr (by rw [ih])
    · exact .inr rfl

section

variable [LinearOrder κ] {lt : α → α → Bool} {key : α → κ} {x y : α} {l : List α}

section

variable (hlt : Keyed lt key)
include hlt

theorem Keyed.eq_false_iff : lt x y = false ↔ key y ≤ key x := by rw [← Bool.not_eq_true, hlt, not_lt]

theorem Keyed.equiv_iff : (!lt x y && !lt y x) = true ↔ key y = key x := by
  rw [Bool.and_eq_true, Bool.not_eq_true', Bool.not_eq_true', hlt.eq_false_iff, hlt.eq_false_iff]
  exact le_antisymm_iff.symm

theorem mem_insert (hx : ∀ z ∈ l, key z ≠ key x) : y ∈ insert lt x l ↔ y = x ∨ y ∈ l := by
  induction l with
  | nil => simp [insert]
  | cons z l ih =>
    have hz : key z ≠ key x := hx z mem_cons_self
    have ih := ih fun w hw => hx w (mem_cons_of_mem _ hw)
    unfold insert
    split_ifs with h1 h2
    · simp
    · simp only [mem_cons, ih]
      exact or_left_comm
    · rw [hlt] at h1 h2
      exact absurd (le_antisymm (not_lt.1 h1) (not_lt.1 h2)) hz

theorem Sorted.insert (hx : ∀ z ∈ l, key z ≠ key x) (h : Sorted key l) : Sorted key (insert lt x l) := by
  induction l with
  | nil => exact pairwise_singleton _ _
  | cons z l ih =>
    have hxl : ∀ w ∈ l, key w ≠ key x := fun w hw => hx w (mem_cons_of_mem _ hw)
    obtain ⟨hz, hl⟩ := pairwise_cons.1 h
    unfold OrderedSet.insert
    split_ifs with h1 h2
    · rw [hlt] at h1
      refine pairwise_cons.2 ⟨fun w hw => ?_, h⟩
      rcases mem_cons.1 hw with rfl | hw
      · exact h1
      · exact h1.trans (hz w hw)
    · rw [hlt] at h2
      refine pairwise_cons.2 ⟨fun w hw => ?_, ih hxl hl⟩
      rcases (mem_insert hlt hxl).1 hw with rfl | hw
      · exact h2
      · exact hz w hw
    · exact h

theorem insert_of_mem (h : Sorted key l) (hx : x ∈ l) : insert lt x l = l := by
  induction l with
  | nil => cases hx
  | cons z l ih =>
    obtain ⟨hz, hl⟩ := pairwise_cons.1 h
    unfold insert
    rcases mem_cons.1 hx with rfl | hx
    · have hfalse : ¬ lt x x = true := by
        rw [hlt]
        exact lt_irrefl _
      rw [if_neg hfalse, if_neg hfalse]
    · have hzx : key z < key x := hz x hx
      rw [if_neg (by rw [hlt]; exact not_lt.2 hzx.le), if_pos ((hlt z x).2 hzx), ih hl hx]

theorem insert_head (hx : ∀ z ∈ l, key z ≠ key x) (h : Sorted key l) : (insert lt x l).head? = some x ↔
    ∀ z ∈ l, key x < key z := by
  cases l with
  | nil => simp [insert]
  | cons z l =>
    have hz : key z ≠ key x := hx z mem_cons_self
    have hzl := (pairwise_cons.1 h).1
    unfold insert
    split_ifs with h1 h2
    · rw [hlt] at h1
      refine ⟨fun _ w hw => ?_, fun _ => rfl⟩
      rcases mem_cons.1 hw with rfl | hw
      · exact h1
      · exact h1.trans (hzl w hw)
    · rw [hlt] at h2
      refine ⟨fun hh => ?_, fun hh => absurd (hh z mem_cons_self) (not_lt.2 h2.le)⟩
      obtain rfl : z = x := by simpa using hh
      exact absurd rfl hz
    · rw [hlt] at h1 h2
      exact absurd (le_antisymm (not_lt.1 h1) (not_lt.1 h2)) hz

end

theorem Sorted.inj (h : Sorted key l) (hx : x ∈ l) (hy : y ∈ l) (hk : key x = key y) : x = y := by
  have hn : (l.map key).Nodup := Pairwise.map _ (fun _ _ hab => ne_of_lt hab) h
  exact inj_on_of_nodup_map hn hx hy hk

theorem Sorted.nodup (h : Sorted key l) : l.Nodup := h.imp fun hab heq => by subst heq; exact lt_irrefl _ hab

theorem find_mem (hlt : Keyed lt key) (h : Sorted key l) (hx : x ∈ l) : find lt x l = some x := by
  unfold find
  cases hf : l.find? fun z => !lt x z && !lt z x with
  | none =>
    have := find?_eq_none.1 hf x hx
    exact absurd (hlt.equiv_iff.2 rfl) this
  | some z =>
    have hz := find?_some hf
    rw [h.inj (mem_of_find?_eq_some hf) hx (hlt.equiv_iff.1 hz)]

theorem Sorted.filter (h : Sorted key l) (p : α → Bool) : Sorted key (l.filter p) := Pairwise.filter p h

theorem Sorted.erase [DecidableEq α] (h : Sorted key l) (x : α) : Sorted key (l.erase x) :=
  Pairwise.sublist erase_sublist h

theorem Sorted.congr {key' : α → κ} (hk : ∀ z ∈ l, key' z = key z) (h : Sorted key l) : Sorted key' l :=
  Pairwise.imp_of_mem (fun ha hb hab => by rw [hk _ ha, hk _ hb]; exact hab) h

theorem cut_twice {p q r : α → Bool} (hpq : ∀ a, p a = true → q a = true) (hqr : ∀ a ∈ l.dropWhile p, r a = q a) :
    l.takeWhile p ++ (l.dropWhile p).takeWhile r = l.takeWhile q ∧ (l.dropWhile p).dropWhile r = l.dropWhile q := by
  have hcongr : ∀ m : List α, (∀ a ∈ m, r a = q a) → m.takeWhile r = m.takeWhile q ∧ m.dropWhile r = m.dropWhile q := by
    intro m hm
    induction m with
    | nil => exact ⟨rfl, rfl⟩
    | cons a m ih =>
      have ha := hm a mem_cons_self
      obtain ⟨h1, h2⟩ := ih fun b hb => hm b (mem_cons_of_mem _ hb)
      simp [takeWhile_cons, dropWhile_cons, ha, h1, h2]
  have hall : ∀ a ∈ l.takeWhile p, q a = true := fun a ha => hpq a (mem_takeWhile_imp ha)
  obtain ⟨h1, h2⟩ := hcongr _ hqr
  rw [h1, h2]
  constructor
  · rw [← takeWhile_append_of_pos hall, takeWhile_append_dropWhile]
  · rw [← dropWhile_append_of_pos hall, takeWhile_append_dropWhile]

section

variable {p : α → Bool} (hp : ∀ a b, key a < key b → p b = true → p a = true)
include hp

theorem Sorted.eq_false_of_head (h : Sorted key (x :: l)) (hx : p x = false) (hy : y ∈ l) : p y = false := by
  cases hpy : p y with
  | false => rfl
  | true =>
    rw [hp x y ((pairwise_cons.1 h).1 y hy) hpy] at hx
    cases hx

theorem takeWhile_filter (h : Sorted key l) : l.takeWhile p = l.filter p := by
  induction l with
  | nil => rfl
  | cons z l ih =>
    cases hpz : p z with
    | true => simp [hpz, ih (pairwise_cons.1 h).2]
    | false =>
      have hnone : l.filter p = [] := filter_eq_nil_iff.2 fun w hw => by simp [h.eq_false_of_head hp hpz hw]
      simp [hpz, hnone]

theorem dropWhile_filter (h : Sorted key l) : l.dropWhile p = l.filter fun a => !p a := by
  induction l with
  | nil => rfl
  | cons z l ih =>
    cases hpz : p z with
    | true => simp [hpz, ih (pairwise_cons.1 h).2]
    | false =>
      have hall : l.filter (fun a => !p a) = l := filter_eq_self.2 fun w hw => by simp [h.eq_false_of_head hp hpz hw]
      simp [hpz, hall]

end

end

end CoServer.Core.OrderedSet
