/-
Overwriting a stretch of a list, and lists cut into chunks: what an overwrite or a stretch of the whole is in terms of
the parts.
-/
import Mathlib.Tactic

namespace CoServer.Core

open List

variable {α : Type}

/-- the list with `bs` written over the elements from `i` on -/
def splice (l : List α) (i : ℕ) (bs : List α) : List α := l.take i ++ bs ++ l.drop (i + bs.length)

@[simp] theorem splice_nil (l : List α) (i : ℕ) : splice l i [] = l := by simp [splice]

variable {i : ℕ} {a b bs : List α}

theorem length_splice {l : List α} (h : i + bs.length ≤ l.length) : (splice l i bs).length = l.length := by
  simp only [splice, length_append, length_take, length_drop]
  omega

theorem splice_append_left (h : i + bs.length ≤ a.length) : splice (a ++ b) i bs = splice a i bs ++ b := by
  simp [splice, take_append_of_le_length (show i ≤ a.length by omega), drop_append_of_le_length h]

theorem splice_append_right (h : a.length ≤ i) : splice (a ++ b) i bs = a ++ splice b (i - a.length) bs := by
  have hdrop : (a ++ b).drop (i + bs.length) = b.drop (i - a.length + bs.length) := by
    rw [drop_append, drop_eq_nil_of_le (by omega), nil_append]
    congr 1
    omega
  simp [splice, take_append, take_of_length_le h, hdrop]

theorem splice_append_across (hi : i ≤ a.length) (h : a.length ≤ i + bs.length) :
    splice (a ++ b) i bs = splice a i (bs.take (a.length - i)) ++ splice b 0 (bs.drop (a.length - i)) := by
  have hdrop : (a ++ b).drop (i + bs.length) = b.drop (i + bs.length - a.length) := by
    rw [drop_append, drop_eq_nil_of_le h, nil_append]
  have hlen : (bs.take (a.length - i)).length = a.length - i := by rw [length_take]; omega
  have hend : a.drop (i + (a.length - i)) = [] := drop_eq_nil_of_le (by omega)
  have hrest : 0 + (bs.drop (a.length - i)).length = i + bs.length - a.length := by rw [length_drop]; omega
  simp only [splice, take_append_of_le_length hi, hdrop, hlen, hend, hrest, take_zero, nil_append, append_nil,
    append_assoc]
  rw [← append_assoc (bs.take _), take_append_drop]

theorem take_add_splice {l : List α} (h : i ≤ l.length) : (splice l i bs).take (i + bs.length) = l.take i ++ bs := by
  unfold splice
  rw [take_append_of_le_length (by simp; omega), take_of_length_le (by simp)]

theorem splice_splice {l : List α} (h : i + a.length ≤ l.length) : splice (splice l i a) (i + a.length) b = splice l i
    (a ++ b) := by
  have htake : (splice l i a).take (i + a.length) = l.take i ++ a := take_add_splice (by omega)
  have hdrop : (splice l i a).drop (i + a.length + b.length) = l.drop (i + (a ++ b).length) := by
    unfold splice
    rw [drop_append, drop_eq_nil_of_le (by simp; omega), nil_append, drop_drop]
    congr 1
    simp only [length_append, length_take]
    omega
  rw [splice, htake, hdrop, splice, append_assoc (l.take i)]

theorem drop_take_across {n : ℕ} (hi : i ≤ a.length) (h : a.length ≤ i + n) :
    ((a ++ b).drop i).take n = a.drop i ++ b.take (n - (a.length - i)) := by
  rw [drop_append_of_le_length hi, take_append, take_of_length_le (by simp; omega), length_drop]

theorem drop_take_within {n : ℕ} (h : i + n ≤ a.length) : ((a ++ b).drop i).take n = (a.drop i).take n := by
  rw [drop_append_of_le_length (by omega), take_append_of_le_length (by simp; omega)]

theorem modify_append_cons (a : List α) (x : α) (b : List α) (f : α → α) :
    (a ++ x :: b).modify a.length f = a ++ f x :: b := by
  induction a with
  | nil => rfl
  | cons y a ih => rw [cons_append, length_cons, modify_succ_cons, ih, cons_append]

end CoServer.Core
