/-
Functions and lists changed at one point: what a value, a projection of it and a sum become; and loops of such changes.
-/
import Mathlib.Algebra.BigOperators.Group.Finset.Basic
import Mathlib.Tactic

namespace CoServer.Core

open Function List

variable {α β γ : Type}

theorem update_cases [DecidableEq α] {f : α → β} {i z : α} {b c : β} (h : update f i b z = c) :
    z = i ∧ b = c ∨ z ≠ i ∧ f z = c := by
  by_cases hz : z = i
  · subst hz
    exact Or.inl ⟨rfl, by simpa using h⟩
  · exact Or.inr ⟨hz, by simpa [hz] using h⟩

theorem proj_update [DecidableEq α] (p : β → γ) {f : α → β} {i : α} {b : β} (h : p b = p (f i)) (z : α) :
    p (update f i b z) = p (f z) := by
  by_cases hz : z = i
  · subst hz
    rw [update_self, h]
  · rw [update_of_ne hz]

theorem sum_range_update (g : ℕ → β → ℕ) (f : ℕ → β) {n p : ℕ} (hp : p < n) (b : β) :
    (∑ q ∈ Finset.range n, g q (update f p b q)) + g p (f p) = (∑ q ∈ Finset.range n, g q (f q)) + g p b := by
  have hmem : p ∈ Finset.range n := Finset.mem_range.2 hp
  have hrest : ∑ q ∈ (Finset.range n).erase p, g q (update f p b q) =
      ∑ q ∈ (Finset.range n).erase p, g q (f q) :=
    Finset.sum_congr rfl fun q hq => by rw [update_of_ne (Finset.ne_of_mem_erase hq)]
  calc (∑ q ∈ Finset.range n, g q (update f p b q)) + g p (f p)
      = g p b + (∑ q ∈ (Finset.range n).erase p, g q (f q)) + g p (f p) := by
        rw [← Finset.add_sum_erase _ _ hmem, update_self, hrest]
    _ = g p (f p) + (∑ q ∈ (Finset.range n).erase p, g q (f q)) + g p b := by omega
    _ = (∑ q ∈ Finset.range n, g q (f q)) + g p b := by rw [Finset.add_sum_erase _ (fun q => g q (f q)) hmem]

theorem sum_map_set {M : Type} [AddCommMonoid M] (g : β → M) {l : List β} {i : ℕ} {b : β} (h : l[i]? = some b) (c : β) :
    ((l.set i c).map g).sum + g b = (l.map g).sum + g c := by
  induction l generalizing i with
  | nil => cases h
  | cons x l ih =>
    cases i with
    | zero =>
      obtain rfl : x = b := Option.some.inj h
      rw [set_cons_zero, map_cons, map_cons, sum_cons, sum_cons]
      exact add_right_comm (g c) _ (g x) |>.trans (by rw [add_comm (g c) (g x), add_right_comm])
    | succ i =>
      have hrest := ih (i := i) h
      rw [set_cons_succ, map_cons, map_cons, sum_cons, sum_cons, add_assoc, hrest, add_assoc]

theorem add_le_sum_map (g : β → ℕ) {l : List β} {i j : ℕ} (hij : i ≠ j) {b c : β} (hi : l[i]? = some b)
    (hj : l[j]? = some c) : g b + g c ≤ (l.map g).sum := by
  induction l generalizing i j with
  | nil => cases hi
  | cons x l ih =>
    have hle : ∀ {k : ℕ} {y : β}, l[k]? = some y → g y ≤ (l.map g).sum := fun hk =>
      le_sum_of_mem (mem_map_of_mem (mem_of_getElem? hk))
    cases i with
    | zero =>
      obtain rfl : x = b := Option.some.inj hi
      cases j with
      | zero => exact absurd rfl hij
      | succ j => exact Nat.add_le_add_left (hle (k := j) hj) _
    | succ i =>
      cases j with
      | zero =>
        obtain rfl : x = c := Option.some.inj hj
        rw [Nat.add_comm]
        exact Nat.add_le_add_left (hle (k := i) hi) _
      | succ j => exact (ih (fun heq => hij (congrArg Nat.succ heq)) hi hj).trans (Nat.le_add_left _ _)

theorem foldl_write {σ ι : Type} (step : σ → ι → σ) (observe : σ → β) (p : ι → Prop) [DecidablePred p] (v : β)
    (h : ∀ s i, observe (step s i) = if p i then v else observe s) (l : List ι) (s : σ) :
    observe (l.foldl step s) = if ∃ i ∈ l, p i then v else observe s := by
  induction l generalizing s with
  | nil => simp
  | cons i l ih =>
    rw [foldl_cons, ih, h]
    by_cases hl : ∃ j ∈ l, p j
    · rw [if_pos hl, if_pos (hl.imp fun j hj => ⟨mem_cons_of_mem i hj.1, hj.2⟩)]
    rw [if_neg hl]
    refine if_congr ?_ rfl rfl
    rw [exists_mem_cons_iff]
    exact (or_iff_left hl).symm

end CoServer.Core
