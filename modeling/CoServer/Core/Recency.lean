/-
Recency lists: entries with distinct keys, the most recently used first. `touch` puts an entry in front, `remove` takes
a key out, `prune` keeps the first `limit` entries once there are `allowed` of them, and `dropped` are the others, the
least recently used first.
-/
import Mathlib.Data.List.Basic
import Mathlib.Tactic

namespace CoServer.Core.Recency

open List

variable {α K : Type} [DecidableEq K] (key : α → K)

/-- the entry of a key -/
def find (k : K) (l : List α) : Option α := l.find? fun x => key x == k

def remove (k : K) (l : List α) : List α := l.filter fun x => key x != k

/-- an entry becomes the most recently used one of its key -/
def touch (x : α) (l : List α) : List α := x :: remove key (key x) l

variable (limit allowed : ℕ)

/-- pruning is due: there is a limit and the list has reached the allowed length -/
def Full (l : List α) : Prop := 0 < limit ∧ allowed ≤ l.length

instance (limit allowed : ℕ) (l : List α) : Decidable (Full limit allowed l) :=
  inferInstanceAs (Decidable (0 < limit ∧ allowed ≤ l.length))

def prune (l : List α) : List α := if Full limit allowed l then l.take limit else l

/-- what pruning drops, from the least recently used upward -/
def dropped (l : List α) : List α := if Full limit allowed l then (l.drop limit).reverse else []

variable {key} {k : K} {x y : α} {l : List α} {limit allowed : ℕ}

theorem find_mem (h : find key k l = some x) : x ∈ l ∧ key x = k :=
  ⟨mem_of_find?_eq_some h, by simpa using List.find?_some h⟩

theorem find_eq_none : find key k l = none ↔ ∀ x ∈ l, key x ≠ k := by simp [find]

theorem find_eq_some (hl : (l.map key).Nodup) (hx : x ∈ l) : find key (key x) l = some x := by
  cases hf : find key (key x) l with
  | none => exact absurd rfl (find_eq_none.1 hf x hx)
  | some y =>
    obtain ⟨hy, hk⟩ := find_mem hf
    rw [inj_on_of_nodup_map hl hy hx hk]

theorem mem_remove : y ∈ remove key k l ↔ y ∈ l ∧ key y ≠ k := by simp [remove]

theorem remove_eq_self (h : find key k l = none) : remove key k l = l := by
  refine filter_eq_self.2 fun x hx => ?_
  simpa using find_eq_none.1 h x hx

theorem length_remove_lt (h : (find key k l).isSome) : (remove key k l).length < l.length := by
  obtain ⟨x, hx⟩ := Option.isSome_iff_exists.1 h
  obtain ⟨hmem, hk⟩ := find_mem hx
  exact length_filter_lt_length_iff_exists.2 ⟨x, hmem, by simp [hk]⟩

theorem length_remove_le : (remove key k l).length ≤ l.length := length_filter_le _ _

theorem prune_sublist : (prune limit allowed l).Sublist l := by
  unfold prune
  split_ifs
  · exact take_sublist _ _
  · exact List.Sublist.refl _

theorem length_prune (h : 0 < limit) : (prune limit allowed l).length ≤ max limit (allowed - 1) := by
  unfold prune
  split_ifs with hf
  · exact le_max_of_le_left (length_take_le _ _)
  · have : l.length < allowed := Nat.lt_of_not_le fun ha => hf ⟨h, ha⟩
    exact le_max_of_le_right (by omega)

end CoServer.Core.Recency
