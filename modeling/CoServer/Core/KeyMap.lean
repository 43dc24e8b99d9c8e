/-
Maps whose keys are read off from their values, as `map[v.id()] = v`. `KeyMap key` is the list of the values, no two of
them with one key, so a value under a foreign key cannot be built. Nothing proved here depends on the order of the list.
-/
import Mathlib.Tactic

namespace CoServer.Core

open List

variable {κ ν : Type} [DecidableEq κ]

structure KeyMap (key : ν → κ) where
  values : List ν
  nodup : (values.map key).Nodup
deriving DecidableEq

namespace KeyMap

variable {key : ν → κ}

def empty : KeyMap key := ⟨[], nodup_nil⟩

variable (m : KeyMap key)

def find (k : κ) : Option ν := m.values.find? fun v => key v = k

def erase (k : κ) : KeyMap key :=
  ⟨m.values.filter fun v => key v ≠ k, m.nodup.sublist (filter_sublist.map key)⟩

theorem key_notMem_erase (k : κ) : k ∉ (m.erase k).values.map key := by
  intro hk
  obtain ⟨v, hv, rfl⟩ := mem_map.1 hk
  exact of_decide_eq_true (mem_filter.1 hv).2 rfl

/-- `map[key(v)] = v` -/
def add (v : ν) : KeyMap key :=
  ⟨v :: (m.erase (key v)).values, nodup_cons.2 ⟨key_notMem_erase m _, (m.erase _).nodup⟩⟩

def size : ℕ := m.values.length

variable {m : KeyMap key}

theorem key_of_find {k : κ} {v : ν} (h : m.find k = some v) : key v = k := by simpa using find?_some h

theorem mem_values {v : ν} : v ∈ m.values ↔ m.find (key v) = some v := by
  constructor
  · intro hv
    have hinj := inj_on_of_nodup_map m.nodup
    cases hf : m.find (key v) with
    | none => simpa using find?_eq_none.1 hf v hv
    | some w => rw [hinj (mem_of_find?_eq_some hf) hv (key_of_find hf)]
  · intro h
    exact mem_of_find?_eq_some h

@[simp] theorem find_empty (k : κ) : (empty : KeyMap key).find k = none := rfl

theorem find_erase (m : KeyMap key) (k k' : κ) : (m.erase k).find k' = if k' = k then none else m.find k' := by
  unfold find erase
  rw [find?_filter]
  by_cases hk : k' = k
  · subst hk
    simp
  rw [if_neg hk]
  congr 1
  funext v
  by_cases hv : key v = k'
  · simp [hv, hk]
  · simp [hv]

theorem find_add (m : KeyMap key) (v : ν) (k : κ) : (m.add v).find k = if k = key v then some v else m.find k := by
  have hcons : (m.add v).find k = if key v = k then some v else (m.erase (key v)).find k := by
    unfold find add
    by_cases hk : key v = k
    · simp [hk]
    · simp [hk]
  rw [hcons, find_erase]
  by_cases hk : k = key v
  · rw [if_pos hk.symm, if_pos hk]
  · rw [if_neg (Ne.symm hk), if_neg hk, if_neg hk]

theorem erase_of_none {k : κ} (h : m.find k = none) : (m.erase k).values = m.values := by
  unfold erase
  rw [filter_eq_self]
  intro v hv
  simpa using find?_eq_none.1 h v hv

theorem size_erase {k : κ} {v : ν} (h : m.find k = some v) : (m.erase k).size + 1 = m.size := by
  obtain rfl : key v = k := key_of_find h
  have hmem : key v ∈ m.values.map key := mem_map_of_mem (mem_of_find?_eq_some h)
  have hcount : (m.values.filter fun w => key w = key v).length = 1 := by
    rw [← countP_eq_length_filter, ← count_eq_one_of_mem m.nodup hmem, count_eq_countP, countP_map]
    exact countP_congr fun w _ => by simp
  have hsplit := length_eq_length_filter_add (l := m.values) fun w => decide (key w = key v)
  rw [hcount] at hsplit
  simpa [erase, size, Nat.add_comm] using hsplit.symm

theorem find_of_size_eq_zero (h : m.size = 0) (k : κ) : m.find k = none := by
  unfold find
  rw [length_eq_zero_iff.1 h, find?_nil]

end KeyMap

end CoServer.Core
