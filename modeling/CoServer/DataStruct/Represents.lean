/-
The finite map a bucket table stands for.

`Represents`: the node of a key is made (`mk`) of the key and what the map has for it, the lock is free, `_total` is the
number of keys. It is kept, with the map changed as meant, by the groups of statements of `Buckets`; `HashMap` and
`HashMultimap` differ in what a node holds.
-/
import CoServer.DataStruct.Buckets
import Mathlib.Data.Finmap

namespace CoServer.DataStruct.Buckets

open CoServer.Core List Finmap Finset OrderedSet

variable {K W α : Type} [LinearOrder K]

structure Represents (hash : K → UInt64) (key : α → K) (mk : K → W → α) (t : Table α)
    (f : Finmap fun _ : K => W) : Prop where
  wf : WF hash key t
  free : t.mutex = .free
  entries : ∀ k, entry hash key t k = (f.lookup k).map (mk k)
  total : t.total = f.keys.card
  few : f.keys.card < 2 ^ 31

variable {hash : K → UInt64} {key : α → K} {mk : K → W → α} {less : α → α → Bool} {t : Table α}
  {f : Finmap fun _ : K => W}
  {k : K} {w : W}

theorem represents_init (size : ℕ) : Represents hash key mk (init size : Table α) ∅ := by
  obtain ⟨hwf, hnone⟩ : WF hash key (init size : Table α) ∧ ∀ k, entry hash key (init size : Table α) k = none :=
    wf_init size
  refine ⟨hwf, rfl, fun k => ?_, ?_, ?_⟩
  · rw [hnone]
    rfl
  · rfl
  · norm_num

theorem Represents.entry_eq_none (h : Represents hash key mk t f) : entry hash key t k = none ↔ k ∉ f := by
  rw [h.entries, Option.map_eq_none_iff, lookup_eq_none]

theorem Represents.key_mem (h : Represents hash key mk t f) {x : α} (hx : x ∈ t.datas.flatten) : key x ∈ f := by
  rw [Buckets.mem_flatten h.wf, h.entries, Option.map_eq_some_iff] at hx
  obtain ⟨w, hw, -⟩ := hx
  exact mem_of_lookup_eq_some hw

/-! ## What a call finds -/

theorem Represents.locate (hless : Keyed less key) (h : Represents hash key mk t f) (probe : α) (hp : key probe = k) :
    ∃ b, t.datas[pos hash t k]? = some b ∧
      ((∃ a w c, b = a ++ mk k w :: c ∧ f.lookup k = some w ∧
          Buckets.locate hash key less { t with mutex := .read } probe = some (b, some a.length)) ∨
        k ∉ f ∧ Buckets.locate hash key less { t with mutex := .read } probe = some (b, none)) := by
  subst hp
  obtain ⟨b, hb, hcase⟩ := locate_spec hless (h.wf.locked .read) probe
  refine ⟨b, hb, ?_⟩
  rcases hcase with ⟨a, x, c, hsplit, -, hx, hloc⟩ | ⟨hnone, hloc⟩
  · obtain ⟨w, hw, rfl⟩ := Option.map_eq_some_iff.1 ((h.entries _).symm.trans hx)
    exact Or.inl ⟨a, w, c, hsplit, hw, hloc⟩
  · exact Or.inr ⟨h.entry_eq_none.1 hnone, hloc⟩

/-! ## What it changes -/

theorem keys_insert (f : Finmap fun _ : K => W) (k : K) (w : W) : (f.insert k w).keys = insert k f.keys := by
  ext k'
  rw [Finmap.mem_keys, Finmap.mem_insert, Finset.mem_insert, Finmap.mem_keys]

theorem lookup_insert_eq (mk : K → W → α) (f : Finmap fun _ : K => W) (k k' : K) (w : W) :
    ((f.insert k w).lookup k').map (mk k') = if k' = k then some (mk k w) else (f.lookup k').map (mk k') := by
  split_ifs with hk
  · rw [hk, lookup_insert]
    rfl
  · rw [lookup_insert_of_ne f hk]

theorem Represents.bucket_length (h : Represents hash key mk t f) {b : List α} (hb : t.datas[pos hash t k]? = some b)
    (hk : k ∉ f) : b.length + 1 ≤ (f.insert k w).keys.card := by
  have hnodup : (k :: b.map key).Nodup := by
    refine nodup_cons.2 ⟨fun hmem => ?_, List.Pairwise.map _ (fun _ _ hab => ne_of_lt hab) (h.wf.sorted _ b hb)⟩
    obtain ⟨x, hx, hxk⟩ := mem_map.1 hmem
    exact (Buckets.entry_eq_none hb).1 (h.entry_eq_none.2 hk) x hx hxk
  have hsub : (k :: b.map key).toFinset ⊆ (f.insert k w).keys := by
    intro k' hk'
    rw [Finmap.mem_keys, Finmap.mem_insert]
    rcases mem_cons.1 (mem_toFinset.1 hk') with rfl | hmem
    · exact Or.inl rfl
    · obtain ⟨x, hx, rfl⟩ := mem_map.1 hmem
      exact Or.inr (h.key_mem (mem_flatten_of_mem (mem_of_getElem? hb) hx))
  calc b.length + 1 = (k :: b.map key).toFinset.card := by rw [toFinset_card_of_nodup hnodup, length_cons, length_map]
    _ ≤ (f.insert k w).keys.card := card_le_card hsub

theorem Represents.add (hless : Keyed less key) (hmk : ∀ k w, key (mk k w) = k) (h : Represents hash key mk t f)
    {b : List α} (hb : t.datas[pos hash t k]? = some b) (hk : k ∉ f) (hlt : (f.insert k w).keys.card < 2 ^ 31) :
    Represents hash key mk (unlock (add hash key less { t with mutex := .read } b (mk k w))) (f.insert k w) := by
  have hlen : b.length + 1 < 2 ^ 31 := (h.bucket_length hb hk).trans_lt hlt
  rw [← hmk k w] at hb
  obtain ⟨hwf, he⟩ := add_spec (x := mk k w) hless (h.wf.locked .read) hb (by rw [hmk]; exact h.entry_eq_none.2 hk) hlen
  have hcard : (f.insert k w).keys.card = f.keys.card + 1 := by
    rw [keys_insert, card_insert_of_notMem (by rwa [Finmap.mem_keys])]
  have htotal :
      (unlock (Buckets.add hash key less { t with mutex := .read } b (mk k w))).total = (t.total + 1) % 2 ^ 64 := rfl
  refine ⟨hwf.unlock, rfl, fun k' => ?_, ?_, hlt⟩
  · rw [entry_unlock, he, lookup_insert_eq, ← h.entries, hmk]
    rfl
  · rw [htotal, h.total, hcard]
    exact Nat.mod_eq_of_lt (by omega)

theorem Represents.assign (hmk : ∀ k w, key (mk k w) = k) (h : Represents hash key mk t f) {a c : List α} {w' : W}
    (hb : t.datas[pos hash t k]? = some (a ++ mk k w' :: c)) (hk : k ∈ f) (w : W) :
    Represents hash key mk (unlock (assign hash key { t with mutex := .read } (a ++ mk k w' :: c) a.length (mk k w)))
      (f.insert k w) := by
  rw [← hmk k w] at hb
  obtain ⟨hwf, he⟩ := assign_spec (x := mk k w) (h.wf.locked .read) hb (by rw [hmk])
  have hkeys : (f.insert k w).keys = f.keys := by rw [keys_insert, insert_eq_of_mem (mem_keys.2 hk)]
  rw [hmk k w] at hwf he
  refine ⟨hwf.unlock, rfl, fun k' => ?_, by rw [hkeys]; exact h.total, by rw [hkeys]; exact h.few⟩
  rw [entry_unlock, he, lookup_insert_eq, ← h.entries]
  rfl

theorem Represents.remove (hless : Keyed less key) (hmk : ∀ k w, key (mk k w) = k) (h : Represents hash key mk t f)
    {a c : List α} (hb : t.datas[pos hash t k]? = some (a ++ mk k w :: c)) (hk : k ∈ f) :
    Represents hash key mk (unlock (remove hash less { t with mutex := .read } k (a ++ mk k w :: c) a.length))
    (f.erase k) := by
  obtain ⟨hwf, he⟩ := remove_spec (y := mk k w) hless (h.wf.locked .read) hb (hmk k w)
  have hcard : (f.erase k).keys.card + 1 = f.keys.card := by
    rw [keys_erase]
    exact card_erase_add_one (mem_keys.2 hk)
  have hfew := h.few
  have htotal : (unlock (Buckets.remove hash less { t with mutex := .read } k (a ++ mk k w :: c) a.length)).total =
      (t.total + (2 ^ 64 - 1)) % 2 ^ 64 := rfl
  refine ⟨hwf.unlock, rfl, fun k' => ?_, by rw [htotal, h.total]; omega, by omega⟩
  rw [entry_unlock, he]
  split_ifs with hk'
  · rw [hk', lookup_erase]
    rfl
  · rw [lookup_erase_ne hk']
    exact h.entries k'

theorem erase_of_notMem (hk : k ∉ f) : f.erase k = f := by
  refine ext_lookup fun k' => ?_
  by_cases hk' : k' = k
  · rw [hk', lookup_erase, lookup_eq_none.2 hk]
  · rw [lookup_erase_ne hk']

/-! ## Rehashing -/

theorem Represents.rehash (hless : Keyed less key) (h : Represents hash key mk t f) :
    ∃ t', rehash hash key less t = some t' ∧ Represents hash key mk t' f := by
  obtain ⟨t', ht', hwf, he, htotal, hm⟩ := rehash_spec hless h.wf h.free
  exact ⟨t', ht', hwf, hm, fun k => (he k).trans (h.entries k), htotal.trans h.total, h.few⟩

theorem Represents.rehashIfNeeded (hless : Keyed less key) (h : Represents hash key mk t f) :
    ∃ t', rehashIfNeeded hash key less t = some t' ∧ Represents hash key mk t' f := by
  unfold Buckets.rehashIfNeeded
  split_ifs
  · exact h.rehash hless
  · exact ⟨t, rfl, h⟩

end CoServer.DataStruct.Buckets
