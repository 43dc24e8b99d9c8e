/-
`HashMultimap` (include/datastruct/hash_multimap.h): keys with arrays of values in a table of sorted buckets.

The `int` that counts an array is the length of the list here, and an array of 2^31 values or more, for which it would
be negative, is a fault. The abstract model is a finite map from keys to finite sets of values. `del(k, v)` is no
operation of the model: it hands the iterator of a vector to `memcpy`, and a program that calls it does not compile.

Results:
- `multimap_refines`: a run of calls answers as the map of sets, if arrays that are stored whole have no duplicates and
  no number of keys or values reaches 2^31;
- `duplicates_stored`: an array with a duplicate is stored as it is.
-/
import CoServer.DataStruct.Represents
import CoServer.Core.Refine
import Mathlib.Data.Finset.Sort

namespace CoServer.DataStruct.HashMultimap

open CoServer.Core Buckets List SortedVec OrderedSet
open Option (bind_eq_bind bind_some)

variable {K V : Type}

/-! ## The code -/

structure Node (K V : Type) where
  key : K
  /-- `val` and `size` -/
  val : List V

open Node

structure Multimap (K V : Type) where
  table : Table (Node K V)
  /-- `_elements`, a `uint64_t` -/
  elements : ℕ

/-- the constructor -/
def init (size : ℕ) : Multimap K V := ⟨Buckets.init size, 0⟩

/-- `new V[n]` for an array whose size an `int` is to hold -/
def alloc (vs : List V) : Option (List V) := if vs.length < 2 ^ 31 then some vs else none

def getTotal (m : Multimap K V) : ℕ := m.table.total

section

variable [LinearOrder K] [LinearOrder V] (hash : K → UInt64) (m : Multimap K V) (k : K)

/-- `Node::operator<` -/
def less (a b : Node K V) : Bool := decide (a.key < b.key)

/-- `operator<` of the values -/
def lessValue (a b : V) : Bool := decide (a < b)

/-- the first statements of every call: the read lock, the bucket and the search for `Node(k)` -/
def lookup (t : Table (Node K V)) (k : K) : Option (Table (Node K V) × List (Node K V) × Option (ℕ × Node K V)) := do
  let t := rdlock t
  let (bucket, it) ← locate hash key less t ⟨k, []⟩
  match it with
  | none => some (t, bucket, none)
  | some i => do
    let n ← bucket[i]?
    some (t, bucket, some (i, n))

/-- `get(k)` and `get(k, vector)`: a copy of the array, if the key is there -/
def get : Option (Multimap K V × Option (List V)) := do
  let (t, _, it) ← lookup hash m.table k
  some ({ m with table := unlock t }, it.map fun e => e.2.val)

/-- `get(k, v)`: the element equivalent to `v`, if there is one -/
def getValue (v : V) : Option (Multimap K V × Option V) := do
  let (t, _, it) ← lookup hash m.table k
  some ({ m with table := unlock t }, it.bind fun e => (binarySearch lessValue v e.2.val).bind fun j => e.2.val[j]?)

/-- `exists(k)` -/
def existsKey : Option (Multimap K V × Bool) := do
  let (t, _, it) ← lookup hash m.table k
  some ({ m with table := unlock t }, it.isSome)

/-- `exists(k, v)` -/
def existsValue (v : V) : Option (Multimap K V × Bool) := do
  let (t, _, it) ← lookup hash m.table k
  some ({ m with table := unlock t }, it.any fun e => (binarySearch lessValue v e.2.val).isSome)

/-- `insert(k, v)` -/
def insert (v : V) : Option (Multimap K V × Bool) := do
  let t ← rehashIfNeeded hash key less m.table
  let (t, bucket, it) ← lookup hash t k
  match it with
  | none => some (⟨unlock (add hash key less t bucket ⟨k, [v]⟩), (m.elements + 1) % 2 ^ 64⟩, true)
  | some (i, n) =>
    match binarySearch lessValue v n.val with
    | some j => some ({ m with table := unlock (assign hash key t bucket i ⟨n.key, n.val.set j v⟩) }, true)
    | none => do
      let datas ← alloc (n.val ++ [v])
      some (⟨unlock (assign hash key t bucket i ⟨n.key, sortLast lessValue datas datas.length⟩),
        (m.elements + 1) % 2 ^ 64⟩, true)

/-- one turn of the loop over the array of `insert`: the array of the node and the set of new values -/
def absorb (s : List V × List V) (v : V) : List V × List V :=
  match binarySearch lessValue v s.1 with
  | none => (s.1, OrderedSet.insert lessValue v s.2)
  | some j => (s.1.set j v, s.2)

/-- the branch of an absent key of `insert(k, v, size)` and `set` -/
def store (t : Table (Node K V)) (bucket : List (Node K V)) (k : K) (vs : List V) : Option (Multimap K V × Bool) := do
  let datas ← alloc vs
  some (⟨unlock (add hash key less t bucket ⟨k, sort lessValue datas⟩), (m.elements + vs.length) % 2 ^ 64⟩, true)

/-- `insert(k, v, size)` -/
def insertArray (vs : List V) : Option (Multimap K V × Bool) := do
  let t ← rehashIfNeeded hash key less m.table
  let (t, bucket, it) ← lookup hash t k
  match it with
  | none => store hash m t bucket k vs
  | some (i, n) => do
    let (val, news) := vs.foldl absorb (n.val, [])
    let datas ← alloc (val ++ news)
    some (⟨unlock (assign hash key t bucket i ⟨n.key, sort lessValue datas⟩),
      (m.elements + news.length) % 2 ^ 64⟩, true)

/-- `set(k, v, size)` -/
def set (vs : List V) : Option (Multimap K V × Bool) := do
  let t ← rehashIfNeeded hash key less m.table
  let (t, bucket, it) ← lookup hash t k
  match it with
  | none => store hash m t bucket k vs
  | some (i, n) => do
    let datas ← alloc vs
    some (⟨unlock (assign hash key t bucket i ⟨n.key, sort lessValue datas⟩),
      (m.elements + vs.length) % 2 ^ 64⟩, true)

/-- `del(k)` -/
def del : Option (Multimap K V × Bool) := do
  let (t, bucket, it) ← lookup hash m.table k
  match it with
  | none => some ({ m with table := unlock t }, false)
  | some (i, n) =>
    some (⟨unlock (remove hash less t k bucket i), (m.elements + (2 ^ 64 - n.val.length)) % 2 ^ 64⟩, true)

end

inductive Op (K V : Type) where
  | insert (k : K) (v : V)
  | insertArray (k : K) (vs : List V)
  | set (k : K) (vs : List V)
  | del (k : K)
  | rehash
  | get (k : K)
  | getValue (k : K) (v : V)
  | existsKey (k : K)
  | existsValue (k : K) (v : V)

inductive Answer (V : Type) where
  | done
  | flag (b : Bool)
  | values (vs : Option (List V))
  | found (v : Option V)
deriving DecidableEq

variable [LinearOrder K] [LinearOrder V]

def step (hash : K → UInt64) (m : Multimap K V) : Op K V → Option (Multimap K V × Answer V)
  | .insert k v => (insert hash m k v).map fun r => (r.1, .flag r.2)
  | .insertArray k vs => (insertArray hash m k vs).map fun r => (r.1, .flag r.2)
  | .set k vs => (set hash m k vs).map fun r => (r.1, .flag r.2)
  | .del k => (del hash m k).map fun r => (r.1, .flag r.2)
  | .rehash => (rehash hash key less m.table).map fun t => ({ m with table := t }, .done)
  | .get k => (get hash m k).map fun r => (r.1, .values r.2)
  | .getValue k v => (getValue hash m k v).map fun r => (r.1, .found r.2)
  | .existsKey k => (existsKey hash m k).map fun r => (r.1, .flag r.2)
  | .existsValue k v => (existsValue hash m k v).map fun r => (r.1, .flag r.2)

/-! ## Maps to sets of values -/

namespace Spec

abbrev Map (K V : Type) := Finmap fun _ : K => Finset V

variable (f : Map K V)

/-- the values of a key, none if it is absent -/
def values (k : K) : Finset V := (f.lookup k).getD ∅

def step : Op K V → Map K V × Answer V
  | .insert k v => (f.insert k (Insert.insert v (values f k)), .flag true)
  | .insertArray k vs => (f.insert k (values f k ∪ vs.toFinset), .flag true)
  | .set k vs => (f.insert k vs.toFinset, .flag true)
  | .del k => (f.erase k, .flag (decide (k ∈ f)))
  | .rehash => (f, .done)
  | .get k => (f, .values ((f.lookup k).map fun s => s.sort))
  | .getValue k v => (f, .found (if v ∈ values f k then some v else none))
  | .existsKey k => (f, .flag (decide (k ∈ f)))
  | .existsValue k v => (f, .flag (decide (v ∈ values f k)))

/-- an array stored as it is has no duplicates -/
def Sound : Op K V → Prop
  | .insertArray k vs => k ∉ f → vs.Nodup
  | .set _ vs => vs.Nodup
  | _ => True

/-- fewer than 2^31 keys and fewer than 2^31 values of each -/
def Small : Prop := f.keys.card < 2 ^ 31 ∧ ∀ k ∈ f.keys, (values f k).card < 2 ^ 31

def Admitted (o : Op K V) : Prop := Sound f o ∧ Small (step f o).1

instance (f : Map K V) : (o : Op K V) → Decidable (Sound f o)
  | .insertArray k vs => inferInstanceAs (Decidable (k ∉ f → vs.Nodup))
  | .set _ vs => inferInstanceAs (Decidable vs.Nodup)
  | .insert _ _ | .del _ | .rehash | .get _ | .getValue _ _ | .existsKey _ | .existsValue _ _ =>
    inferInstanceAs (Decidable True)

instance (f : Map K V) (o : Op K V) : Decidable (Admitted f o) :=
  inferInstanceAs (Decidable (Sound f o ∧ (step f o).1.keys.card < 2 ^ 31 ∧
    ∀ k ∈ (step f o).1.keys, (values (step f o).1 k).card < 2 ^ 31))

end Spec

/-! ## Sorted arrays of values -/

variable {s : Finset V} {v : V} {l : List V}

theorem lessValue_keyed : Keyed (lessValue (V := V)) id := by
  intro a b
  exact decide_eq_true_iff

theorem sorted_sort (s : Finset V) : Sorted id s.sort := (s.sortedLT_sort).pairwise

theorem eq_sort (h : Sorted id l) (hs : ∀ u, u ∈ l ↔ u ∈ s) : l = s.sort := by
  have hset : l.toFinset = s := by
    ext u
    rw [mem_toFinset, hs]
  rw [← hset]
  exact ((toFinset_sort (· ≤ ·) h.nodup).2 (h.imp le_of_lt)).symm

theorem search_sort (s : Finset V) (v : V) :
    (∃ a c, s.sort = a ++ v :: c ∧ v ∈ s ∧ binarySearch lessValue v s.sort = some a.length) ∨
      v ∉ s ∧ binarySearch lessValue v s.sort = none := by
  rcases binarySearch_spec lessValue_keyed (.of_sorted (sorted_sort s)) v with ⟨a, x, c, hs, hx, -, hb⟩ | ⟨hne, hb⟩
  · obtain rfl : x = v := hx
    have hmem : x ∈ s.sort := by simp [hs]
    exact .inl ⟨a, c, hs, (Finset.mem_sort _).1 hmem, hb⟩
  · exact .inr ⟨fun hv => hne v ((Finset.mem_sort _).2 hv) rfl, hb⟩

theorem sortLast_sort (hv : v ∉ s) :
    sortLast lessValue (s.sort ++ [v]) ((s.sort ++ [v]).length : ℤ) = (Insert.insert v s).sort := by
  have hne : ∀ u ∈ s.sort, id u ≠ id v := by
    intro u hu he
    obtain rfl : u = v := he
    exact hv ((Finset.mem_sort _).1 hu)
  obtain ⟨hperm, hsorted⟩ := sortLast_spec lessValue_keyed (sorted_sort s) hne
  have hlen : ((s.sort ++ [v]).length : ℤ) = (s.sort.length : ℤ) + 1 := by simp
  rw [hlen]
  refine eq_sort hsorted fun u => ?_
  rw [hperm.mem_iff, mem_cons, Finset.mem_sort, Finset.mem_insert]

theorem sort_eq_sort (h : l.Nodup) (hs : ∀ u, u ∈ l ↔ u ∈ s) : sort lessValue l = s.sort := by
  refine eq_sort (sort_sorted lessValue_keyed (by rwa [map_id])) fun u => ?_
  rw [(sort_perm lessValue l).mem_iff, hs]

theorem absorb_sort (s : Finset V) (v : V) {news : List V} (hn : Sorted id news) :
    ∃ news', absorb (s.sort, news) v = (s.sort, news') ∧ Sorted id news' ∧
      ∀ u, u ∈ news' ↔ u ∈ news ∨ u = v ∧ u ∉ s := by
  rcases search_sort s v with ⟨a, c, hs, hv, hb⟩ | ⟨hv, hb⟩
  · refine ⟨news, ?_, hn, fun u => ?_⟩
    · have hset : s.sort.set a.length v = s.sort := by simp [hs]
      simp only [absorb, hb, hset]
    constructor
    · exact .inl
    · rintro (hu | ⟨rfl, hu⟩)
      · exact hu
      · exact absurd hv hu
  · refine ⟨OrderedSet.insert lessValue v news, by simp only [absorb, hb], ?_⟩
    by_cases hmem : v ∈ news
    · rw [insert_of_mem lessValue_keyed hn hmem]
      refine ⟨hn, fun u => ?_⟩
      constructor
      · exact .inl
      · rintro (hu | ⟨rfl, -⟩)
        · exact hu
        · exact hmem
    · have hne : ∀ z ∈ news, id z ≠ id v := by
        intro z hz he
        obtain rfl : z = v := he
        exact hmem hz
      refine ⟨hn.insert lessValue_keyed hne, fun u => ?_⟩
      rw [mem_insert lessValue_keyed hne, or_comm]
      refine or_congr_right ⟨fun hu => ⟨hu, hu ▸ hv⟩, And.left⟩

theorem foldl_absorb (s : Finset V) (vs : List V) {news : List V} (hn : Sorted id news) :
    ∃ news', vs.foldl absorb (s.sort, news) = (s.sort, news') ∧ Sorted id news' ∧
      ∀ u, u ∈ news' ↔ u ∈ news ∨ u ∈ vs ∧ u ∉ s := by
  induction vs generalizing news with
  | nil => exact ⟨news, rfl, hn, fun u => by simp⟩
  | cons v vs ih =>
    obtain ⟨news₁, hone, hn₁, hmem₁⟩ := absorb_sort s v hn
    obtain ⟨news', hrest, hn', hmem'⟩ := ih hn₁
    refine ⟨news', by rw [foldl_cons, hone, hrest], hn', fun u => ?_⟩
    rw [hmem', hmem₁, mem_cons, or_assoc, ← or_and_right]

/-! ## One call -/

variable {hash : K → UInt64} {m : Multimap K V} {f : Spec.Map K V} {k : K} {vs : List V}

/-- a node holds the values of its key in order -/
def node (k : K) (s : Finset V) : Node K V := ⟨k, s.sort⟩

/-- the table stands for the map -/
abbrev Rel (hash : K → UInt64) (m : Multimap K V) (f : Spec.Map K V) : Prop := Represents hash key node m.table f

omit [LinearOrder K] in
theorem node_key (k : K) (s : Finset V) : (node k s).key = k := rfl

section

omit [LinearOrder V]

theorem less_keyed : Keyed (less (K := K) (V := V)) key := by
  intro a b
  exact decide_eq_true_iff

theorem values_of_lookup (h : f.lookup k = some s) : Spec.values f k = s := by rw [Spec.values, h, Option.getD_some]

theorem values_of_notMem (h : k ∉ f) : Spec.values f k = ∅ := by
  rw [Spec.values, Finmap.lookup_eq_none.2 h, Option.getD_none]

theorem card_of_small (h : Spec.Small (f.insert k s)) : s.card < 2 ^ 31 := by
  have hcard := h.2 k (Finmap.mem_keys.2 (Finmap.mem_insert.2 (.inl rfl)))
  rwa [values_of_lookup (Finmap.lookup_insert f)] at hcard

theorem alloc_of_lt (h : l.length < 2 ^ 31) : alloc l = some l := if_pos h

end

theorem stored (hvs : vs.Nodup) (hsmall : Spec.Small (f.insert k vs.toFinset)) :
    alloc vs = some vs ∧ sort lessValue vs = vs.toFinset.sort := by
  refine ⟨alloc_of_lt ?_, sort_eq_sort hvs fun u => mem_toFinset.symm⟩
  rw [← toFinset_card_of_nodup hvs]
  exact card_of_small hsmall

theorem lookup_spec {t : Table (Node K V)} (h : Represents hash key node t f) (k : K) :
    ∃ b, t.datas[pos hash t k]? = some b ∧
      ((∃ a s c, b = a ++ node k s :: c ∧ f.lookup k = some s ∧
          lookup hash t k = some ({ t with mutex := .read }, b, some (a.length, node k s))) ∨
        k ∉ f ∧ lookup hash t k = some ({ t with mutex := .read }, b, none)) := by
  obtain ⟨b, hb, ⟨a, s, c, rfl, hs, hloc⟩ | ⟨hk, hloc⟩⟩ := h.locate less_keyed ⟨k, []⟩ rfl
  · have hn : (a ++ node k s :: c)[a.length]? = some (node k s) := by simp
    refine ⟨_, hb, .inl ⟨a, s, c, rfl, hs, ?_⟩⟩
    simp [lookup, rdlock_of_free h.free, hloc]
  · refine ⟨b, hb, .inr ⟨hk, ?_⟩⟩
    simp only [lookup, rdlock_of_free h.free, bind_eq_bind, bind_some, hloc]

section

variable (h : Rel hash m f)
include h

theorem lookup_read (k : K) :
    ∃ b i, lookup hash m.table k = some
    ({ m.table with mutex := .read }, b, (f.lookup k).map fun s => (i, node k s)) := by
  obtain ⟨b, -, ⟨a, s, c, -, hs, hloc⟩ | ⟨hk, hloc⟩⟩ := lookup_spec h k
  · exact ⟨b, a.length, by rw [hloc, hs]; rfl⟩
  · exact ⟨b, 0, by rw [hloc, Finmap.lookup_eq_none.2 hk]; rfl⟩

theorem get_eq (k : K) : get hash m k = some (m, (f.lookup k).map fun s => s.sort) := by
  obtain ⟨b, i, hl⟩ := lookup_read h k
  simp only [get, hl, bind_eq_bind, bind_some, unlock_locked h.free, Option.map_map]
  rfl

theorem existsKey_eq (k : K) : existsKey hash m k = some (m, decide (k ∈ f)) := by
  obtain ⟨b, i, hl⟩ := lookup_read h k
  have hmem : (f.lookup k).isSome = decide (k ∈ f) := by rw [Bool.eq_iff_iff, Finmap.lookup_isSome, decide_eq_true_iff]
  simp [existsKey, hl, unlock_locked h.free, hmem]

theorem existsValue_eq (k : K) (v : V) : existsValue hash m k v = some (m, decide (v ∈ Spec.values f k)) := by
  obtain ⟨b, i, hl⟩ := lookup_read h k
  simp only [existsValue, hl, bind_eq_bind, bind_some, unlock_locked h.free, Option.any_map]
  cases hs : f.lookup k with
  | none => simp [Spec.values, hs]
  | some s =>
    rw [values_of_lookup hs]
    rcases search_sort s v with ⟨a, c, -, hv, hb⟩ | ⟨hv, hb⟩
    all_goals simp [node, hb, hv]

theorem getValue_eq (k : K) (v : V) : getValue hash m k v = some (m, if v ∈ Spec.values f k then some v else none) := by
  obtain ⟨b, i, hl⟩ := lookup_read h k
  simp only [getValue, hl, bind_eq_bind, bind_some, unlock_locked h.free, Option.bind_map]
  cases hs : f.lookup k with
  | none => simp [Spec.values, hs]
  | some s =>
    rw [values_of_lookup hs]
    rcases search_sort s v with ⟨a, c, hsplit, hv, hb⟩ | ⟨hv, hb⟩
    · have hget : s.sort[a.length]? = some v := by simp [hsplit]
      simp [node, hb, hv, hget]
    · simp [node, hb, hv]

/-! The calls that change the table: after the rehash the key is found, and its node overwritten or removed, or it is
not, and a node added. -/

theorem rel_insert (hsmall : Spec.Small (f.insert k (Insert.insert v (Spec.values f k)))) :
    ∃ m', insert hash m k v = some (m', true) ∧ Rel hash m' (f.insert k (Insert.insert v (Spec.values f k))) := by
  obtain ⟨t, ht, h₁⟩ := h.rehashIfNeeded less_keyed
  obtain ⟨b, hb, ⟨a, s, c, rfl, hs, hl⟩ | ⟨hk, hl⟩⟩ := lookup_spec h₁ k
  · have hk : k ∈ f := Finmap.mem_of_lookup_eq_some hs
    rw [values_of_lookup hs] at hsmall ⊢
    rcases search_sort s v with ⟨a', c', hsplit, hv, hb'⟩ | ⟨hv, hb'⟩
    · have hset : s.sort.set a'.length v = s.sort := by simp [hsplit]
      rw [Finset.insert_eq_of_mem hv]
      refine ⟨⟨_, m.elements⟩, ?_, h₁.assign node_key hb hk s⟩
      simp only [insert, ht, hl, bind_eq_bind, bind_some, node, hb', hset]
      rfl
    · have halloc : alloc (s.sort ++ [v]) = some (s.sort ++ [v]) := by
        have hcard := card_of_small hsmall
        rw [Finset.card_insert_of_notMem hv] at hcard
        exact alloc_of_lt (by simpa using hcard)
      refine ⟨⟨_, (m.elements + 1) % 2 ^ 64⟩, ?_, h₁.assign node_key hb hk (Insert.insert v s)⟩
      simp only [insert, ht, hl, bind_eq_bind, bind_some, node, hb', halloc, sortLast_sort hv]
      rfl
  · rw [values_of_notMem hk, insert_empty_eq] at hsmall ⊢
    refine ⟨⟨_, (m.elements + 1) % 2 ^ 64⟩, ?_, h₁.add less_keyed node_key hb hk hsmall.1⟩
    simp only [insert, ht, hl, bind_eq_bind, bind_some, node, Finset.sort_singleton]
    rfl

end

theorem rel_store {t : Table (Node K V)} (h : Represents hash key node t f) {b : List (Node K V)}
    (hb : t.datas[pos hash t k]? = some b) (hk : k ∉ f) (hvs : vs.Nodup)
    (hsmall : Spec.Small (f.insert k vs.toFinset)) :
    ∃ m', store hash m { t with mutex := .read } b k vs = some (m', true) ∧ Rel hash m' (f.insert k vs.toFinset) := by
  obtain ⟨halloc, hsort⟩ := stored hvs hsmall
  refine ⟨⟨_, (m.elements + vs.length) % 2 ^ 64⟩, ?_, h.add less_keyed node_key hb hk hsmall.1⟩
  simp only [store, halloc, bind_eq_bind, bind_some, hsort, node]
  rfl

theorem rel_insertArray (h : Rel hash m f) (hvs : k ∉ f → vs.Nodup)
    (hsmall : Spec.Small (f.insert k (Spec.values f k ∪ vs.toFinset))) :
    ∃ m', insertArray hash m k vs = some (m', true) ∧ Rel hash m' (f.insert k (Spec.values f k ∪ vs.toFinset)) := by
  obtain ⟨t, ht, h₁⟩ := h.rehashIfNeeded less_keyed
  obtain ⟨b, hb, ⟨a, s, c, rfl, hs, hl⟩ | ⟨hk, hl⟩⟩ := lookup_spec h₁ k
  · have hk : k ∈ f := Finmap.mem_of_lookup_eq_some hs
    rw [values_of_lookup hs] at hsmall ⊢
    obtain ⟨news, hfold, hsorted, hmem⟩ := foldl_absorb s vs Pairwise.nil
    -- the values of the node and the new ones are the union, and none is twice
    have hunion : ∀ u, u ∈ s.sort ++ news ↔ u ∈ s ∪ vs.toFinset := by
      intro u
      rw [mem_append, Finset.mem_sort, hmem, Finset.mem_union, mem_toFinset]
      tauto
    have hnodup : (s.sort ++ news).Nodup := by
      refine nodup_append'.2 ⟨Finset.sort_nodup _ _, hsorted.nodup, ?_⟩
      intro u hu hn
      rw [Finset.mem_sort] at hu
      rcases (hmem u).1 hn with hnil | hnew
      · cases hnil
      · exact hnew.2 hu
    have hlen : (s.sort ++ news).length < 2 ^ 31 := by
      have heq : (s.sort ++ news).toFinset = s ∪ vs.toFinset := by
        ext u
        rw [mem_toFinset, hunion]
      rw [← toFinset_card_of_nodup hnodup, heq]
      exact card_of_small hsmall
    refine ⟨⟨_, (m.elements + news.length) % 2 ^ 64⟩, ?_, h₁.assign node_key hb hk (s ∪ vs.toFinset)⟩
    simp only [insertArray, ht, hl, bind_eq_bind, bind_some, node, hfold, alloc_of_lt hlen, sort_eq_sort hnodup hunion]
    rfl
  · rw [values_of_notMem hk] at hsmall ⊢
    obtain ⟨m', hm', hrel⟩ := rel_store (m := m) h₁ hb hk (hvs hk) hsmall
    refine ⟨m', ?_, hrel⟩
    simp [insertArray, ht, hl, hm']

theorem rel_set (h : Rel hash m f) (hvs : vs.Nodup) (hsmall : Spec.Small (f.insert k vs.toFinset)) :
    ∃ m', set hash m k vs = some (m', true) ∧ Rel hash m' (f.insert k vs.toFinset) := by
  obtain ⟨t, ht, h₁⟩ := h.rehashIfNeeded less_keyed
  obtain ⟨b, hb, ⟨a, s, c, rfl, hs, hl⟩ | ⟨hk, hl⟩⟩ := lookup_spec h₁ k
  · have hk : k ∈ f := Finmap.mem_of_lookup_eq_some hs
    obtain ⟨halloc, hsort⟩ := stored hvs hsmall
    refine ⟨⟨_, (m.elements + vs.length) % 2 ^ 64⟩, ?_, h₁.assign node_key hb hk vs.toFinset⟩
    simp only [set, ht, hl, bind_eq_bind, bind_some, node, halloc, hsort]
    rfl
  · obtain ⟨m', hm', hrel⟩ := rel_store (m := m) h₁ hb hk hvs hsmall
    refine ⟨m', ?_, hrel⟩
    simp [set, ht, hl, hm']

theorem rel_del (h : Rel hash m f) (k : K) : ∃ m', del hash m k = some (m', decide (k ∈ f)) ∧
    Rel hash m' (f.erase k) := by
  obtain ⟨b, hb, ⟨a, s, c, rfl, hs, hl⟩ | ⟨hk, hl⟩⟩ := lookup_spec h k
  · have hk : k ∈ f := Finmap.mem_of_lookup_eq_some hs
    refine ⟨⟨_, (m.elements + (2 ^ 64 - s.sort.length)) % 2 ^ 64⟩, ?_, h.remove less_keyed node_key hb hk⟩
    simp only [del, hl, bind_eq_bind, bind_some, hk, decide_true, node]
    rfl
  · refine ⟨m, ?_, (erase_of_notMem hk).symm ▸ h⟩
    simp [del, hl, hk, unlock_locked h.free]

/-! ## Runs -/

theorem answers {α : Type} {r : Option (Multimap K V × α)} {a : α} (w : α → Answer V)
    (h : ∃ m', r = some (m', a) ∧ Rel hash m' f) :
    ∃ m', (r.map fun r => (r.1, w r.2)) = some (m', w a) ∧ Rel hash m' f := by
  obtain ⟨m', rfl, hrel⟩ := h
  exact ⟨m', rfl, hrel⟩

theorem step_simulates (hash : K → UInt64) : Simulates (Rel (V := V) hash) (step hash) Spec.step Spec.Admitted := by
  intro m f o h hok
  obtain ⟨hsound, hsmall⟩ := hok
  cases o with
  | insert k v => exact answers .flag (rel_insert h hsmall)
  | insertArray k vs => exact answers .flag (rel_insertArray h hsound hsmall)
  | set k vs => exact answers .flag (rel_set h hsound hsmall)
  | del k => exact answers .flag (rel_del h k)
  | rehash =>
    obtain ⟨t, ht, hrel⟩ := h.rehash less_keyed
    exact ⟨⟨t, m.elements⟩, by rw [step, ht]; rfl, hrel⟩
  | get k => exact answers .values ⟨m, get_eq h k, h⟩
  | getValue k v => exact answers .found ⟨m, getValue_eq h k v, h⟩
  | existsKey k => exact answers .flag ⟨m, existsKey_eq h k, h⟩
  | existsValue k v => exact answers .flag ⟨m, existsValue_eq h k v, h⟩

/-- **Multimaps refine maps to sets.** Any hash function, any initial size: a run of admitted calls does not fault, and
every answer is that of the map of sets, `get` giving the values in increasing order. -/
theorem multimap_refines (hash : K → UInt64) (size : UInt32) (ops : List (Op K V))
    (hops : Meets (fun f o => (Spec.step f o).1) Spec.Admitted ∅ ops) :
    ∃ m, exec (step hash) (init size.toNat) ops = some (m, (play Spec.step ∅ ops).2) ∧
      getTotal m = (play Spec.step ∅ ops).1.keys.card := by
  have hinit : Rel hash (init size.toNat : Multimap K V) ∅ := represents_init _
  obtain ⟨m, hrun, h⟩ := (step_simulates hash).exec_eq hinit hops
  exact ⟨m, hrun, h.total⟩

theorem multimap_refines_two :
    ∃ m, exec (step fun k => UInt64.ofNat k) (init 10)
        [.set 1 [6, 5], .insertArray 1 [6, 7, 7], .existsValue 1 7, .insert 2 4, .del 1, .existsKey 1, .get 2] =
      some (m, [.flag true, .flag true, .flag true, .flag true, .flag true, .flag false, .values (some [4])]) ∧
      getTotal m = 1 := by
  let ops : List (Op ℕ ℕ) :=
    [.set 1 [6, 5], .insertArray 1 [6, 7, 7], .existsValue 1 7, .insert 2 4, .del 1, .existsKey 1, .get 2]
  have hplay : (play Spec.step ∅ ops).2 =
      [.flag true, .flag true, .flag true, .flag true, .flag true, .flag false, .values (some [4])] := by decide +kernel
  obtain ⟨m, hrun, htotal⟩ := multimap_refines (fun k : ℕ => UInt64.ofNat k) 10 ops (by decide +kernel)
  rw [hplay] at hrun
  exact ⟨m, hrun, htotal.trans (by decide +kernel)⟩

/-- **Duplicates are stored.** A set array, and an inserted array of a new key, is sorted as it is. -/
theorem duplicates_stored :
    let ops : List (Op ℕ ℕ) := [.set 3 [8, 8], .get 3, .insertArray 4 [7, 7], .get 4]
    (exec (step fun k => UInt64.ofNat k) (init 10) ops).map Prod.snd =
        some [.flag true, .values (some [8, 8]), .flag true, .values (some [7, 7])] ∧
      (play Spec.step (∅ : Spec.Map ℕ ℕ) ops).2 =
        [.flag true, .values (some [8]), .flag true, .values (some [7])] := by
  decide +kernel

end CoServer.DataStruct.HashMultimap
