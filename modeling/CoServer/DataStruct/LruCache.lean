/-
`LruCache` (include/datastruct/lru_cache.h): a hash index of list iterators and a list in order of use.

`_keys` is a `NodeList` of key and value pairs, `_cache` an `Index` of iterators into it, and an access through an
iterator to no live node is a fault (`none`). The mutex makes each call one step. The prune callback is code of the
user: the model records its calls. `size_t` values are `UInt64`, so `getMaxAllowedSize` wraps. The abstract model `Lru`
is the recency list alone.

Results:
- `step_simulates`: on a state whose index and list are in bijection one call does not fault, answers as the abstract
  list and keeps the bijection.
- `lruCache_refines`: for every max size, elasticity and sequence of calls no iterator is used after its node is gone,
  the answers and the calls of the prune callback are those of the abstract list with the threshold of pruning computed
  in `size_t`, the index and the list stay in bijection, every entry has the value of the latest `set` of its key, and
  the number of entries is bounded.
- `lruCache_prunes_early`: max size 1 and elasticity 2^64 - 1. The second key is a new one and the count, 2, is below
  the sum 2^64, but the first entry is dropped.
-/
import CoServer.DataStruct.Cache
import CoServer.Core.Refine

namespace CoServer.DataStruct.LruCache

open CoServer.Core List Option NodeList Recency

variable {K V : Type} [DecidableEq K]

/-! ## The code -/

structure Cache (K V : Type) where
  /-- `_cache` -/
  cache : Index K
  /-- `_keys` -/
  keys : NodeList (K × V)
  maxSize : UInt64
  elasticity : UInt64
  /-- a prune callback is set -/
  cb : Bool
  /-- the calls of the callback, oldest first -/
  calls : List (K × V)
  status : CacheStatus

def init (maxSize elasticity : UInt64) : Cache K V := ⟨∅, empty, maxSize, elasticity, false, [], {}⟩

def getMaxAllowedSize (c : Cache K V) : UInt64 := c.maxSize + c.elasticity

section

variable (c : Cache K V)

def tooMany : Bool := decide (c.maxSize.toNat < Index.size c.cache)

/-- a round of `prune`: the last entry goes and the callback is told of it -/
def dropBack : Option (Cache K V) :=
  match c.keys.back with
  | none => none
  | some (_, k, v) => some { c with
      calls := if c.cb then c.calls ++ [(k, v)] else c.calls
      cache := c.cache.erase k
      keys := c.keys.popBack }

def prune : Option (Cache K V × ℕ) :=
  if c.maxSize = 0 ∨ Index.size c.cache < (getMaxAllowedSize c).toNat then some (c, 0)
  else
    match pruneLoop tooMany dropBack c.keys.nodes.length c 0 with
    | none => none
    | some (c, count) => some ({ c with status := c.status.incPrune count }, count)

def set (k : K) (v : V) : Option (Cache K V) :=
  match c.cache.lookup k with
  | some it => do
    let keys ← c.keys.modify it fun x => (x.1, v)
    let keys ← keys.splice it
    some { c with keys := keys, status := c.status.incSet }
  | none => do
    let keys := c.keys.emplaceFront (k, v)
    let it ← keys.begin
    let (c, _) ← prune { c with keys := keys, cache := Index.emplace c.cache k it, status := c.status.incSet }
    some c

/-- what both overloads of `get` do with the iterator found -/
def hit (it : ℕ) : Option (Cache K V × V) := do
  let keys ← c.keys.splice it
  let x ← keys.deref it
  some ({ c with keys := keys, status := c.status.incGet.incHit }, x.2)

/-- `bool get(const K& k, V& v)`: the value and `true`, or `false` -/
def get (k : K) : Option (Cache K V × Option V) :=
  getBy (c.cache.lookup k) { c with status := c.status.incGet } (hit c) none some

/-- `V get(const K& k)`: `V()` for a key that is not there -/
def getValue [Inhabited V] (c : Cache K V) (k : K) : Option (Cache K V × V) :=
  getBy (c.cache.lookup k) { c with status := c.status.incGet } (hit c) default id

def del (k : K) : Option (Cache K V × Bool) :=
  match c.cache.lookup k with
  | none => some ({ c with status := c.status.incDel }, false)
  | some it => do
    let keys ← c.keys.erase it
    some ({ c with keys := keys, cache := c.cache.erase k, status := c.status.incDel }, true)

def exists_ (k : K) : Bool := (c.cache.lookup k).isSome

def size (c : Cache K V) : ℕ := Index.size c.cache

def empty : Bool := Index.size c.cache == 0

def clear (c : Cache K V) : Cache K V := { c with cache := ∅, keys := c.keys.clear }

def setPruneCallback (cb : Bool) : Cache K V := { c with cb := cb }

end

inductive Op (K V : Type) where
  | set (k : K) (v : V)
  | get (k : K)
  | getValue (k : K)
  | del (k : K)
  | exists_ (k : K)
  | size
  | empty
  | clear
  | setPruneCallback (cb : Bool)
deriving DecidableEq

/-- one call -/
def step [Inhabited V] (c : Cache K V) : Op K V → Option (Cache K V × Answer V)
  | .set k v => (set c k v).map fun c => (c, .done)
  | .get k => (get c k).map fun (c, o) => (c, .found o)
  | .getValue k => (getValue c k).map fun (c, v) => (c, .value v)
  | .del k => (del c k).map fun (c, b) => (c, .flag b)
  | .exists_ k => some (c, .flag (exists_ c k))
  | .size => some (c, .count (size c))
  | .empty => some (c, .flag (empty c))
  | .clear => some (clear c, .flag true)
  | .setPruneCallback cb => some (setPruneCallback c cb, .done)

/-! ## The abstract recency list -/

/-- the entries, the most recently used first; and the callback with the calls made to it -/
structure Lru (K V : Type) where
  entries : List (K × V)
  cb : Bool
  calls : List (K × V)
deriving DecidableEq

namespace Lru

def init : Lru K V := ⟨[], false, []⟩

def touch (t : Lru K V) (x : K × V) : Lru K V := { t with entries := Recency.touch Prod.fst x t.entries }

/-- a new key comes in front; then the list is pruned if it is full, and the callback told of every dropped entry -/
def insert (limit allowed : ℕ) (t : Lru K V) (x : K × V) : Lru K V where
  entries := Recency.prune limit allowed (x :: t.entries)
  cb := t.cb
  calls := if t.cb then t.calls ++ dropped limit allowed (x :: t.entries) else t.calls

def step [Inhabited V] (limit allowed : ℕ) (t : Lru K V) : Op K V → Lru K V × Answer V
  | .set k v =>
    match find Prod.fst k t.entries with
    | some _ => (t.touch (k, v), .done)
    | none => (t.insert limit allowed (k, v), .done)
  | .get k =>
    match find Prod.fst k t.entries with
    | some x => (t.touch x, .found (some x.2))
    | none => (t, .found none)
  | .getValue k =>
    match find Prod.fst k t.entries with
    | some x => (t.touch x, .value x.2)
    | none => (t, .value default)
  | .del k => ({ t with entries := remove Prod.fst k t.entries }, .flag (find Prod.fst k t.entries).isSome)
  | .exists_ k => (t, .flag (find Prod.fst k t.entries).isSome)
  | .size => (t, .count t.entries.length)
  | .empty => (t, .flag (t.entries.length == 0))
  | .clear => ({ t with entries := [] }, .flag true)
  | .setPruneCallback cb => ({ t with cb := cb }, .done)

end Lru

/-! ## The code refines the list -/

/-- the index and the list of the code are in bijection, and the list is the abstract one -/
structure Rel (maxSize elasticity : UInt64) (c : Cache K V) (t : Lru K V) : Prop where
  linked : Linked Prod.fst c.cache c.keys
  entries : c.keys.vals = t.entries
  cb : c.cb = t.cb
  calls : c.calls = t.calls
  max : c.maxSize = maxSize
  elastic : c.elasticity = elasticity

variable {maxSize elasticity : UInt64} {c c' : Cache K V} {t : Lru K V} {k : K} {v : V}

/-- the callback is told of the entries that go; nothing else changes beside them -/
structure Told (c : Cache K V) (gone : List (K × V)) (c' : Cache K V) : Prop where
  calls : c'.calls = if c.cb then c.calls ++ gone else c.calls
  cb : c'.cb = c.cb
  max : c'.maxSize = c.maxSize
  elastic : c'.elasticity = c.elasticity

omit [DecidableEq K] in
theorem Told.refl (c : Cache K V) : Told c [] c := ⟨by simp, rfl, rfl, rfl⟩

theorem dropBack_spec {l : List (K × V)} {x : K × V} (hl : Linked Prod.fst c.cache c.keys)
    (hsplit : c.keys.vals = l ++ [x]) :
    ∃ c₁, dropBack c = some c₁ ∧ (Linked Prod.fst c₁.cache c₁.keys ∧ c₁.maxSize = c.maxSize) ∧ c₁.keys.vals = l ∧
      ∀ gone c', Told c₁ gone c' → Told c (x :: gone) c' := by
  obtain ⟨a, y, hb, hback, -⟩ :=
    exists_back (l := c.keys) (n := l.length) (by rw [hsplit, length_append, length_singleton])
  obtain ⟨rfl, rfl⟩ := append_singleton_inj.1 (hsplit.symm.trans hback)
  rw [dropBack, hb]
  refine ⟨_, rfl, ⟨hl.popBack hb, rfl⟩, rfl, fun gone c' h => ⟨?_, h.cb, h.max, h.elastic⟩⟩
  rw [h.calls]
  simp only
  split_ifs <;> simp

theorem prune_spec (hl : Linked Prod.fst c.cache c.keys) :
    ∃ c' n, prune c = some (c', n) ∧ Linked Prod.fst c'.cache c'.keys ∧
      c'.keys.vals = Recency.prune c.maxSize.toNat (getMaxAllowedSize c).toNat c.keys.vals ∧
      Told c (dropped c.maxSize.toNat (getMaxAllowedSize c).toNat c.keys.vals) c' := by
  have hfull := full_iff c.maxSize (getMaxAllowedSize c) c.keys.vals
  rw [← hl.card] at hfull
  unfold prune Recency.prune dropped
  by_cases h : c.maxSize = 0 ∨ Index.size c.cache < (getMaxAllowedSize c).toNat
  · have hn : ¬ Full c.maxSize.toNat (getMaxAllowedSize c).toNat c.keys.vals := fun hf => hfull.1 hf h
    rw [if_pos h, if_neg hn, if_neg hn]
    exact ⟨c, 0, rfl, hl, rfl, .refl c⟩
  · obtain ⟨c', hrun, ⟨hl', -⟩, hvals, ht⟩ := pruneLoop_spec tooMany dropBack
      (fun b => Linked Prod.fst b.cache b.keys ∧ b.maxSize = c.maxSize) (fun b => b.keys.vals) Told
      c.maxSize.toNat (fun b hb => by rw [tooMany, hb.1.card, hb.2, decide_eq_true_iff]) (fun b _ => .refl b)
      (fun b l x hb hsplit => hb.2 ▸ dropBack_spec hb.1 hsplit) c.keys.nodes.length 0 c ⟨hl, rfl⟩ (length_vals _)
    rw [if_neg h, hrun, if_pos (hfull.2 h), if_pos (hfull.2 h)]
    exact ⟨_, _, rfl, hl', hvals, ht.calls, ht.cb, ht.max, ht.elastic⟩

theorem set_spec [Inhabited V] (h : Rel maxSize elasticity c t) (k : K) (v : V) :
    let r := Lru.step maxSize.toNat (maxSize + elasticity).toNat t (.set k v)
    ∃ c', step c (.set k v) = some (c', r.2) ∧ Rel maxSize elasticity c' r.1 := by
  intro r
  cases hk : c.cache.lookup k with
  | some a =>
    obtain ⟨x, hx, rfl, hfind⟩ := h.linked.find_eq hk
    have hkey : ∀ y : K × V, Prod.fst (y.1, v) = y.1 := fun _ => rfl
    obtain ⟨l', hmod, hnodes⟩ := modify_eq (fun y => (y.1, v)) hx
    obtain ⟨hx', hrest⟩ := h.linked.remove_modify hkey hx hnodes
    have hl' : Linked Prod.fst c.cache l' := h.linked.modify hkey hnodes
    rw [h.entries] at hfind hrest
    simp only [r, step, set, hk, hmod, splice_eq hx', bind_eq_bind, bind_some, Lru.step, hfind]
    refine ⟨_, rfl, hl'.splice hx', ?_, h.cb, h.calls, h.max, h.elastic⟩
    simp only [Lru.touch, Recency.touch, hl'.vals_splice hx', hrest]
  | none =>
    have hfind := h.linked.find_eq_none hk
    rw [h.entries] at hfind
    let c₁ : Cache K V := { c with
      keys := c.keys.emplaceFront (k, v)
      cache := Index.emplace c.cache k c.keys.next
      status := c.status.incSet }
    have hl₁ : Linked Prod.fst c₁.cache c₁.keys := h.linked.emplaceFront (x := (k, v)) hk
    obtain ⟨c', n, hrun, hl', hvals, ht⟩ := prune_spec hl₁
    simp only [r, step, set, hk, begin_emplaceFront, bind_eq_bind, bind_some, Lru.step, hfind]
    refine ⟨c', by rw [hrun]; rfl, hl', ?_, ht.cb.trans h.cb, ?_, ht.max.trans h.max, ht.elastic.trans h.elastic⟩
    · simp [hvals, c₁, h.entries, h.max, h.elastic, getMaxAllowedSize, Lru.insert]
    · simp [ht.calls, c₁, h.entries, h.max, h.elastic, h.cb, h.calls, getMaxAllowedSize, Lru.insert]

/-- **One call.** -/
theorem step_simulates [Inhabited V] (maxSize elasticity : UInt64) :
    Simulates (Rel maxSize elasticity) (step (K := K) (V := V)) (Lru.step maxSize.toNat (maxSize + elasticity).toNat)
      (fun _ _ => True) := by
  intro c t o h _
  cases o with
  | set k v => exact set_spec h k v
  | get k | getValue k =>
    simp only [step, get, getValue, getBy, Lru.step]
    cases hk : c.cache.lookup k with
    | none =>
      have hfind : find Prod.fst k t.entries = none := h.entries ▸ h.linked.find_eq_none hk
      rw [hfind]
      exact ⟨_, rfl, h.linked, h.entries, h.cb, h.calls, h.max, h.elastic⟩
    | some a =>
      obtain ⟨x, keys, hs, hd, hmem, hfind, hvals⟩ := h.linked.access_eq hk
      rw [h.entries] at hfind hvals
      simp only [hit, hs, hd, hfind, bind_eq_bind, bind_some, map_some]
      exact ⟨_, rfl, h.linked.congr hmem, hvals, h.cb, h.calls, h.max, h.elastic⟩
  | del k =>
    simp only [step, del, Lru.step]
    cases hk : c.cache.lookup k with
    | none =>
      have hfind : find Prod.fst k t.entries = none := h.entries ▸ h.linked.find_eq_none hk
      rw [hfind, remove_eq_self hfind]
      exact ⟨_, rfl, h.linked, h.entries, h.cb, h.calls, h.max, h.elastic⟩
    | some a =>
      obtain ⟨x, -, herase, hl', hfind, hvals⟩ := h.linked.remove_eq hk
      rw [h.entries] at hfind hvals
      simp only [herase, hfind, bind_eq_bind, bind_some, map_some, isSome_some]
      exact ⟨_, rfl, hl', hvals, h.cb, h.calls, h.max, h.elastic⟩
  | exists_ k | size | empty =>
    refine ⟨c, ?_, h⟩
    simp only [step, exists_, size, empty, h.linked.isSome_lookup, h.linked.card, h.entries, Lru.step]
  | clear => exact ⟨_, rfl, Linked.nil _ rfl, rfl, h.cb, h.calls, h.max, h.elastic⟩
  | setPruneCallback cb => exact ⟨_, rfl, h.linked, h.entries, rfl, h.calls, h.max, h.elastic⟩

theorem rel_init (maxSize elasticity : UInt64) :
    Rel maxSize elasticity (init maxSize elasticity : Cache K V) Lru.init :=
  ⟨Linked.nil _ rfl, rfl, rfl, rfl, rfl, rfl⟩

/-! ## What the list holds -/

/-- the value a call sets for a key -/
def setValue (k : K) : Op K V → Option V
  | .set k' v => if k' = k then some v else none
  | _ => none

/-- the value of the latest `set` of a key -/
def lastSet (k : K) (ops : List (Op K V)) : Option V := latest (setValue k) ops

section

variable [Inhabited V] {limit allowed : ℕ}

theorem step_getValue (t : Lru K V) (k : K) :
    (Lru.step limit allowed t (.getValue k)).1 = (Lru.step limit allowed t (.get k)).1 := by
  simp only [Lru.step]
  cases find Prod.fst k t.entries with
  | some y | none => rfl

theorem mem_step {o : Op K V} {x : K × V} (hx : x ∈ (Lru.step limit allowed t o).1.entries) :
    o = .set x.1 x.2 ∨ x ∈ t.entries ∧ ∀ v, o ≠ .set x.1 v := by
  have htouch : ∀ {l : List (K × V)} {y : K × V}, x ∈ Recency.touch Prod.fst y l → x = y ∨ x ∈ l ∧ x.1 ≠ y.1 := by
    intro l y h
    rcases mem_cons.1 h with h | h
    · exact .inl h
    · exact .inr (mem_remove.1 h)
  have hget : ∀ k, x ∈ (Lru.step limit allowed t (.get k)).1.entries → x ∈ t.entries := by
    intro k hx
    simp only [Lru.step] at hx
    cases hfind : find Prod.fst k t.entries with
    | some y =>
      simp only [hfind, Lru.touch] at hx
      rcases htouch hx with rfl | ⟨hmem, -⟩
      · exact (find_mem hfind).1
      · exact hmem
    | none =>
      simp only [hfind] at hx
      exact hx
  cases o with
  | set k v =>
    simp only [Lru.step] at hx
    cases hfind : find Prod.fst k t.entries with
    | some y =>
      simp only [hfind, Lru.touch] at hx
      rcases htouch hx with rfl | ⟨hmem, hne⟩
      · exact .inl rfl
      · refine .inr ⟨hmem, fun w hw => hne ?_⟩
        cases hw
        rfl
    | none =>
      simp only [hfind, Lru.insert] at hx
      rcases mem_cons.1 (prune_sublist.subset hx) with rfl | hmem
      · exact .inl rfl
      · refine .inr ⟨hmem, fun w hw => ?_⟩
        cases hw
        exact find_eq_none.1 hfind x hmem rfl
  | get k => exact .inr ⟨hget k hx, fun w hw => by cases hw⟩
  | getValue k => exact .inr ⟨hget k (step_getValue t k ▸ hx), fun w hw => by cases hw⟩
  | del k => exact .inr ⟨(mem_remove.1 hx).1, fun w hw => by cases hw⟩
  | exists_ k | size | empty | setPruneCallback cb => exact .inr ⟨hx, fun w hw => by cases hw⟩
  | clear => cases hx

theorem entries_lastSet (ops : List (Op K V)) (x : K × V)
    (hx : x ∈ (play (Lru.step limit allowed) Lru.init ops).1.entries) : lastSet x.1 ops = some x.2 := by
  rw [play_fst] at hx
  induction ops using reverseRecOn with
  | nil => cases hx
  | append_singleton ops o ih =>
    rw [run_append] at hx
    rw [lastSet, latest_snoc]
    rcases mem_step hx with rfl | ⟨hmem, hne⟩
    · simp [setValue]
    have hnone : setValue x.1 o = none := by
      cases o with
      | set k' v =>
        have hk : k' ≠ x.1 := fun h => hne v (by rw [h])
        simp [setValue, hk]
      | _ => rfl
    rw [hnone]
    exact ih hmem

theorem length_step (hlim : 0 < limit) (o : Op K V) (h : t.entries.length ≤ max limit (allowed - 1)) :
    (Lru.step limit allowed t o).1.entries.length ≤ max limit (allowed - 1) := by
  have htouch : ∀ x : K × V, (find Prod.fst x.1 t.entries).isSome →
      (Recency.touch Prod.fst x t.entries).length ≤ max limit (allowed - 1) := by
    intro x hx
    have := length_remove_lt hx
    rw [Recency.touch, length_cons]
    omega
  have hget : ∀ k, (Lru.step limit allowed t (.get k)).1.entries.length ≤ max limit (allowed - 1) := by
    intro k
    simp only [Lru.step]
    cases hfind : find Prod.fst k t.entries with
    | some y =>
      obtain ⟨-, rfl⟩ := find_mem hfind
      exact htouch y (by rw [hfind]; rfl)
    | none => exact h
  cases o with
  | set k v =>
    simp only [Lru.step]
    cases hfind : find Prod.fst k t.entries with
    | some y => exact htouch (k, v) (by rw [hfind]; rfl)
    | none => exact length_prune hlim
  | get k => exact hget k
  | getValue k =>
    rw [step_getValue]
    exact hget k
  | del k => exact length_remove_le.trans h
  | exists_ k | size | empty | setPruneCallback cb => exact h
  | clear => exact Nat.zero_le _

theorem length_run (hlim : 0 < limit) (ops : List (Op K V)) :
    (play (Lru.step limit allowed) Lru.init ops).1.entries.length ≤ max limit (allowed - 1) := by
  rw [play_fst]
  exact run_inv_of_step (I := fun t : Lru K V => t.entries.length ≤ max limit (allowed - 1))
    (fun t o h => length_step hlim o h) _ _ (Nat.zero_le _)

end

/-! ## Whole runs -/

/-- **LruCache refines the recency list.** -/
theorem lruCache_refines [Inhabited V] (maxSize elasticity : UInt64) (ops : List (Op K V)) :
    let spec := play (Lru.step maxSize.toNat (maxSize + elasticity).toNat) Lru.init ops
    ∃ c, exec step (init maxSize elasticity) ops = some (c, spec.2) ∧
      Linked Prod.fst c.cache c.keys ∧ c.keys.vals = spec.1.entries ∧ c.calls = spec.1.calls ∧
      (∀ x ∈ c.keys.vals, lastSet x.1 ops = some x.2) ∧
      (0 < maxSize.toNat →
        Index.size c.cache ≤ max maxSize.toNat (maxSize.toNat + elasticity.toNat - 1)) := by
  intro spec
  obtain ⟨c, hrun, h⟩ := (step_simulates maxSize elasticity).exec_eq (rel_init (K := K) (V := V) maxSize elasticity)
    (Meets.always _ ops)
  refine ⟨c, hrun, h.linked, h.entries, h.calls, ?_, ?_⟩
  · intro x hx
    rw [h.entries] at hx
    exact entries_lastSet ops x hx
  intro hpos
  have hwrap : (maxSize + elasticity).toNat ≤ maxSize.toNat + elasticity.toNat := by exact Nat.mod_le _ _
  have hlen : spec.1.entries.length ≤ max maxSize.toNat ((maxSize + elasticity).toNat - 1) := length_run hpos ops
  rw [h.linked.card, h.entries]
  exact hlen.trans (max_le_max le_rfl (Nat.sub_le_sub_right hwrap 1))

/-- **Where max size plus elasticity wraps, pruning comes early.** -/
theorem lruCache_prunes_early :
    (exec step (init 1 18446744073709551615 : Cache ℕ ℕ) [.set 1 10, .set 2 20]).map
      (fun r => (r.1.keys.vals, Index.size r.1.cache)) = some ([(2, 20)], 1) ∧
    2 < (1 : UInt64).toNat + (18446744073709551615 : UInt64).toNat := by
  decide

end CoServer.DataStruct.LruCache
