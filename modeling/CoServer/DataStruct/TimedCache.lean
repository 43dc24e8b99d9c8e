/-
`TimedCache` (include/datastruct/timed_cache.h): entries in an ordered set by (deadline, key), and a hash index of
iterators into it.

`_timed` is a `NodeList` in the order of the set; `insert` returns the iterator of the new element or of the equivalent
one that is there. `set` erases only the INDEX entry of a key that is there, so the old element stays in the set; an
element with the same deadline and key keeps its old value. `del` ends without a `return` when the key was there.
`expired` takes the element out and puts it in again, its deadline unchanged. A run is followed with its history
(`Hist`).

Results:
- `get_latest_iff`: in a run with max size 0 every call leaves the value of the latest `set` under every key that is
  there and every `del` returns whether its key was there, exactly if no `set` finds an element with its own deadline
  and key that holds another value, and every `del` is on a key that is not there.
- `get_older_value`: of two `set`s in one millisecond the second value is lost, and `del` of the key returns nothing.
-/
import CoServer.DataStruct.Cache
import CoServer.Core.Refine

namespace CoServer.DataStruct.TimedCache

open CoServer.Core List NodeList Index

variable {K V : Type} [LinearOrder K]

/-! ## The code -/

structure Cache (K V : Type) where
  maxSize : UInt64
  elasticity : UInt64
  status : CacheStatus
  /-- `_cache` -/
  cache : Index K
  /-- `_timed`, in the order of the set -/
  timed : NodeList (Item K V)
  /-- a prune callback is set -/
  cb : Bool
  /-- the calls of the callback, oldest first -/
  calls : List (K × V)

def init (maxSize elasticity : UInt64) : Cache K V := ⟨maxSize, elasticity, {}, ∅, empty, false, []⟩

def getMaxAllowedSize (c : Cache K V) : UInt64 := c.maxSize + c.elasticity

/-- the callback is called, if there is one -/
def call (c : Cache K V) (x : Item K V) : List (K × V) := if c.cb then c.calls ++ [(x.key, x.val)] else c.calls

/-- the first element is taken out, its key erased from the index, and the callback told -/
def dropFirst (c : Cache K V) (it : ℕ) (x : Item K V) : Cache K V :=
  { c with
    calls := call c x
    cache := c.cache.erase x.key
    timed := c.timed.keep fun n => n.1 != it }

/-- the loop of `prune`, along the elements of the set; at its end `begin()` is `end()` -/
def pruneLoop : List (ℕ × Item K V) → Cache K V → ℕ → Option (Cache K V × ℕ)
  | [], c, count => if c.maxSize.toNat < Index.size c.cache then none else some (c, count)
  | (it, x) :: rest, c, count =>
    if c.maxSize.toNat < Index.size c.cache then pruneLoop rest (dropFirst c it x) (count + 1) else some (c, count)

section

variable (c : Cache K V)

def prune : Option (Cache K V × ℕ) :=
  if c.maxSize = 0 ∨ Index.size c.cache < (getMaxAllowedSize c).toNat then some (c, 0)
  else
    match pruneLoop c.timed.nodes c 0 with
    | none => none
    | some (c, count) => some ({ c with status := c.status.incPrune count }, count)

variable (k : K)

/-- `set` up to the call of `prune`; `now` is what `getCurrentMS` reads -/
def store (v : V) (expired now : ℕ) : Cache K V :=
  let cache := match c.cache.lookup k with
    | some _ => c.cache.erase k
    | none => c.cache
  let (timed, it) := c.timed.insertBy Item.less ⟨k, v, (expired + now) % 2 ^ 64⟩
  { c with cache := emplace cache k it, timed := timed, status := c.status.incSet }

def set (v : V) (expired now : ℕ) : Option (Cache K V) := (prune (store c k v expired now)).map Prod.fst

/-- what both overloads of `get` do with the iterator found -/
def hit (it : ℕ) : Option (Cache K V × V) := do
  let x ← c.timed.deref it
  some ({ c with status := c.status.incGet.incHit }, x.val)

/-- `bool get(const K& k, V& v)` -/
def get : Option (Cache K V × Option V) :=
  getBy (c.cache.lookup k) { c with status := c.status.incGet } (hit c) none some

/-- `V get(const K& k)` -/
def getValue [Inhabited V] (c : Cache K V) (k : K) : Option (Cache K V × V) :=
  getBy (c.cache.lookup k) { c with status := c.status.incGet } (hit c) default id

/-- `del`; on a key that is there nothing is returned -/
def del : Option (Cache K V × Option Bool) :=
  match c.cache.lookup k with
  | none => some ({ c with status := c.status.incDel }, some false)
  | some it => do
    let timed ← c.timed.erase it
    some ({ c with timed := timed, cache := c.cache.erase k, status := c.status.incDel.incHit }, none)

def expired (ts now : ℕ) : Option (Cache K V × Bool) :=
  match c.cache.lookup k with
  | none => some (c, false)
  | some it => do
    let item ← c.timed.deref it
    if item.ts = (ts + now) % 2 ^ 64 then some (c, true)
    else
      let timed ← c.timed.erase it
      let (timed, iit) := timed.insertBy Item.less item
      -- the assignment `it->second = iit.first`
      some ({ c with timed := timed, cache := c.cache.insert k iit }, true)

def exists_ : Bool := (c.cache.lookup k).isSome

def size (c : Cache K V) : ℕ := Index.size c.cache

def empty : Bool := Index.size c.cache == 0

end

def clear (c : Cache K V) : Cache K V := { c with timed := c.timed.clear, cache := ∅ }

/-- the loop of `checkTimeout`, along the elements of the set -/
def checkTimeoutLoop (ts : ℕ) : List (ℕ × Item K V) → Cache K V → ℕ → Cache K V × ℕ
  | [], c, size => (c, size)
  | (it, x) :: rest, c, size => if x.ts ≤ ts then checkTimeoutLoop ts rest (dropFirst c it x) (size + 1) else (c, size)

def checkTimeout (c : Cache K V) (ts : ℕ) : Cache K V × ℕ := checkTimeoutLoop ts c.timed.nodes c 0

inductive Op (K V : Type) where
  | set (k : K) (v : V) (expired now : ℕ)
  | get (k : K)
  | getValue (k : K)
  | del (k : K)
  | expired (k : K) (ts now : ℕ)
  | exists_ (k : K)
  | size
  | empty
  | clear
  | setElasticity (n : UInt64)
  | setPruneCallback (cb : Bool)
  | checkTimeout (ts : ℕ)
  /-- `prune` is protected: derived classes call it -/
  | prune
deriving DecidableEq

/-- what a `bool` function returns -/
def returned : Option Bool → Answer V
  | some b => .flag b
  | none => .noReturn

/-- one call -/
def step [Inhabited V] (c : Cache K V) : Op K V → Option (Cache K V × Answer V)
  | .set k v expired now => (set c k v expired now).map fun c => (c, .done)
  | .get k => (get c k).map fun (c, o) => (c, .found o)
  | .getValue k => (getValue c k).map fun (c, v) => (c, .value v)
  | .del k => (del c k).map fun (c, b) => (c, returned b)
  | .expired k ts now => (expired c k ts now).map fun (c, b) => (c, .flag b)
  | .exists_ k => some (c, .flag (exists_ c k))
  | .size => some (c, .count (size c))
  | .empty => some (c, .flag (empty c))
  | .clear => some (clear c, .flag true)
  | .setElasticity n => some ({ c with elasticity := n }, .done)
  | .setPruneCallback cb => some ({ c with cb := cb }, .done)
  | .checkTimeout ts => some ((checkTimeout c ts).1, .count (checkTimeout c ts).2)
  | .prune => (prune c).map fun (c, n) => (c, .count n)

/-! ## Runs with their history -/

/-- a cache with the calls made and their answers, oldest first -/
structure Hist (K V : Type) where
  cache : Cache K V
  calls : List (Op K V × Answer V)

def Hist.init (maxSize elasticity : UInt64) : Hist K V := ⟨TimedCache.init maxSize elasticity, []⟩

/-- one call of a run; a fault leaves the state alone -/
def Hist.step [Inhabited V] (s : Hist K V) (o : Op K V) : Hist K V :=
  match TimedCache.step s.cache o with
  | some (c, a) => ⟨c, s.calls ++ [(o, a)]⟩
  | none => s

/-- the value a call sets for a key -/
def setValue (k : K) : Op K V → Option V
  | .set k' v _ _ => if k' = k then some v else none
  | _ => none

/-- the value of the latest `set` of a key -/
def lastSet (k : K) (calls : List (Op K V × Answer V)) : Option V := latest (fun e => setValue k e.1) calls

/-! ## What each function does -/

/-- the set is in order, and every iterator of the index is live and leads to an element with the key -/
structure Inv (c : Cache K V) : Prop where
  sorted : c.timed.SortedBy Item.rank
  index : ∀ k a, c.cache.lookup k = some a → ∃ x, (a, x) ∈ c.timed.nodes ∧ x.key = k

/-- the element the index leads to -/
def entry (c : Cache K V) (k : K) : Option (Item K V) := (c.cache.lookup k).bind c.timed.deref

variable {c c' : Cache K V} {k : K} {v : V} {x : Item K V} {it : ℕ}

theorem entry_iff : entry c k = some x ↔ ∃ a, c.cache.lookup k = some a ∧ (a, x) ∈ c.timed.nodes := by
  rw [entry, Option.bind_eq_some_iff]
  simp only [deref_iff]

theorem entry_none (h : Inv c) : entry c k = none ↔ c.cache.lookup k = none := by
  rw [entry]
  cases hk : c.cache.lookup k with
  | none => simp
  | some a =>
    obtain ⟨x, hx, -⟩ := h.index k a hk
    simp [deref_iff.2 hx]

theorem Inv.key_eq (h : Inv c) (hx : entry c k = some x) : x.key = k := by
  obtain ⟨a, ha, hmem⟩ := entry_iff.1 hx
  obtain ⟨y, hy, hk⟩ := h.index k a ha
  rw [c.timed.inj hmem hy, hk]

theorem Inv.mem_vals (hx : entry c k = some x) : x ∈ c.timed.vals := by
  obtain ⟨a, -, hmem⟩ := entry_iff.1 hx
  exact mem_map_of_mem hmem

theorem Inv.rank_inj (h : Inv c) {n m : ℕ × Item K V} (hn : n ∈ c.timed.nodes) (hm : m ∈ c.timed.nodes)
    (hr : n.2.rank = m.2.rank) : n = m := OrderedSet.Sorted.inj h.sorted hn hm hr

theorem erase_spec (c' : Cache K V) (h : Inv c) (hx : (it, x) ∈ c.timed.nodes)
    (hcache : c'.cache = c.cache.erase x.key) (htimed : c'.timed = c.timed.keep fun n => n.1 != it) :
    Inv c' ∧ (∀ k, entry c' k = if k = x.key then none else entry c k) ∧ c.timed.vals.Perm (x :: c'.timed.vals) := by
  have hlookup : ∀ k, c'.cache.lookup k = if k = x.key then none else c.cache.lookup k := by
    intro k
    rw [hcache]
    exact lookup_erase_eq _ _ _
  have hne : ∀ k a y, k ≠ x.key → c.cache.lookup k = some a → (a, y) ∈ c.timed.nodes → a ≠ it := by
    intro k a y hk ha hy he
    obtain ⟨z, hz, hzk⟩ := h.index k a ha
    subst he
    rw [c.timed.inj hz hx] at hzk
    exact hk hzk.symm
  have hmem : ∀ a y, (a, y) ∈ c'.timed.nodes ↔ (a, y) ∈ c.timed.nodes ∧ a ≠ it := by simp [htimed]
  refine ⟨⟨?_, ?_⟩, ?_, ?_⟩
  · rw [htimed]
    exact h.sorted.filter _
  · intro k a ha
    rw [hlookup] at ha
    split_ifs at ha with hk
    obtain ⟨y, hy, hyk⟩ := h.index k a ha
    exact ⟨y, (hmem a y).2 ⟨hy, hne k a y hk ha hy⟩, hyk⟩
  · intro k
    split_ifs with hk
    · rw [entry, hlookup, if_pos hk]
      rfl
    refine Option.ext fun y => ?_
    rw [entry_iff, entry_iff]
    simp only [hlookup, if_neg hk, hmem]
    constructor
    · intro ⟨a, ha, hy, _⟩
      exact ⟨a, ha, hy⟩
    · intro ⟨a, ha, hy⟩
      exact ⟨a, ha, hy, hne k a y hk ha hy⟩
  · have hp := (perm_keep hx).map Prod.snd
    rw [htimed]
    exact hp

theorem nodes_dropFirst {rest : List (ℕ × Item K V)} (hn : c.timed.nodes = (it, x) :: rest) :
    (dropFirst c it x).timed.nodes = rest := by
  have hp := c.timed.nodup
  rw [hn, map_cons, nodup_cons] at hp
  have hrest : rest.filter (fun n => n.1 != it) = rest := by
    refine filter_eq_self.2 fun n hmem => ?_
    have hne : n.1 ≠ it := by
      intro he
      have hfst : n.1 ∈ rest.map Prod.fst := mem_map_of_mem hmem
      exact hp.1 (he ▸ hfst)
    simpa using hne
  simp [dropFirst, hn, hrest]

theorem checkTimeoutLoop_spec (ts size : ℕ) (l : List (ℕ × Item K V)) (h : Inv c) (hl : c.timed.nodes = l) :
    let r := checkTimeoutLoop ts l c size
    Inv r.1 ∧ r.2 = size + (l.filter fun n => decide (n.2.ts ≤ ts)).length ∧
      r.1.timed.nodes = l.filter (fun n => !decide (n.2.ts ≤ ts)) ∧
      (∀ k, entry r.1 k = if ∃ n ∈ l, n.2.key = k ∧ n.2.ts ≤ ts then none else entry c k) ∧
      r.1.maxSize = c.maxSize := by
  intro r
  induction l generalizing c size with
  | nil => exact ⟨h, rfl, hl, fun k => by simp [r, checkTimeoutLoop], rfl⟩
  | cons n rest ih =>
    obtain ⟨it, x⟩ := n
    have hx : (it, x) ∈ c.timed.nodes := hl ▸ mem_cons_self
    by_cases hts : x.ts ≤ ts
    · obtain ⟨h₁, hentry₁, -⟩ := erase_spec (dropFirst c it x) h hx rfl rfl
      obtain ⟨h', hsize, hnodes, hentry, hmax⟩ := ih (size + 1) h₁ (nodes_dropFirst hl)
      have hr : r = checkTimeoutLoop ts rest (dropFirst c it x) (size + 1) := if_pos hts
      rw [hr]
      refine ⟨h', ?_, ?_, fun k => ?_, hmax⟩
      · simp only [filter_cons, hts, decide_true, if_true, length_cons]
        omega
      · rw [hnodes]
        simp [hts]
      rw [hentry k, hentry₁ k]
      by_cases hk : k = x.key
      · have hex : ∃ n ∈ (it, x) :: rest, n.2.key = k ∧ n.2.ts ≤ ts := ⟨_, mem_cons_self, hk.symm, hts⟩
        rw [if_pos hk, if_pos hex, ite_self]
      have hex : (∃ n ∈ (it, x) :: rest, n.2.key = k ∧ n.2.ts ≤ ts) ↔ ∃ n ∈ rest, n.2.key = k ∧ n.2.ts ≤ ts := by
        rw [exists_mem_cons_iff]
        exact or_iff_right fun he => hk he.1.symm
      rw [if_neg hk]
      simp only [hex]
    · have hr : r = (c, size) := if_neg hts
      have hall : ∀ n ∈ (it, x) :: rest, ¬ n.2.ts ≤ ts := by
        have hs := h.sorted
        rw [SortedBy, hl] at hs
        intro n hn
        rcases mem_cons.1 hn with rfl | hn
        · exact hts
        · have hle := Item.ts_le_of_rank ((pairwise_cons.1 hs).1 n hn)
          simp only at hle
          omega
      rw [hr]
      refine ⟨h, ?_, ?_, fun k => ?_, rfl⟩
      · have hnil : ((it, x) :: rest).filter (fun n => decide (n.2.ts ≤ ts)) = [] :=
          filter_eq_nil_iff.2 fun n hn => by simpa using hall n hn
        rw [hnil]
        rfl
      · rw [hl]
        exact (filter_eq_self.2 fun n hn => by simpa using hall n hn).symm
      · rw [if_neg]
        intro ⟨n, hn, _, hle⟩
        exact hall n hn hle

theorem entry_replace (h : Inv c) (hs : c'.timed.SortedBy Item.rank) (hit : (it, x) ∈ c'.timed.nodes) (hkey : x.key = k)
    (hlookup : ∀ k', c'.cache.lookup k' = if k' = k then some it else c.cache.lookup k')
    (hsub : ∀ k' a y, k' ≠ k → c.cache.lookup k' = some a → ((a, y) ∈ c.timed.nodes ↔ (a, y) ∈ c'.timed.nodes)) :
    Inv c' ∧ ∀ k', entry c' k' = if k' = k then some x else entry c k' := by
  refine ⟨⟨hs, fun k' a ha => ?_⟩, fun k' => ?_⟩
  · rw [hlookup] at ha
    split_ifs at ha with hk
    · cases ha
      exact ⟨x, hit, hkey.trans hk.symm⟩
    · obtain ⟨y, hy, hyk⟩ := h.index k' a ha
      exact ⟨y, (hsub k' a y hk ha).1 hy, hyk⟩
  by_cases hk : k' = k
  · rw [if_pos hk, entry_iff]
    exact ⟨it, by rw [hlookup, if_pos hk], hit⟩
  rw [if_neg hk]
  refine Option.ext fun y => ?_
  rw [entry_iff, entry_iff, hlookup, if_neg hk]
  constructor
  · intro ⟨a, ha, hy⟩
    exact ⟨a, ha, (hsub k' a y hk ha).2 hy⟩
  · intro ⟨a, ha, hy⟩
    exact ⟨a, ha, (hsub k' a y hk ha).1 hy⟩

theorem store_eq (c : Cache K V) (k : K) (v : V) (expired now : ℕ) :
    ∃ cache : ℕ → Index K, (∀ it k', (cache it).lookup k' = if k' = k then some it else c.cache.lookup k') ∧
      ∀ {timed it}, c.timed.insertBy Item.less ⟨k, v, (expired + now) % 2 ^ 64⟩ = (timed, it) →
        store c k v expired now = { c with cache := cache it, timed := timed, status := c.status.incSet } := by
  cases hk : c.cache.lookup k with
  | none => exact ⟨emplace c.cache k, lookup_emplace hk, fun hins => by simp only [store, hk, hins]⟩
  | some a =>
    refine ⟨emplace (c.cache.erase k) k, fun it k' => ?_, fun hins => by simp only [store, hk, hins]⟩
    rw [lookup_emplace (AList.lookup_erase k c.cache), lookup_erase_eq]
    split_ifs <;> rfl

section

variable (h : Inv c)
include h

theorem store_spec (k : K) (v : V) (expired now : ℕ) :
    let x : Item K V := ⟨k, v, (expired + now) % 2 ^ 64⟩
    let c' := store c k v expired now
    Inv c' ∧ c'.maxSize = c.maxSize ∧
      ((∃ y ∈ c.timed.vals, y.ts = x.ts ∧ y.key = k ∧ c'.timed = c.timed ∧
          ∀ k', entry c' k' = if k' = k then some y else entry c k') ∨
        (∀ y ∈ c.timed.vals, ¬ (y.ts = x.ts ∧ y.key = k)) ∧ c'.timed.vals.Perm (x :: c.timed.vals) ∧
          ∀ k', entry c' k' = if k' = k then some x else entry c k') := by
  intro x c'
  obtain ⟨cache, hlookup, hstore⟩ := store_eq c k v expired now
  rcases insertBy_spec Item.less_keyed h.sorted x with ⟨n, hn, hrank, hins⟩ | ⟨hne, l', hins, hs, hp⟩
  · -- the element that is there
    obtain ⟨hts, hkey⟩ := Item.rank_eq.1 hrank
    rw [show c' = _ from hstore hins]
    obtain ⟨hinv, hentry⟩ : Inv { c with cache := cache n.1, timed := c.timed, status := c.status.incSet } ∧ _ :=
      entry_replace h h.sorted hn
      hkey (hlookup n.1) fun _ _ _ _ _ => Iff.rfl
    exact ⟨hinv, rfl, .inl ⟨n.2, mem_map_of_mem hn, hts, hkey, rfl, hentry⟩⟩
  · -- a new element
    have hold : ∀ k' a y, k' ≠ k → c.cache.lookup k' = some a → ((a, y) ∈ c.timed.nodes ↔ (a, y) ∈ l'.nodes) := by
      intro k' a y _ ha
      rw [hp.mem_iff, mem_cons]
      refine ⟨.inr, fun hy => hy.resolve_left fun he => ?_⟩
      obtain ⟨z, hz, -⟩ := h.index k' a ha
      have := c.timed.below _ hz
      rw [(Prod.mk.inj he).1] at this
      exact Nat.lt_irrefl _ this
    rw [show c' = _ from hstore hins]
    obtain ⟨hinv, hentry⟩ : Inv { c with cache := cache c.timed.next, timed := l', status := c.status.incSet } ∧ _ :=
      entry_replace h hs
      (hp.mem_iff.2 mem_cons_self) rfl (hlookup _) hold
    refine ⟨hinv, rfl, .inr ⟨?_, hp.map Prod.snd, hentry⟩⟩
    intro y hy ⟨hts, hkey⟩
    obtain ⟨n, hn, rfl⟩ := mem_map.1 hy
    exact hne n hn (Item.rank_eq.2 ⟨hts, hkey⟩)

theorem del_spec (k : K) :
    ∃ c' b, del c k = some (c', b) ∧ Inv c' ∧ c'.maxSize = c.maxSize ∧
      (b = if (entry c k).isSome then none else some false) ∧
      (∀ k', entry c' k' = if k' = k then none else entry c k') ∧
      (c.timed.vals.Perm c'.timed.vals ∧ entry c k = none ∨ ∃ x, entry c k = some x ∧
        c.timed.vals.Perm (x :: c'.timed.vals)) := by
  unfold del
  cases hk : c.cache.lookup k with
  | none =>
    have hentry : entry c k = none := (entry_none h).2 hk
    refine ⟨_, _, rfl, ⟨h.sorted, h.index⟩, rfl, by simp [hentry], fun k' => ?_, .inl ⟨Perm.refl _, hentry⟩⟩
    by_cases hk' : k' = k
    · rw [if_pos hk', hk']
      exact hentry
    · rw [if_neg hk']
      rfl
  | some a =>
    obtain ⟨x, hx, rfl⟩ := h.index k a hk
    have hentry : entry c x.key = some x := entry_iff.2 ⟨a, hk, hx⟩
    simp only [erase_eq hx, Option.bind_eq_bind, Option.bind_some]
    obtain ⟨h', hother, hp⟩ := erase_spec
      { c with
        timed := c.timed.keep fun n => n.1 != a
        cache := c.cache.erase x.key
        status := c.status.incDel.incHit } h hx rfl rfl
    exact ⟨_, _, rfl, h', rfl, by simp [hentry], hother, .inr ⟨x, hentry, hp⟩⟩

theorem expired_spec (k : K) (ts now : ℕ) :
    ∃ c', expired c k ts now = some (c', (entry c k).isSome) ∧ Inv c' ∧ c'.maxSize = c.maxSize ∧
      (∀ k', entry c' k' = entry c k') ∧ c'.timed.vals.Perm c.timed.vals := by
  unfold expired
  cases hk : c.cache.lookup k with
  | none => exact ⟨c, by rw [(entry_none h).2 hk]; rfl, h, rfl, fun _ => rfl, Perm.refl _⟩
  | some a =>
    obtain ⟨x, hx, rfl⟩ := h.index k a hk
    have hentry : entry c x.key = some x := entry_iff.2 ⟨a, hk, hx⟩
    simp only [deref_iff.2 hx, Option.bind_eq_bind, Option.bind_some, hentry, Option.isSome_some]
    split_ifs with hts
    · exact ⟨c, rfl, h, rfl, fun _ => rfl, Perm.refl _⟩
    rw [erase_eq hx, Option.bind_some]
    let l₁ := c.timed.keep fun n => n.1 != a
    have hs₁ : l₁.SortedBy Item.rank := h.sorted.filter _
    have hmem₁ : ∀ n, n ∈ l₁.nodes ↔ n ∈ c.timed.nodes ∧ n.1 ≠ a := by simp [l₁]
    -- after the erasure no element is equivalent to it
    have hfresh : ∀ n ∈ l₁.nodes, n.2.rank ≠ x.rank := by
      intro n hn he
      obtain ⟨hn', hna⟩ := (hmem₁ n).1 hn
      exact hna (congrArg Prod.fst (h.rank_inj hn' hx he))
    rcases insertBy_spec Item.less_keyed hs₁ x with ⟨n, hn, hrank, -⟩ | ⟨-, l₂, hins, hs₂, hp₂⟩
    · exact absurd hrank (hfresh n hn)
    have hother : ∀ k' b y, k' ≠ x.key → c.cache.lookup k' = some b →
        ((b, y) ∈ c.timed.nodes ↔ (b, y) ∈ l₂.nodes) := by
      intro k' b y hk' hb
      obtain ⟨z, hz, hzk⟩ := h.index k' b hb
      have hba : b ≠ a := by
        rintro rfl
        rw [c.timed.inj hz hx] at hzk
        exact hk' hzk.symm
      have hbn : b ≠ l₁.next := Nat.ne_of_lt (c.timed.below _ hz)
      rw [hp₂.mem_iff, mem_cons, hmem₁]
      simp [hba, hbn]
    let c₂ : Cache K V := { c with timed := l₂, cache := c.cache.insert x.key l₁.next }
    obtain ⟨hinv, hreplace⟩ : Inv c₂ ∧ _ :=
      entry_replace h hs₂ (hp₂.mem_iff.2 mem_cons_self) rfl (lookup_insert_eq _ _ _) hother
    refine ⟨c₂, ?_, hinv, rfl, fun k' => ?_, ?_⟩
    · rw [hins]
    · rw [hreplace k']
      by_cases hk' : k' = x.key
      · rw [if_pos hk', hk', hentry]
      · rw [if_neg hk']
    · have h1 := hp₂.map Prod.snd
      have h2 := (perm_keep hx).map Prod.snd
      exact h1.trans h2.symm

theorem get_eq (k : K) : ∃ c', get c k = some (c', (entry c k).map Item.val) ∧ Inv c' ∧ c'.timed = c.timed ∧
    c'.maxSize = c.maxSize ∧ ∀ k', entry c' k' = entry c k' := by
  unfold get getBy
  cases hk : c.cache.lookup k with
  | none =>
    rw [(entry_none h).2 hk]
    exact ⟨_, rfl, ⟨h.sorted, h.index⟩, rfl, rfl, fun _ => rfl⟩
  | some a =>
    obtain ⟨x, hx, -⟩ := h.index k a hk
    rw [entry_iff.2 ⟨a, hk, hx⟩]
    simp only [hit, deref_iff.2 hx, Option.bind_eq_bind, Option.bind_some]
    exact ⟨_, rfl, ⟨h.sorted, h.index⟩, rfl, rfl, fun _ => rfl⟩

theorem exists_eq (k : K) : exists_ c k = (entry c k).isSome := by
  rw [exists_, Bool.eq_iff_iff, ← Option.ne_none_iff_isSome, ← Option.ne_none_iff_isSome, ne_eq, ne_eq, entry_none h]

theorem checkTimeout_spec (ts : ℕ) :
    let r := checkTimeout c ts
    Inv r.1 ∧ r.2 = (c.timed.vals.filter fun x => decide (x.ts ≤ ts)).length ∧
      r.1.timed.vals = c.timed.vals.filter (fun x => !decide (x.ts ≤ ts)) ∧
      (∀ k, entry r.1 k = if ∃ x ∈ c.timed.vals, x.key = k ∧ x.ts ≤ ts then none else entry c k) ∧
      r.1.maxSize = c.maxSize := by
  obtain ⟨h', hsize, hnodes, hentry, hmax⟩ := checkTimeoutLoop_spec ts 0 c.timed.nodes h rfl
  refine ⟨h', ?_, ?_, fun k => ?_, hmax⟩
  · rw [vals, filter_map, length_map, Nat.zero_add] at *
    exact hsize
  · rw [vals, vals, filter_map]
    exact congrArg (map Prod.snd) hnodes
  have hex : (∃ x ∈ c.timed.vals, x.key = k ∧ x.ts ≤ ts) ↔ ∃ n ∈ c.timed.nodes, n.2.key = k ∧ n.2.ts ≤ ts := by
    simp only [vals, mem_map, exists_exists_and_eq_and]
  simp only [hex]
  exact hentry k

end

/-! ## Every run with max size 0 -/

theorem prune_zero (hm : c.maxSize = 0) : prune c = some (c, 0) := if_pos (.inl hm)

theorem step_set [Inhabited V] (hm : c.maxSize = 0) (h : Inv c) (k : K) (v : V) (expired now : ℕ) :
    step c (.set k v expired now) = some (store c k v expired now, .done) := by
  have hm' : (store c k v expired now).maxSize = 0 := (store_spec h k v expired now).2.1.trans hm
  rw [step, set, prune_zero hm']
  rfl

theorem step_other [Inhabited V] (hm : c.maxSize = 0) (h : Inv c) (o : Op K V) (ho : ∀ k v e now, o ≠ .set k v e now) :
    ∃ c' a, step c o = some (c', a) ∧ Inv c' ∧ c'.maxSize = 0 ∧ (∀ k x, entry c' k = some x → entry c k = some x) := by
  cases o with
  | set k v e now => exact absurd rfl (ho k v e now)
  | get k | getValue k =>
    obtain ⟨c', hget, h', -, hm', he⟩ := get_eq h k
    unfold get at hget
    exact ⟨c', _,
      by simp only [step, get, getValue, getBy_value, hget]; rfl, h', hm'.trans hm, fun k' x hx => he k' ▸ hx⟩
  | del k =>
    obtain ⟨c', b, hdel, h', hm', -, he, -⟩ := del_spec h k
    refine ⟨c', _, by rw [step, hdel]; rfl, h', hm'.trans hm, fun k' x hx => ?_⟩
    rw [he] at hx
    split_ifs at hx
    exact hx
  | expired k ts now =>
    obtain ⟨c', hexp, h', hm', he, -⟩ := expired_spec h k ts now
    exact ⟨c', _, by rw [step, hexp]; rfl, h', hm'.trans hm, fun k' x hx => he k' ▸ hx⟩
  | exists_ k | size | empty => exact ⟨c, _, rfl, h, hm, fun _ _ hx => hx⟩
  | clear => exact ⟨_, _, rfl, ⟨Pairwise.nil, fun k a ha => by cases ha⟩, hm, fun _ _ hx => by cases hx⟩
  | setElasticity n | setPruneCallback cb => exact ⟨_, _, rfl, ⟨h.sorted, h.index⟩, hm, fun _ _ hx => hx⟩
  | checkTimeout ts =>
    obtain ⟨h', -, -, he, hm'⟩ := checkTimeout_spec h ts
    refine ⟨_, _, rfl, h', hm'.trans hm, fun k x hx => ?_⟩
    rw [he] at hx
    split_ifs at hx
    exact hx
  | prune => exact ⟨c, _, by rw [step, prune_zero hm]; rfl, h, hm, fun _ _ hx => hx⟩

/-- the state of a run: the invariant, and the latest value under every key -/
structure Latest (s : Hist K V) : Prop where
  inv : Inv s.cache
  max : s.cache.maxSize = 0
  latest : ∀ k x, entry s.cache k = some x → lastSet k s.calls = some x.val

/-- `get` on every key that is there returns the value of the latest `set` of it -/
def GetsLatest (s : Hist K V) : Prop :=
  ∀ k, exists_ s.cache k = true → ∃ c v, get s.cache k = some (c, some v) ∧ lastSet k s.calls = some v

/-- the call does not fault, leaves the latest value under every key, and if it is a `del` it returns whether the key
was there -/
def AnswersRight [Inhabited V] (s : Hist K V) (o : Op K V) : Prop :=
  (∃ c a, step s.cache o = some (c, a) ∧ ∀ k, o = .del k → a = .flag (exists_ s.cache k)) ∧ GetsLatest (s.step o)

/-- no element with the deadline and the key of a `set` has another value; the key of a `del` is not there -/
def Fresh (s : Hist K V) : Op K V → Prop
  | .set k v expired now => ∀ y ∈ s.cache.timed.vals, y.ts = (expired + now) % 2 ^ 64 → y.key = k → y.val = v
  | .del k => exists_ s.cache k = false
  | _ => True

variable {s : Hist K V}

theorem getsLatest_iff (h : Inv s.cache) : GetsLatest s ↔
    ∀ k x, entry s.cache k = some x → lastSet k s.calls = some x.val := by
  constructor
  · intro hg k x hx
    obtain ⟨c, v, hget, hlast⟩ := hg k (by rw [exists_eq h, hx]; rfl)
    obtain ⟨c', hget', -⟩ := get_eq h k
    rw [hget', hx] at hget
    have hv : some x.val = some v := (Prod.mk.inj (Option.some.inj hget)).2
    rw [hlast, hv]
  · intro hl k hk
    rw [exists_eq h] at hk
    obtain ⟨x, hx⟩ := Option.isSome_iff_exists.1 hk
    obtain ⟨c', hget, -⟩ := get_eq h k
    exact ⟨c', x.val, by rw [hget, hx]; rfl, hl k x hx⟩

theorem Hist.step_eq [Inhabited V] {o : Op K V} {a : Answer V} (h : TimedCache.step s.cache o = some (c, a)) :
    s.step o = ⟨c, s.calls ++ [(o, a)]⟩ := by
  rw [Hist.step, h]

theorem lastSet_snoc (k : K) (calls : List (Op K V × Answer V)) (o : Op K V) (a : Answer V) :
    lastSet k (calls ++ [(o, a)]) = (setValue k o).or (lastSet k calls) := latest_snoc _ _ _

theorem latest_set [Inhabited V] (h : Latest s) {expired now : ℕ} (hf : Fresh s (.set k v expired now)) :
    Latest (s.step (.set k v expired now)) := by
  obtain ⟨h', hm', hcase⟩ := store_spec h.inv k v expired now
  rw [Hist.step_eq (step_set h.max h.inv k v expired now)]
  refine ⟨h', hm'.trans h.max, fun k' x hx => ?_⟩
  have hval :
    ∀ y : Item K V, (∀ k', entry (store s.cache k v expired now) k' = if k' = k then some y else entry s.cache k') →
      y.val = v → lastSet k' (s.calls ++ [(.set k v expired now, .done)]) = some x.val := by
    intro y he hy
    have hx' : entry (store s.cache k v expired now) k' = some x := hx
    rw [he] at hx'
    rw [lastSet_snoc]
    by_cases hk : k' = k
    · rw [if_pos hk] at hx'
      cases hx'
      simp [setValue, hk, hy]
    rw [if_neg hk] at hx'
    have hk' : ¬ k = k' := fun he => hk he.symm
    rw [setValue, if_neg hk']
    exact h.latest k' x hx'
  rcases hcase with ⟨y, hy, hts, hkey, -, he⟩ | ⟨-, -, he⟩
  · exact hval y he (hf y hy hts hkey)
  · exact hval _ he rfl

theorem latest_other [Inhabited V] (h : Latest s) {o : Op K V} (ho : ∀ k v e now, o ≠ .set k v e now) :
    Latest (s.step o) := by
  obtain ⟨c', a, hstep, h', hm', he⟩ := step_other h.max h.inv o ho
  rw [Hist.step_eq hstep]
  refine ⟨h', hm', fun k x hx => ?_⟩
  rw [lastSet_snoc]
  have hnone : setValue k o = none := by
    cases o with
    | set k' v e now => exact absurd rfl (ho k' v e now)
    | _ => rfl
  rw [hnone]
  exact h.latest k x (he k x hx)

theorem latest_step [Inhabited V] (o : Op K V) (hf : Fresh s o) (h : Latest s) : Latest (s.step o) := by
  cases o with
  | set k v expired now => exact latest_set h hf
  | _ => exact latest_other h (fun _ _ _ _ he => by cases he)

theorem answersRight_other [Inhabited V] (h : Latest s) {o : Op K V} (hset : ∀ k v e now, o ≠ .set k v e now)
    (hdel : ∀ k, o ≠ .del k) : AnswersRight s o := by
  obtain ⟨c', a, hstep, -⟩ := step_other h.max h.inv o hset
  have hl := latest_other h hset
  exact ⟨⟨c', a, hstep, fun k hk => absurd hk (hdel k)⟩, (getsLatest_iff hl.inv).2 hl.latest⟩

theorem answersRight_iff [Inhabited V] (o : Op K V) (h : Latest s) : AnswersRight s o ↔ Fresh s o := by
  cases o with
  | set k v expired now =>
    have hstep := step_set h.max h.inv k v expired now
    obtain ⟨h', -, hcase⟩ := store_spec h.inv k v expired now
    constructor
    · intro ⟨_, hgets⟩ y hy hts hkey
      rw [Hist.step_eq hstep, getsLatest_iff h'] at hgets
      rcases hcase with ⟨z, hz, hzts, hzkey, -, he⟩ | ⟨hnone, -, -⟩
      · -- the element found is the only one with this deadline and key
        obtain ⟨n, hn, rfl⟩ := mem_map.1 hy
        obtain ⟨m, hm, rfl⟩ := mem_map.1 hz
        have hnm : n = m := h.inv.rank_inj hn hm (Item.rank_eq.2 ⟨hts.trans hzts.symm, hkey.trans hzkey.symm⟩)
        have hlast := hgets k m.2 (by rw [he, if_pos rfl])
        rw [lastSet_snoc, setValue, if_pos rfl] at hlast
        rw [hnm]
        exact (Option.some.inj hlast).symm
      · exact absurd ⟨hts, hkey⟩ (hnone y hy)
    · intro hf
      refine ⟨⟨_, _, hstep, fun k hk => by cases hk⟩, ?_⟩
      have hl := latest_set h hf
      exact (getsLatest_iff hl.inv).2 hl.latest
  | del k =>
    have hl : Latest (s.step (.del k)) := latest_other h fun _ _ _ _ he => by cases he
    obtain ⟨c', b, hdel, -, -, hb, -⟩ := del_spec h.inv k
    have hstep : step s.cache (.del k) = some (c', returned b) := by
      rw [step, hdel]
      rfl
    rw [← exists_eq h.inv] at hb
    constructor
    · intro ⟨⟨c, a, hs, ha⟩, _⟩
      rw [hstep] at hs
      obtain ⟨-, rfl⟩ := Prod.mk.inj (Option.some.inj hs)
      have ha := ha k rfl
      cases hex : exists_ s.cache k with
      | false => exact hex
      | true =>
        rw [hb, hex] at ha
        cases ha
    · intro hf
      have hex : exists_ s.cache k = false := hf
      refine ⟨⟨_, _, hstep, fun k' hk' => ?_⟩, (getsLatest_iff hl.inv).2 hl.latest⟩
      cases hk'
      rw [hb, hex]
      rfl
  | _ => exact ⟨fun _ => trivial,
      fun _ => answersRight_other h (fun _ _ _ _ he => by cases he) (fun _ he => by cases he)⟩

/-- **The latest value, exactly when.** -/
theorem get_latest_iff [Inhabited V] (elasticity : UInt64) (ops : List (Op K V)) :
    Meets Hist.step AnswersRight (Hist.init 0 elasticity) ops ↔ Meets Hist.step Fresh (Hist.init 0 elasticity) ops := by
  refine meets_congr (I := Latest) (fun s o hf h => latest_step o hf h) (fun s o h => answersRight_iff o h) ?_ ops
  exact ⟨⟨Pairwise.nil, fun k a ha => by cases ha⟩, rfl, fun k x hx => by cases hx⟩

/-- **Two `set`s in one millisecond.** -/
theorem get_older_value :
    (exec step (TimedCache.init 0 0 : Cache ℕ ℕ) [.set 1 10 1000 5, .set 1 20 1000 5, .get 1, .del 1]).map Prod.snd =
      some [.done, .done, .found (some 10), .noReturn] := by
  decide

end CoServer.DataStruct.TimedCache
