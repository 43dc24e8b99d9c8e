/-
`TimedLruCache` (include/datastruct/timed_lru_cache.h): the LRU cache with a deadline for each entry.

Three containers share the iterators of one list: the hash index `_cache`, the list `_keys` in order of use and the
ordered set `_timed` of iterators, compared by the deadline and the key INSIDE the nodes (`ItemTimeOp`). A comparison
reads nodes, so an operation on the set while it holds an iterator to no live node is a fault. Deadlines are sums of
`uint64_t` modulo 2^64. The abstract model is the recency list of entries with their deadlines.

Results:
- `step_simulates`: one call whose deadline is below 2^64 does not fault and answers as the abstract list.
- `timedLruCache_refines`: for every clock readings and every sequence of such calls no iterator is used after its node
  is gone; the index and the list are in bijection and the deadline set holds the same entries, in the order of
  (deadline, key); the entries, the answers and the calls of the callback are those of the abstract list, whose
  `checkTimeout` removes exactly the entries with a deadline of at most `ts` and returns their number, and whose `prune`
  removes exactly the least recently used entries beyond max size.
-/
import CoServer.DataStruct.Cache
import CoServer.Core.Refine
import Mathlib.Order.WithBot
import Mathlib.Data.List.Sort

namespace CoServer.DataStruct.TimedLruCache

open CoServer.Core List NodeList OrderedSet
open Option (bind_eq_bind bind_some map_some)

variable {K V : Type} [LinearOrder K]

/-! ## The code -/

variable (l : NodeList (Item K V))

/-- `ItemTimeOp`; the last two cases are comparisons with a dead iterator, which the operations below exclude -/
def ItemTimeOp (a b : ℕ) : Bool :=
  if a = b then false
  else
    match l.deref a, l.deref b with
    | some x, some y => x.less y
    | none, some _ => true
    | _, none => false

/-- every iterator of the set may be compared -/
def live (timed : List ℕ) : Bool := timed.all fun a => (l.deref a).isSome

/-- `_timed.erase(it)` by value: the equivalent element, if there is one -/
def timedErase (a : ℕ) (timed : List ℕ) : Option (List ℕ) :=
  if live l (a :: timed) then
    match OrderedSet.find (ItemTimeOp l) a timed with
    | none => some timed
    | some b => some (timed.erase b)
  else none

/-- `_timed.insert(it)` -/
def timedInsert (a : ℕ) (timed : List ℕ) : Option (List ℕ) :=
  if live l (a :: timed) then some (OrderedSet.insert (ItemTimeOp l) a timed) else none

structure Cache (K V : Type) where
  /-- `_cache` -/
  cache : Index K
  /-- `_keys` -/
  keys : NodeList (Item K V)
  /-- `_timed` -/
  timed : List ℕ
  maxSize : UInt64
  elasticity : UInt64
  /-- a prune callback is set -/
  cb : Bool
  /-- the calls of the callback, oldest first -/
  calls : List (K × V)
  status : CacheStatus

def init (maxSize elasticity : UInt64) : Cache K V := ⟨∅, empty, [], maxSize, elasticity, false, [], {}⟩

variable (c : Cache K V)

def getMaxAllowedSize : UInt64 := c.maxSize + c.elasticity

/-- the callback is called, if there is one -/
def call (x : Item K V) : List (K × V) := if c.cb then c.calls ++ [(x.key, x.val)] else c.calls

def tooMany : Bool := decide (c.maxSize.toNat < Index.size c.cache)

/-- a round of `prune`: the last entry goes and the callback is told of it -/
def dropBack : Option (Cache K V) :=
  match c.keys.back with
  | none => none
  | some (it, x) =>
    match timedErase c.keys it c.timed with
    | none => none
    | some timed => some { c with
        calls := call c x
        cache := c.cache.erase x.key
        timed := timed
        keys := c.keys.popBack }

def prune : Option (Cache K V × ℕ) :=
  if c.maxSize = 0 ∨ Index.size c.cache < (getMaxAllowedSize c).toNat then some (c, 0)
  else
    match pruneLoop tooMany dropBack c.keys.nodes.length c 0 with
    | none => none
    | some (c, count) => some ({ c with status := c.status.incPrune count }, count)

/-- `set`; `now` is what `getCurrentMS` reads -/
def set (k : K) (v : V) (expired now : ℕ) : Option (Cache K V) :=
  match c.cache.lookup k with
  | some it => do
    let keys ← c.keys.splice it
    let timed ← timedErase keys it c.timed
    let keys ← keys.modify it fun x => { x with val := v, ts := (expired + now) % 2 ^ 64 }
    let timed ← timedInsert keys it timed
    some { c with keys := keys, timed := timed, status := c.status.incSet }
  | none => do
    let keys := c.keys.emplaceFront ⟨k, v, (expired + now) % 2 ^ 64⟩
    let it ← keys.begin
    let timed ← timedInsert keys it c.timed
    let (c, _) ← prune { c with
      keys := keys
      cache := Index.emplace c.cache k it
      timed := timed
      status := c.status.incSet }
    some c

/-- what both overloads of `get` do with the iterator found -/
def hit (it : ℕ) : Option (Cache K V × V) := do
  let keys ← c.keys.splice it
  let x ← keys.deref it
  some ({ c with keys := keys, status := c.status.incGet.incHit }, x.val)

/-- `bool get(const K& k, V& v)` -/
def get (k : K) : Option (Cache K V × Option V) :=
  getBy (c.cache.lookup k) { c with status := c.status.incGet } (hit c) none some

/-- `V get(const K& k)` -/
def getValue [Inhabited V] (c : Cache K V) (k : K) : Option (Cache K V × V) :=
  getBy (c.cache.lookup k) { c with status := c.status.incGet } (hit c) default id

def del (k : K) : Option (Cache K V × Bool) :=
  match c.cache.lookup k with
  | none => some ({ c with status := c.status.incDel }, false)
  | some it => do
    let timed ← timedErase c.keys it c.timed
    let keys ← c.keys.erase it
    some ({ c with keys := keys, timed := timed, cache := c.cache.erase k, status := c.status.incDel }, true)

def exists_ (k : K) : Bool := (c.cache.lookup k).isSome

def size : ℕ := Index.size c.cache

def empty : Bool := Index.size c.cache == 0

def clear : Cache K V := { c with cache := ∅, keys := c.keys.clear, timed := [] }

/-- the loop of `checkTimeout`, along the elements of `_timed` -/
def checkTimeoutLoop (ts : ℕ) : List ℕ → Cache K V → ℕ → Option (Cache K V × ℕ)
  | [], c, size => some (c, size)
  | it :: rest, c, size =>
    match c.keys.deref it with
    | none => none
    | some x =>
      if x.ts ≤ ts then
        match c.keys.erase it with
        | none => none
        | some keys =>
          checkTimeoutLoop ts rest { c with
            calls := call c x
            cache := c.cache.erase x.key
            keys := keys
            timed := rest } (size + 1)
      else some (c, size)

def checkTimeout (ts : ℕ) : Option (Cache K V × ℕ) := checkTimeoutLoop ts c.timed c 0

inductive Op (K V : Type) where
  | set (k : K) (v : V) (expired now : ℕ)
  | get (k : K)
  | getValue (k : K)
  | del (k : K)
  | exists_ (k : K)
  | size
  | empty
  | clear
  | setMaxSize (n : UInt64)
  | setElasticity (n : UInt64)
  | setPruneCallback (cb : Bool)
  | checkTimeout (ts : ℕ)
  /-- `prune` is protected: derived classes call it -/
  | prune
deriving DecidableEq

/-- one call -/
def step [Inhabited V] (c : Cache K V) : Op K V → Option (Cache K V × Answer V)
  | .set k v expired now => (set c k v expired now).map fun c => (c, .done)
  | .get k => (get c k).map fun (c, o) => (c, .found o)
  | .getValue k => (getValue c k).map fun (c, v) => (c, .value v)
  | .del k => (del c k).map fun (c, b) => (c, .flag b)
  | .exists_ k => some (c, .flag (exists_ c k))
  | .size => some (c, .count (size c))
  | .empty => some (c, .flag (empty c))
  | .clear => some (clear c, .flag true)
  | .setMaxSize n => some ({ c with maxSize := n }, .done)
  | .setElasticity n => some ({ c with elasticity := n }, .done)
  | .setPruneCallback cb => some ({ c with cb := cb }, .done)
  | .checkTimeout ts => (checkTimeout c ts).map fun (c, n) => (c, .count n)
  | .prune => (prune c).map fun (c, n) => (c, .count n)

/-! ## The abstract recency list with deadlines -/

def byDeadline (l : List (Item K V)) : List (Item K V) := l.insertionSort fun x y => x.rank ≤ y.rank

/-- the entries, the most recently used first -/
structure Lru (K V : Type) where
  entries : List (Item K V)
  maxSize : UInt64
  elasticity : UInt64
  cb : Bool
  calls : List (K × V)

namespace Lru

def init (maxSize elasticity : UInt64) : Lru K V := ⟨[], maxSize, elasticity, false, []⟩

variable (t : Lru K V)

def touch (x : Item K V) : Lru K V := { t with entries := Recency.touch Item.key x t.entries }

/-- the callback is told of a list of entries -/
def tell (l : List (Item K V)) : List (K × V) :=
  if t.cb then t.calls ++ l.map fun x => (x.key, x.val) else t.calls

/-- what pruning drops: the least recently used entries beyond max size, if there are as many entries as allowed -/
def dropped : List (Item K V) :=
  Recency.dropped t.maxSize.toNat (t.maxSize + t.elasticity).toNat t.entries

def prune : Lru K V :=
  { t with
    entries := Recency.prune t.maxSize.toNat (t.maxSize + t.elasticity).toNat t.entries
    calls := t.tell t.dropped }

/-- the entries whose deadline is at most `ts` -/
def expired (ts : ℕ) : List (Item K V) := t.entries.filter fun x => decide (x.ts ≤ ts)

def checkTimeout (ts : ℕ) : Lru K V :=
  { t with
    entries := t.entries.filter fun x => !decide (x.ts ≤ ts)
    calls := t.tell (byDeadline (t.expired ts)) }

def step [Inhabited V] (t : Lru K V) : Op K V → Lru K V × Answer V
  | .set k v expired now =>
    match Recency.find Item.key k t.entries with
    | some _ => (t.touch ⟨k, v, expired + now⟩, .done)
    | none => (prune { t with entries := ⟨k, v, expired + now⟩ :: t.entries }, .done)
  | .get k =>
    match Recency.find Item.key k t.entries with
    | some x => (t.touch x, .found (some x.val))
    | none => (t, .found none)
  | .getValue k =>
    match Recency.find Item.key k t.entries with
    | some x => (t.touch x, .value x.val)
    | none => (t, .value default)
  | .del k =>
    ({ t with entries := Recency.remove Item.key k t.entries }, .flag (Recency.find Item.key k t.entries).isSome)
  | .exists_ k => (t, .flag (Recency.find Item.key k t.entries).isSome)
  | .size => (t, .count t.entries.length)
  | .empty => (t, .flag (t.entries.length == 0))
  | .clear => ({ t with entries := [] }, .flag true)
  | .setMaxSize n => ({ t with maxSize := n }, .done)
  | .setElasticity n => ({ t with elasticity := n }, .done)
  | .setPruneCallback cb => ({ t with cb := cb }, .done)
  | .checkTimeout ts => (t.checkTimeout ts, .count (t.expired ts).length)
  | .prune => (t.prune, .count t.dropped.length)

end Lru

/-! ## The deadline set -/

/-- what the comparator compares; a dead iterator is below all others -/
def rank (l : NodeList (Item K V)) (a : ℕ) : WithBot (ℕ ×ₗ K) :=
  match l.deref a with
  | none => ⊥
  | some x => (x.rank : WithBot (ℕ ×ₗ K))

omit [LinearOrder K] in
theorem rank_of_mem {l : NodeList (Item K V)} {a : ℕ} {x : Item K V} (h : (a, x) ∈ l.nodes) :
    rank l a = (x.rank : WithBot (ℕ ×ₗ K)) := by
  rw [rank, deref_iff.2 h]

theorem itemTimeOp_keyed (l : NodeList (Item K V)) : Keyed (ItemTimeOp l) (rank l) := by
  intro a b
  unfold ItemTimeOp rank
  by_cases hab : a = b
  · subst hab
    simp
  rw [if_neg hab]
  cases l.deref a with
  | none =>
    cases l.deref b with
    | none | some y => simp
  | some x =>
    cases l.deref b with
    | none => simp
    | some y =>
      rw [WithBot.coe_lt_coe]
      exact Item.less_keyed x y

/-- the set holds exactly the live iterators, in strict order of deadline and key -/
structure Timed (l : NodeList (Item K V)) (timed : List ℕ) : Prop where
  sorted : Sorted (rank l) timed
  mem : ∀ a, a ∈ timed ↔ a ∈ l.nodes.map Prod.fst

variable {l l' : NodeList (Item K V)} {timed : List ℕ} {index : Index K} {a : ℕ} {x : Item K V}

theorem rank_inj (hl : Linked Item.key index l) {b : ℕ} {y : Item K V} (hx : (a, x) ∈ l.nodes) (hy : (b, y) ∈ l.nodes)
    (h : rank l a = rank l b) : a = b := by
  rw [rank_of_mem hx, rank_of_mem hy, WithBot.coe_inj] at h
  exact congrArg Prod.fst (hl.addr_inj hx hy (Item.rank_eq.1 h).2)

omit [LinearOrder K] in
theorem live_cons (hx : (a, x) ∈ l.nodes) (h : ∀ b ∈ timed, b ∈ l.nodes.map Prod.fst) : live l (a :: timed) = true := by
  refine all_eq_true.2 fun b hb => ?_
  obtain ⟨y, hy⟩ : ∃ y, (b, y) ∈ l.nodes := by
    rcases mem_cons.1 hb with rfl | hb
    · exact ⟨x, hx⟩
    · exact mem_addr.1 (h b hb)
  rw [deref_iff.2 hy]
  rfl

theorem timedInsert_spec (hl : Linked Item.key index l) (hs : Sorted (rank l) timed) (hx : (a, x) ∈ l.nodes)
    (hmem : ∀ b, b ∈ timed ↔ b ∈ l.nodes.map Prod.fst ∧ b ≠ a) :
    ∃ timed', timedInsert l a timed = some timed' ∧ Timed l timed' := by
  have hlive := live_cons hx fun b hb => ((hmem b).1 hb).1
  have hne : ∀ b ∈ timed, rank l b ≠ rank l a := by
    intro b hb he
    obtain ⟨hb', hba⟩ := (hmem b).1 hb
    obtain ⟨y, hy⟩ := mem_addr.1 hb'
    exact hba (rank_inj hl hy hx he)
  refine ⟨_, if_pos hlive, hs.insert (itemTimeOp_keyed l) hne, fun b => ?_⟩
  rw [mem_insert (itemTimeOp_keyed l) hne, hmem b]
  constructor
  · rintro (rfl | ⟨hb, -⟩)
    · exact mem_addr.2 ⟨x, hx⟩
    · exact hb
  intro hb
  by_cases hba : b = a
  · exact .inl hba
  · exact .inr ⟨hb, hba⟩

namespace Timed

theorem nil (h : l.nodes = []) : Timed l [] := ⟨Pairwise.nil, by simp [h]⟩

theorem nodup (h : Timed l timed) : timed.Nodup := h.sorted.nodup

theorem erase_eq (h : Timed l timed) (hx : (a, x) ∈ l.nodes) : timedErase l a timed = some (timed.erase a) := by
  have ha : a ∈ timed := (h.mem a).2 (mem_addr.2 ⟨x, hx⟩)
  have hlive := live_cons hx fun b hb => (h.mem b).1 hb
  rw [timedErase, if_pos hlive, find_mem (itemTimeOp_keyed l) h.sorted ha]

theorem mem_erase (h : Timed l timed) (b : ℕ) : b ∈ timed.erase a ↔ b ∈ l.nodes.map Prod.fst ∧ b ≠ a := by
  rw [h.nodup.mem_erase_iff, h.mem b, and_comm]

theorem sorted_congr (hs : Sorted (rank l) timed)
    (h : ∀ b ∈ timed, ∃ y, (b, y) ∈ l.nodes ∧ (b, y) ∈ l'.nodes) : Sorted (rank l') timed := by
  refine hs.congr fun b hb => ?_
  obtain ⟨y, hy, hy'⟩ := h b hb
  rw [rank_of_mem hy, rank_of_mem hy']

theorem keep (h : Timed l timed) (a : ℕ) : Timed (l.keep fun n => n.1 != a) (timed.erase a) := by
  have hkeep : ∀ {b y}, (b, y) ∈ (l.keep fun n => n.1 != a).nodes ↔ (b, y) ∈ l.nodes ∧ b ≠ a := by simp
  refine ⟨sorted_congr (h.sorted.erase a) fun b hb => ?_, fun b => ?_⟩
  · obtain ⟨hb', hba⟩ := h.mem_erase b |>.1 hb
    obtain ⟨y, hy⟩ := mem_addr.1 hb'
    exact ⟨y, hy, hkeep.2 ⟨hy, hba⟩⟩
  rw [h.mem_erase b, mem_addr, mem_addr]
  constructor
  · intro ⟨⟨y, hy⟩, hba⟩
    exact ⟨y, hkeep.2 ⟨hy, hba⟩⟩
  · intro ⟨y, hy⟩
    obtain ⟨hy, hba⟩ := hkeep.1 hy
    exact ⟨⟨y, hy⟩, hba⟩

theorem congr (h : Timed l timed) (hp : ∀ n, n ∈ l'.nodes ↔ n ∈ l.nodes) : Timed l' timed := by
  refine ⟨sorted_congr h.sorted fun b hb => ?_, fun b => ?_⟩
  · obtain ⟨y, hy⟩ := mem_addr.1 ((h.mem b).1 hb)
    exact ⟨y, hy, (hp _).2 hy⟩
  · rw [h.mem b, mem_addr, mem_addr]
    simp only [hp]

end Timed

/-! ## The code refines the list -/

/-- index, list and deadline set hold the same entries one to one -/
structure Inv (c : Cache K V) : Prop where
  linked : Linked Item.key c.cache c.keys
  timed : Timed c.keys c.timed

structure Rel (c : Cache K V) (t : Lru K V) : Prop where
  inv : Inv c
  entries : c.keys.vals = t.entries
  max : c.maxSize = t.maxSize
  elastic : c.elasticity = t.elasticity
  cb : c.cb = t.cb
  calls : c.calls = t.calls

variable {c c' : Cache K V} {t : Lru K V} {k : K} {v : V}

/-- the callback is told of a list of entries, one after another -/
def callAll (c : Cache K V) (l : List (Item K V)) : List (K × V) :=
  if c.cb then c.calls ++ l.map fun x => (x.key, x.val) else c.calls

omit [LinearOrder K] in
@[simp] theorem callAll_nil (c : Cache K V) : callAll c [] = c.calls := by simp [callAll]

omit [LinearOrder K] in
theorem callAll_cons {cache : Index K} {keys : NodeList (Item K V)} (m : List (Item K V)) :
    callAll { c with calls := call c x, cache := cache, keys := keys, timed := timed } m = callAll c (x :: m) := by
  unfold callAll call
  split_ifs <;> simp

theorem Rel.tell_eq (h : Rel c t) (m : List (Item K V)) : callAll c m = t.tell m := by
  rw [callAll, Lru.tell, h.cb, h.calls]

/-- the callback is told of the entries that go; nothing else changes beside them -/
structure Told (c : Cache K V) (gone : List (Item K V)) (c' : Cache K V) : Prop where
  calls : c'.calls = callAll c gone
  max : c'.maxSize = c.maxSize
  elastic : c'.elasticity = c.elasticity
  cb : c'.cb = c.cb

namespace Told

variable {stay gone : List (Item K V)}

omit [LinearOrder K] in
theorem refl (c : Cache K V) : Told c [] c := ⟨(callAll_nil c).symm, rfl, rfl, rfl⟩

omit [LinearOrder K] in
theorem cons {cache : Index K} {keys : NodeList (Item K V)}
    (h : Told { c with calls := call c x, cache := cache, keys := keys, timed := timed } gone c') :
    Told c (x :: gone) c' :=
  ⟨h.calls.trans (callAll_cons gone), h.max, h.elastic, h.cb⟩

theorem rel (ht : Told c gone c') (h : Rel c t) (hinv : Inv c') (hvals : c'.keys.vals = stay) :
    Rel c' { t with entries := stay, calls := t.tell gone } :=
  ⟨hinv, hvals, ht.max.trans h.max, ht.elastic.trans h.elastic, ht.cb.trans h.cb, ht.calls.trans (h.tell_eq gone)⟩

end Told

theorem dropBack_spec {m : List (Item K V)} (h : Inv c) (hsplit : c.keys.vals = m ++ [x]) :
    ∃ c₁, dropBack c = some c₁ ∧ (Inv c₁ ∧ c₁.maxSize = c.maxSize) ∧ c₁.keys.vals = m ∧
      ∀ gone c', Told c₁ gone c' → Told c (x :: gone) c' := by
  obtain ⟨a, y, hb, hback, -⟩ :=
    exists_back (l := c.keys) (n := m.length) (by rw [hsplit, length_append, length_singleton])
  obtain ⟨rfl, rfl⟩ := append_singleton_inj.1 (hsplit.symm.trans hback)
  have hx : (a, x) ∈ c.keys.nodes := mem_of_getLast? hb
  simp only [dropBack, hb, h.timed.erase_eq hx]
  refine ⟨_, rfl, ⟨⟨h.linked.popBack hb, (h.timed.keep a).congr fun n => ?_⟩, rfl⟩, rfl, fun gone c' ht => ht.cons⟩
  rw [nodes_popBack_eq hb, nodes_keep]

theorem prune_spec (h : Rel c t) : ∃ c', prune c = some (c', t.dropped.length) ∧ Rel c' t.prune := by
  have hfull := full_iff t.maxSize (t.maxSize + t.elasticity) t.entries
  have hallowed : getMaxAllowedSize c = t.maxSize + t.elasticity := by rw [getMaxAllowedSize, h.max, h.elastic]
  rw [prune, hallowed, h.inv.linked.card, h.entries, h.max]
  by_cases hc : t.maxSize = 0 ∨ t.entries.length < (t.maxSize + t.elasticity).toNat
  · have hn : ¬ Recency.Full t.maxSize.toNat (t.maxSize + t.elasticity).toNat t.entries := fun hf => hfull.1 hf hc
    have hdrop : t.dropped = [] := by rw [Lru.dropped, Recency.dropped, if_neg hn]
    rw [if_pos hc]
    refine ⟨c, by rw [hdrop]; rfl, ?_⟩
    rw [Lru.prune, Recency.prune, if_neg hn, hdrop]
    exact (Told.refl c).rel h h.inv h.entries
  · have hdrop : t.dropped = (t.entries.drop t.maxSize.toNat).reverse := by
      rw [Lru.dropped, Recency.dropped, if_pos (hfull.2 hc)]
    obtain ⟨c', hrun, ⟨hinv, -⟩, hvals, ht⟩ := pruneLoop_spec tooMany dropBack
      (fun b => Inv b ∧ b.maxSize = t.maxSize) (fun b => b.keys.vals) Told t.maxSize.toNat
      (fun b hb => by rw [tooMany, hb.1.linked.card, hb.2, decide_eq_true_iff]) (fun b _ => .refl b)
      (fun b l x hb hsplit => hb.2 ▸ dropBack_spec hb.1 hsplit) c.keys.nodes.length 0 c ⟨h.inv, h.max⟩ (length_vals _)
    rw [h.entries] at hrun hvals ht
    rw [if_neg hc, hrun, Nat.zero_add, Lru.prune, Recency.prune, if_pos (hfull.2 hc), hdrop, length_reverse]
    have h' := ht.rel h hinv hvals
    exact ⟨_, rfl, ⟨h'.inv.linked, h'.inv.timed⟩, h'.entries, h'.max, h'.elastic, h'.cb, h'.calls⟩

/-- the entries in the order of the deadline set -/
def items (l : NodeList (Item K V)) (timed : List ℕ) : List (Item K V) := timed.filterMap l.deref

omit [LinearOrder K] in
theorem items_cons (hx : (a, x) ∈ l.nodes) (rest : List ℕ) : items l (a :: rest) = x :: items l rest := by
  rw [items, filterMap_cons_some (deref_iff.2 hx)]
  rfl

omit [LinearOrder K] in
theorem items_keep {rest : List ℕ} (ha : a ∉ rest) : items (l.keep fun n => n.1 != a) rest = items l rest := by
  refine filterMap_congr fun b hb => ?_
  have hba : b ≠ a := fun h => ha (h ▸ hb)
  refine Option.ext fun y => ?_
  rw [deref_iff, deref_iff, nodes_keep, mem_filter]
  simp [hba]

omit [LinearOrder K] in
theorem filter_keep {p : Item K V → Bool} (hx : (a, x) ∈ l.nodes) (hp : p x = false) :
    (l.keep fun n => n.1 != a).vals.filter p = l.vals.filter p := by
  rw [vals, vals, filter_map, filter_map, nodes_keep, filter_filter]
  congr 1
  refine filter_congr fun n hn => ?_
  by_cases hna : n.1 = a
  · obtain rfl : n = (a, x) := inj_on_of_nodup_map l.nodup hn hx hna
    simp [hp]
  · simp [hna]

omit [LinearOrder K] in
theorem items_perm (hn : timed.Nodup) (hmem : ∀ a, a ∈ timed ↔ a ∈ l.nodes.map Prod.fst) :
    (items l timed).Perm l.vals := by
  have hp : timed.Perm (l.nodes.map Prod.fst) := (perm_ext_iff_of_nodup hn l.nodup).2 hmem
  have hvals : (l.nodes.map Prod.fst).filterMap l.deref = l.vals := by
    rw [filterMap_map, vals, ← filterMap_eq_map]
    exact filterMap_congr fun n hn => deref_iff.2 hn
  rw [← hvals]
  exact hp.filterMap _

theorem items_sorted (h : Timed l timed) : (items l timed).Pairwise fun x y => x.rank < y.rank := by
  refine Pairwise.filterMap _ ?_ h.sorted
  intro a b hab x hx y hy
  rw [rank_of_mem (deref_iff.1 hx), rank_of_mem (deref_iff.1 hy)] at hab
  exact WithBot.coe_lt_coe.1 hab

theorem eq_byDeadline {m m' : List (Item K V)} (hs : m.Pairwise fun x y => x.rank < y.rank) (hp : m.Perm m') :
    m = byDeadline m' := by
  have hp' : m.Perm (byDeadline m') := hp.trans (perm_insertionSort _ _).symm
  refine hp'.eq_of_pairwise ?_ (hs.imp le_of_lt) (pairwise_insertionSort _ _)
  intro x y hx hy h1 h2
  exact Sorted.inj hs hx (hp'.mem_iff.2 hy) (le_antisymm h1 h2)

theorem checkTimeoutLoop_spec (ts size : ℕ) (s : List ℕ) (h : Inv c) (hs : c.timed = s) :
    let due := (items c.keys s).takeWhile fun x => decide (x.ts ≤ ts)
    ∃ c', checkTimeoutLoop ts s c size = some (c', size + due.length) ∧ Inv c' ∧
      c'.keys.vals = c.keys.vals.filter (fun x => !decide (x.ts ≤ ts)) ∧ Told c due c' := by
  intro due
  induction s generalizing c size with
  | nil =>
    have hnil : c.keys.vals = [] := by
      have hp := items_perm h.timed.nodup h.timed.mem
      rw [hs] at hp
      exact nil_perm.1 hp
    exact ⟨c, rfl, h, by rw [hnil]; rfl, .refl c⟩
  | cons a rest ih =>
    obtain ⟨x, hx⟩ := mem_addr.1 ((h.timed.mem a).1 (by rw [hs]; exact mem_cons_self))
    have hnodup : (a :: rest).Nodup := hs ▸ h.timed.nodup
    have hitems : items c.keys (a :: rest) = x :: items c.keys rest := items_cons hx rest
    by_cases hts : x.ts ≤ ts
    · have herase : c.timed.erase a = rest := by rw [hs, erase_cons_head]
      let c₁ : Cache K V := { c with
        calls := call c x
        cache := c.cache.erase x.key
        keys := c.keys.keep fun n => n.1 != a
        timed := rest }
      have h₁ : Inv c₁ := by
        refine ⟨h.linked.erase hx, ?_⟩
        have htimed := h.timed.keep a
        rw [herase] at htimed
        exact htimed
      obtain ⟨c', hrun, hinv, hvals, ht⟩ := ih (c := c₁) (size + 1) h₁ rfl
      have hdue : due = x :: (items c₁.keys rest).takeWhile fun x => decide (x.ts ≤ ts) := by
        have hrest : items c₁.keys rest = items c.keys rest := items_keep (nodup_cons.1 hnodup).1
        simp [due, hitems, hts, hrest]
      rw [filter_keep hx (by simpa using hts)] at hvals
      rw [hdue, length_cons]
      refine ⟨c', ?_, hinv, hvals, ht.cons⟩
      simp only [checkTimeoutLoop, deref_iff.2 hx, if_pos hts, erase_eq hx]
      rw [hrun]
      congr 2
      omega
    · have hall : ∀ y ∈ c.keys.vals, ¬ y.ts ≤ ts := by
        intro y hy
        have hp := items_perm h.timed.nodup h.timed.mem
        have hsort := items_sorted h.timed
        rw [hs, hitems] at hp hsort
        rcases mem_cons.1 (hp.mem_iff.2 hy) with rfl | hy
        · exact hts
        · have hxy : x.rank < y.rank := (pairwise_cons.1 hsort).1 y hy
          have hle := Item.ts_le_of_rank hxy
          omega
      have hdue : due = [] := by simp [due, hitems, hts]
      have hstay : c.keys.vals.filter (fun x => !decide (x.ts ≤ ts)) = c.keys.vals :=
        filter_eq_self.2 fun y hy => by simpa using hall y hy
      rw [hdue, hstay]
      exact ⟨c, by simp [checkTimeoutLoop, deref_iff.2 hx, if_neg hts], h, rfl, .refl c⟩

theorem checkTimeout_spec (h : Rel c t) (ts : ℕ) :
    ∃ c', checkTimeout c ts = some (c', (t.expired ts).length) ∧ Rel c' (t.checkTimeout ts) := by
  obtain ⟨c', hrun, hinv, hvals, ht⟩ := checkTimeoutLoop_spec ts 0 c.timed h.inv rfl
  have hmono : ∀ x y : Item K V, x.rank < y.rank → decide (y.ts ≤ ts) = true → decide (x.ts ≤ ts) = true := by
    intro x y hxy hy
    have hle := Item.ts_le_of_rank hxy
    simp only [decide_eq_true_eq] at hy ⊢
    omega
  have hdue : (items c.keys c.timed).takeWhile (fun x => decide (x.ts ≤ ts)) = byDeadline (t.expired ts) := by
    have hs := items_sorted h.inv.timed
    rw [takeWhile_filter hmono hs]
    refine eq_byDeadline (hs.filter _) ?_
    rw [Lru.expired, ← h.entries]
    exact (items_perm h.inv.timed.nodup h.inv.timed.mem).filter _
  have hlen : (byDeadline (t.expired ts)).length = (t.expired ts).length := length_insertionSort _ _
  rw [hdue] at hrun ht
  refine ⟨c', by rw [checkTimeout, hrun, hlen, Nat.zero_add], ?_⟩
  rw [Lru.checkTimeout, ← h.entries]
  exact ht.rel h hinv hvals

theorem set_present (h : Rel c t) {expired now : ℕ} (hd : expired + now < 2 ^ 64) (hk : c.cache.lookup k = some a) :
    ∃ c', set c k v expired now = some c' ∧ Rel c' (t.touch ⟨k, v, expired + now⟩) := by
  obtain ⟨x, hx, rfl, -⟩ := h.inv.linked.find_eq hk
  let f : Item K V → Item K V := fun y => { y with val := v, ts := (expired + now) % 2 ^ 64 }
  have hf : ∀ y, (f y).key = y.key := fun _ => rfl
  -- the list after the splice, then after the assignments
  let l₁ := c.keys.consKeep a x hx
  have hl₁ : Linked Item.key c.cache l₁ := h.inv.linked.splice hx
  have hx₁ : (a, x) ∈ l₁.nodes := mem_cons_self
  have ht₁ : Timed l₁ c.timed := h.inv.timed.congr (mem_consKeep hx)
  obtain ⟨l₂, hmod, hnodes⟩ := modify_eq f hx₁
  have hl₂ : Linked Item.key c.cache l₂ := hl₁.modify hf hnodes
  have hx₂ : (a, f x) ∈ l₂.nodes := (hl₁.remove_modify hf hx₁ hnodes).1
  have haddr : l₂.nodes.map Prod.fst = l₁.nodes.map Prod.fst := by
    rw [hnodes, map_map]
    refine map_congr_left fun n _ => ?_
    simp only [Function.comp_apply]
    split_ifs <;> rfl
  have hsorted : Sorted (rank l₂) (c.timed.erase a) := by
    refine Timed.sorted_congr (ht₁.sorted.erase a) fun b hb => ?_
    obtain ⟨hb', hba⟩ := (ht₁.mem_erase b).1 hb
    obtain ⟨y, hy⟩ := mem_addr.1 hb'
    refine ⟨y, hy, ?_⟩
    rw [hnodes]
    exact mem_map.2 ⟨_, hy, if_neg hba⟩
  obtain ⟨timed, hins, ht₂⟩ := timedInsert_spec hl₂ hsorted hx₂ fun b => by rw [haddr, ht₁.mem_erase b]
  have hitem : f x = ⟨x.key, v, expired + now⟩ := by simp only [f, Nat.mod_eq_of_lt hd]
  have hvals : l₂.vals = Recency.touch Item.key (f x) t.entries := by
    rw [vals_modify_consKeep hx hnodes, h.inv.linked.vals_erase hx, h.entries]
    rfl
  refine ⟨{ c with keys := l₂, timed := timed, status := c.status.incSet }, ?_, ⟨hl₂, ht₂⟩, ?_, h.max, h.elastic,
    h.cb, h.calls⟩
  · have herase : timedErase (c.keys.consKeep a x hx) a c.timed = some (c.timed.erase a) := ht₁.erase_eq hx₁
    simp only [l₁, f] at hmod
    simp only [set, hk, splice_eq hx, herase, hmod, hins, bind_eq_bind, bind_some]
  · rw [hvals, hitem]
    rfl

theorem set_absent (h : Rel c t) {expired now : ℕ} (hd : expired + now < 2 ^ 64) (hk : c.cache.lookup k = none) :
    ∃ c', set c k v expired now = some c' ∧
      Rel c' (Lru.prune { t with entries := ⟨k, v, expired + now⟩ :: t.entries }) := by
  let x : Item K V := ⟨k, v, expired + now⟩
  let l₁ := c.keys.emplaceFront x
  have hl₁ : Linked Item.key (Index.emplace c.cache k c.keys.next) l₁ := h.inv.linked.emplaceFront (x := x) hk
  have hx₁ : (c.keys.next, x) ∈ l₁.nodes := mem_cons_self
  have hsorted : Sorted (rank l₁) c.timed := by
    refine Timed.sorted_congr h.inv.timed.sorted fun b hb => ?_
    obtain ⟨y, hy⟩ := mem_addr.1 ((h.inv.timed.mem b).1 hb)
    exact ⟨y, hy, mem_cons_of_mem _ hy⟩
  have hmem : ∀ b, b ∈ c.timed ↔ b ∈ l₁.nodes.map Prod.fst ∧ b ≠ c.keys.next := by
    intro b
    rw [h.inv.timed.mem b, nodes_emplaceFront, map_cons, mem_cons]
    constructor
    · intro hb
      refine ⟨.inr hb, fun he => ?_⟩
      exact c.keys.next_notMem (he ▸ hb)
    · rintro ⟨hb | hb, hne⟩
      · exact absurd hb hne
      · exact hb
  obtain ⟨timed, hins, ht₁⟩ := timedInsert_spec hl₁ hsorted hx₁ hmem
  let c₁ : Cache K V := { c with
    keys := l₁
    cache := Index.emplace c.cache k c.keys.next
    timed := timed
    status := c.status.incSet }
  have h₁ : Rel c₁ { t with entries := x :: t.entries } := by
    refine ⟨⟨hl₁, ht₁⟩, ?_, h.max, h.elastic, h.cb, h.calls⟩
    rw [← h.entries]
    rfl
  obtain ⟨c', hrun, h'⟩ := prune_spec h₁
  refine ⟨c', ?_, h'⟩
  simp only [set, hk, Nat.mod_eq_of_lt hd, begin_emplaceFront, bind_eq_bind, bind_some]
  rw [hins, bind_some, hrun]
  rfl

/-- the deadline a call gives, without bound -/
def callDeadline : Op K V → ℕ
  | .set _ _ expired now => expired + now
  | _ => 0

/-- the time of `set` and its expiry add up to a deadline below 2^64 -/
def Bounded (o : Op K V) : Prop := callDeadline o < 2 ^ 64

instance : DecidablePred (Bounded : Op K V → Prop) := fun o => inferInstanceAs (Decidable (callDeadline o < 2 ^ 64))

theorem step_simulates [Inhabited V] : Simulates (Rel (K := K) (V := V)) step Lru.step (fun _ o => Bounded o) := by
  intro c t o h ho
  cases o with
  | set k v expired now =>
    cases hk : c.cache.lookup k with
    | some a =>
      obtain ⟨x, -, -, hfind⟩ := h.inv.linked.find_eq hk
      rw [h.entries] at hfind
      obtain ⟨c', hset, h'⟩ := set_present (v := v) h ho hk
      simp only [step, hset, map_some, Lru.step, hfind]
      exact ⟨_, rfl, h'⟩
    | none =>
      have hfind := h.inv.linked.find_eq_none hk
      rw [h.entries] at hfind
      obtain ⟨c', hset, h'⟩ := set_absent (v := v) h ho hk
      simp only [step, hset, map_some, Lru.step, hfind]
      exact ⟨_, rfl, h'⟩
  | get k | getValue k =>
    simp only [step, get, getValue, getBy, Lru.step]
    cases hk : c.cache.lookup k with
    | none =>
      have hfind : Recency.find Item.key k t.entries = none := h.entries ▸ h.inv.linked.find_eq_none hk
      rw [hfind]
      exact ⟨_, rfl, ⟨h.inv.linked, h.inv.timed⟩, h.entries, h.max, h.elastic, h.cb, h.calls⟩
    | some a =>
      obtain ⟨x, keys, hs, hd, hmem, hfind, hvals⟩ := h.inv.linked.access_eq hk
      rw [h.entries] at hfind hvals
      simp only [hit, hs, hd, hfind, bind_eq_bind, bind_some, map_some]
      exact ⟨_, rfl, ⟨h.inv.linked.congr hmem, h.inv.timed.congr hmem⟩, hvals, h.max, h.elastic, h.cb, h.calls⟩
  | del k =>
    simp only [step, del, Lru.step]
    cases hk : c.cache.lookup k with
    | none =>
      have hfind : Recency.find Item.key k t.entries = none := h.entries ▸ h.inv.linked.find_eq_none hk
      rw [hfind, Recency.remove_eq_self hfind]
      exact ⟨_, rfl, ⟨h.inv.linked, h.inv.timed⟩, h.entries, h.max, h.elastic, h.cb, h.calls⟩
    | some a =>
      obtain ⟨x, hx, herase, hl', hfind, hvals⟩ := h.inv.linked.remove_eq hk
      rw [h.entries] at hfind hvals
      simp only [h.inv.timed.erase_eq hx, herase, hfind, bind_eq_bind, bind_some, map_some,
        Option.isSome_some]
      exact ⟨_, rfl, ⟨hl', h.inv.timed.keep a⟩, hvals, h.max, h.elastic, h.cb, h.calls⟩
  | exists_ k | size | empty =>
    refine ⟨c, ?_, h⟩
    simp only [step, exists_, size, empty, h.inv.linked.isSome_lookup, h.inv.linked.card, h.entries, Lru.step]
  | clear => exact ⟨_, rfl, ⟨Linked.nil _ rfl, Timed.nil rfl⟩, rfl, h.max, h.elastic, h.cb, h.calls⟩
  | setMaxSize n => exact ⟨_, rfl, ⟨h.inv.linked, h.inv.timed⟩, h.entries, rfl, h.elastic, h.cb, h.calls⟩
  | setElasticity n => exact ⟨_, rfl, ⟨h.inv.linked, h.inv.timed⟩, h.entries, h.max, rfl, h.cb, h.calls⟩
  | setPruneCallback cb => exact ⟨_, rfl, ⟨h.inv.linked, h.inv.timed⟩, h.entries, h.max, h.elastic, rfl, h.calls⟩
  | checkTimeout ts =>
    obtain ⟨c', hrun, h'⟩ := checkTimeout_spec h ts
    simp only [step, hrun, map_some, Lru.step]
    exact ⟨_, rfl, h'⟩
  | prune =>
    obtain ⟨c', hrun, h'⟩ := prune_spec h
    simp only [step, hrun, map_some, Lru.step]
    exact ⟨_, rfl, h'⟩

theorem rel_init (maxSize elasticity : UInt64) :
    Rel (init maxSize elasticity : Cache K V) (Lru.init maxSize elasticity) :=
  ⟨⟨Linked.nil _ rfl, Timed.nil rfl⟩, rfl, rfl, rfl, rfl, rfl⟩

/-! ## Whole runs -/

/-- **TimedLruCache keeps its three containers in step.** -/
theorem timedLruCache_refines [Inhabited V] (maxSize elasticity : UInt64) (ops : List (Op K V))
    (h : ∀ o ∈ ops, Bounded o) :
    let spec := play Lru.step (Lru.init maxSize elasticity) ops
    ∃ c, exec step (init maxSize elasticity) ops = some (c, spec.2) ∧
      Linked Item.key c.cache c.keys ∧ Timed c.keys c.timed ∧ items c.keys c.timed = byDeadline c.keys.vals ∧
      c.keys.vals = spec.1.entries ∧ c.calls = spec.1.calls := by
  obtain ⟨c, hrun, hc⟩ := step_simulates.exec_eq (rel_init (K := K) (V := V) maxSize elasticity) (meets_of_forall h _)
  refine ⟨c, hrun, hc.inv.linked, hc.inv.timed, ?_, hc.entries, hc.calls⟩
  exact eq_byDeadline (items_sorted hc.inv.timed) (items_perm hc.inv.timed.nodup hc.inv.timed.mem)

/-- three entries with max size 2: the oldest is pruned, then one expires -/
theorem timedLruCache_refines_three :
    let ops : List (Op ℕ ℕ) :=
      [.setPruneCallback true, .set 1 10 5 100, .set 2 20 50 100, .set 3 30 7 101, .set 2 21 1 102,
        .checkTimeout 105, .get 3]
    (exec step (init 2 0) ops).map (fun r => (r.1.keys.vals, r.1.calls, r.2.drop 5)) =
      some ([⟨3, 30, 108⟩], [(1, 10), (2, 21)], [.count 1, .found (some 30)]) ∧
    ∃ c, exec step (init 2 0) ops = some (c, (play Lru.step (Lru.init 2 0) ops).2) ∧
      Linked Item.key c.cache c.keys ∧ Timed c.keys c.timed ∧ items c.keys c.timed = byDeadline c.keys.vals ∧
      c.keys.vals = (play Lru.step (Lru.init 2 0) ops).1.entries ∧
      c.calls = (play Lru.step (Lru.init 2 0) ops).1.calls :=
  ⟨by decide, timedLruCache_refines 2 0 _ (by decide)⟩

end CoServer.DataStruct.TimedLruCache
