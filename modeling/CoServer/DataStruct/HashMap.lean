/-
`HashMap` (include/datastruct/hash_map.h): a finite map in a table of sorted buckets.

The class's functions on a `Table` of pairs, lock calls included, for any hash function and any keys in a linear order;
a state is a family of maps, since `merge` and `swap` name two of them. The abstract model is a family of finite maps.

Results:
- `hashMap_refines`: for any family of maps of any initial sizes, any hash function and any run in which every map keeps
  fewer than 2^31 keys and no map is swapped with itself, no call faults, every answer is that of the finite maps, and
  after the run `getTotal` is the number of keys and `rforeach` hands every entry to its callback, each key once.
- `swap_self_hangs`: a map swapped with itself returns, its second lock refused and then released all the same: the next
  call that locks for writing returns, and the one after that does not.
- `clear_right_iff`: after `clear`, whatever the map was, the following calls answer as on an empty map iff all of them
  are `rehash`.
- `set_after_clear`: a `set` after `clear` takes the hash value modulo 0.
-/
import CoServer.DataStruct.Represents
import CoServer.Core.Refine

namespace CoServer.DataStruct.HashMap

open CoServer.Core Buckets Function List Option Finmap

variable {K V ι σ : Type} [LinearOrder K]

/-! ## The code -/

/-- `Node::operator<` -/
def less (a b : K × V) : Bool := decide (a.1 < b.1)

/-- the two loops of `rforeach`, left when the callback returns false -/
def visit (cb : σ → K → V → σ × Bool) : σ → List (K × V) → σ
  | s, [] => s
  | s, n :: nodes => if (cb s n.1 n.2).2 then visit cb (cb s n.1 n.2).1 nodes else (cb s n.1 n.2).1

/-- the callback works on a state of its own -/
def rforeach (t : Table (K × V)) (cb : σ → K → V → σ × Bool) (s : σ) : Option (Table (K × V) × σ) := do
  let t := rdlock t
  some (unlock t, visit cb s (t.datas.take t.size).flatten)

def getTotal (t : Table (K × V)) : ℕ := t.total

section

variable [Inhabited V] (hash : K → UInt64)

variable (t : Table (K × V))

/-- `get`: the value it stores through its reference argument, if it returns true -/
def get (k : K) : Option (Table (K × V) × Option V) := do
  let t := rdlock t
  let (bucket, it) ← locate hash Prod.fst less t (k, default)
  match it with
  | none => some (unlock t, none)
  | some i => do
    let n ← bucket[i]?
    some (unlock t, some n.2)

/-- `exists` -/
def existsKey (k : K) : Option (Table (K × V) × Bool) := do
  let t := rdlock t
  let (_, it) ← locate hash Prod.fst less t (k, default)
  some (unlock t, it.isSome)

def set (k : K) (v : V) : Option (Table (K × V) × Bool) := do
  let t ← rehashIfNeeded hash Prod.fst less t
  let t := rdlock t
  let (bucket, it) ← locate hash Prod.fst less t (k, default)
  match it with
  | none => some (unlock (add hash Prod.fst less t bucket (k, v)), true)
  | some i => do
    let n ← bucket[i]?
    some (unlock (assign hash Prod.fst t bucket i (n.1, v)), false)

def del (k : K) : Option (Table (K × V) × Bool) := do
  let t := rdlock t
  let (bucket, it) ← locate hash Prod.fst less t (k, default)
  match it with
  | none => some (unlock t, false)
  | some i => some (unlock (remove hash less t k bucket i), true)

/-- the loop of `merge` -/
def setAll : Table (K × V) → List (K × V) → Option (Table (K × V))
  | t, [] => some t
  | t, n :: nodes => do
    let (t, _) ← set hash t n.1 n.2
    setAll t nodes

end

variable [DecidableEq ι]

/-- `m.merge(oth)` -/
def merge [Inhabited V] (hash : K → UInt64) (w : ι → Table (K × V)) (m oth : ι) : Option (ι → Table (K × V)) := do
  let (t, tmp) ← rforeach (w oth) (fun tmp k v => (tmp ++ [(k, v)], true)) []
  let w := update w oth t
  let t ← setAll hash (w m) tmp
  some (update w m t)

/-- the exchange of `_total`, `_size` and `_datas` in `swap` -/
def exchange (w : ι → Table (K × V)) (m oth : ι) : ι → Table (K × V) :=
  let put (s t : Table (K × V)) := { s with total := t.total, size := t.size, datas := t.datas }
  update (update w m (put (w m) (w oth))) oth (put (w oth) (w m))

/-- `m.swap(oth)`; the locks are released in the reverse order -/
def swap (w : ι → Table (K × V)) (m oth : ι) : Option (ι → Table (K × V)) := do
  let a ← wrlock (w m)
  let w := update w m a
  let b ← wrlock (w oth)
  let w := exchange (update w oth b) m oth
  let w := update w oth (unlock (w oth))
  some (update w m (unlock (w m)))

inductive Op (ι K V : Type) where
  | set (m : ι) (k : K) (v : V)
  | get (m : ι) (k : K)
  | existsKey (m : ι) (k : K)
  | del (m : ι) (k : K)
  | merge (m oth : ι)
  | swap (m oth : ι)
  | rehash (m : ι)

inductive Answer (V : Type) where
  | done
  | flag (b : Bool)
  | found (v : Option V)
deriving DecidableEq

/-- one call of a program that uses several maps -/
def step [Inhabited V] (hash : K → UInt64) (w : ι → Table (K × V)) : Op ι K V → Option ((ι → Table (K × V)) × Answer V)
  | .set m k v => (set hash (w m) k v).map fun r => (update w m r.1, .flag r.2)
  | .get m k => (get hash (w m) k).map fun r => (update w m r.1, .found r.2)
  | .existsKey m k => (existsKey hash (w m) k).map fun r => (update w m r.1, .flag r.2)
  | .del m k => (del hash (w m) k).map fun r => (update w m r.1, .flag r.2)
  | .merge m oth => (merge hash w m oth).map fun w' => (w', .done)
  | .swap m oth => (swap w m oth).map fun w' => (w', .done)
  | .rehash m => (rehash hash Prod.fst less (w m)).map fun t => (update w m t, .done)

/-! ## Finite maps -/

namespace Spec

variable (f : ι → Finmap fun _ : K => V)

/-- one call on a family of finite maps -/
def step : Op ι K V → (ι → Finmap fun _ : K => V) × Answer V
  | .set m k v => (update f m ((f m).insert k v), .flag (decide (k ∉ f m)))
  | .get m k => (f, .found ((f m).lookup k))
  | .existsKey m k => (f, .flag (decide (k ∈ f m)))
  | .del m k => (update f m ((f m).erase k), .flag (decide (k ∈ f m)))
  | .merge m oth => (update f m (f oth ∪ f m), .done)
  | .swap m oth => (update (update f m (f oth)) oth (f m), .done)
  | .rehash _ => (f, .done)

/-- the calls under which the map refines this one: two maps are swapped, and every map keeps fewer than 2^31 keys -/
def Admitted (o : Op ι K V) : Prop :=
  (∀ m oth, o = .swap m oth → m ≠ oth) ∧ ∀ m, ((step f o).1 m).keys.card < 2 ^ 31

end Spec

/-! ## One call on one map -/

variable {hash : K → UInt64} {t : Table (K × V)} {f : Finmap fun _ : K => V} {k : K} {v : V}

theorem less_keyed : OrderedSet.Keyed (less (K := K) (V := V)) Prod.fst := by
  intro a b
  exact decide_eq_true_iff

/-- a node is the pair of its key and its value -/
abbrev Rel (hash : K → UInt64) (t : Table (K × V)) (f : Finmap fun _ : K => V) : Prop :=
  Represents hash Prod.fst Prod.mk t f

theorem mem_flatten_iff (h : Rel hash t f) : (k, v) ∈ t.datas.flatten ↔ f.lookup k = some v := by
  rw [mem_flatten h.wf, h.entries]
  simp

section

variable [Inhabited V]

section

variable (h : Rel hash t f)
include h

theorem get_eq (k : K) : get hash t k = some (t, f.lookup k) := by
  obtain ⟨b, -, ⟨a, v, c, rfl, hv, hloc⟩ | ⟨hk, hloc⟩⟩ := h.locate less_keyed (k, default) rfl
  · have hn : (a ++ (k, v) :: c)[a.length]? = some (k, v) := by simp
    simp [get, rdlock_of_free h.free, hloc, hv, unlock_locked h.free]
  · simp only [get, rdlock_of_free h.free, bind_eq_bind, bind_some, hloc, lookup_eq_none.2 hk, unlock_locked h.free]

theorem existsKey_eq (k : K) : existsKey hash t k = some (t, decide (k ∈ f)) := by
  obtain ⟨b, -, ⟨a, v, c, -, hv, hloc⟩ | ⟨hk, hloc⟩⟩ := h.locate less_keyed (k, default) rfl
  · have hk : k ∈ f := mem_of_lookup_eq_some hv
    simp [existsKey, rdlock_of_free h.free, hloc, unlock_locked h.free, hk]
  · simp [existsKey, rdlock_of_free h.free, hloc, unlock_locked h.free, hk]

theorem rel_set (hlt : (f.insert k v).keys.card < 2 ^ 31) :
    ∃ t', set hash t k v = some (t', decide (k ∉ f)) ∧ Rel hash t' (f.insert k v) := by
  obtain ⟨t₁, ht₁, h₁⟩ := h.rehashIfNeeded less_keyed
  obtain ⟨b, hb, ⟨a, v', c, rfl, hv', hloc⟩ | ⟨hk, hloc⟩⟩ := h₁.locate less_keyed (k, default) rfl
  · have hk : k ∈ f := mem_of_lookup_eq_some hv'
    have hn : (a ++ (k, v') :: c)[a.length]? = some (k, v') := by simp
    refine ⟨_, ?_, h₁.assign (fun _ _ => rfl) hb hk v⟩
    simp only [set, ht₁, rdlock_of_free h₁.free, bind_eq_bind, bind_some, hloc, hn, hk, not_true_eq_false, decide_false]
  · refine ⟨_, ?_, h₁.add less_keyed (fun _ _ => rfl) hb hk hlt⟩
    simp only [set, ht₁, rdlock_of_free h₁.free, bind_eq_bind, bind_some, hloc, hk, not_false_eq_true, decide_true]

theorem rel_del (k : K) : ∃ t', del hash t k = some (t', decide (k ∈ f)) ∧ Rel hash t' (f.erase k) := by
  obtain ⟨b, hb, ⟨a, v, c, rfl, hv, hloc⟩ | ⟨hk, hloc⟩⟩ := h.locate less_keyed (k, default) rfl
  · have hk : k ∈ f := mem_of_lookup_eq_some hv
    refine ⟨_, ?_, h.remove less_keyed (fun _ _ => rfl) hb hk⟩
    simp [del, rdlock_of_free h.free, hloc, hk]
  · refine ⟨t, ?_, (erase_of_notMem hk).symm ▸ h⟩
    simp [del, rdlock_of_free h.free, hloc, hk, unlock_locked h.free]

end

end

/-! ## Visiting, swapping, merging -/

theorem rforeach_eq (h : Rel hash t f) (cb : σ → K → V → σ × Bool) (s : σ) :
    rforeach t cb s = some (t, visit cb s t.datas.flatten) := by
  have htake : t.datas.take t.size = t.datas := by rw [← h.wf.len, take_length]
  simp [rforeach, rdlock_of_free h.free, htake, unlock_locked h.free]

omit [LinearOrder K] in
theorem visit_collect (tmp nodes : List (K × V)) :
    visit (fun tmp k v => (tmp ++ [(k, v)], true)) tmp nodes = tmp ++ nodes := by
  induction nodes generalizing tmp with
  | nil => rw [visit, append_nil]
  | cons n nodes ih => rw [visit, if_pos rfl, ih, append_assoc, singleton_append]

section

variable (f : Finmap fun _ : K => V)

/-- the pairs inserted one after another -/
def insertAll (nodes : List (K × V)) : Finmap fun _ : K => V := nodes.foldl (fun f n => f.insert n.1 n.2) f

theorem insertAll_cons (n : K × V) (nodes : List (K × V)) :
    insertAll f (n :: nodes) = insertAll (f.insert n.1 n.2) nodes := rfl

theorem keys_subset_insertAll (nodes : List (K × V)) : f.keys ⊆ (insertAll f nodes).keys := by
  induction nodes generalizing f with
  | nil => exact Finset.Subset.refl _
  | cons n nodes ih =>
    refine Finset.Subset.trans ?_ (ih (f.insert n.1 n.2))
    rw [keys_insert]
    exact Finset.subset_insert _ _

theorem lookup_insertAll_of_notMem {nodes : List (K × V)} (hk : k ∉ nodes.map Prod.fst) :
    (insertAll f nodes).lookup k = f.lookup k := by
  induction nodes generalizing f with
  | nil => rfl
  | cons n nodes ih =>
    rw [map_cons, mem_cons, not_or] at hk
    rw [insertAll_cons, ih _ hk.2, lookup_insert_of_ne f hk.1]

theorem lookup_insertAll_of_mem {nodes : List (K × V)} (hn : (nodes.map Prod.fst).Nodup)
    (hk : (k, v) ∈ nodes) : (insertAll f nodes).lookup k = some v := by
  induction nodes generalizing f with
  | nil => cases hk
  | cons n nodes ih =>
    rw [map_cons, nodup_cons] at hn
    rw [insertAll_cons]
    rcases mem_cons.1 hk with rfl | hk
    · rw [lookup_insertAll_of_notMem _ hn.1, lookup_insert]
    · exact ih _ hn.2 hk

end

theorem insertAll_flatten (h : Rel hash t f) (g : Finmap fun _ : K => V) : insertAll g t.datas.flatten = f ∪ g := by
  refine ext_lookup fun k => ?_
  cases hk : f.lookup k with
  | none =>
    have hnot : k ∉ t.datas.flatten.map Prod.fst := by
      intro hmem
      obtain ⟨x, hx, rfl⟩ := mem_map.1 hmem
      rw [(mem_flatten_iff h).1 hx] at hk
      cases hk
    rw [lookup_insertAll_of_notMem g hnot, lookup_union_right (lookup_eq_none.1 hk)]
  | some v =>
    rw [lookup_insertAll_of_mem g (flatten_keys_nodup h.wf) ((mem_flatten_iff h).2 hk),
      lookup_union_left (mem_of_lookup_eq_some hk), hk]

variable {w : ι → Table (K × V)} {fs : ι → Finmap fun _ : K => V}

theorem rel_update (h : ∀ i, Rel hash (w i) (fs i)) {m : ι} (hm : Rel hash t f) (i : ι) :
    Rel hash (update w m t i) (update fs m f i) := by
  by_cases hi : i = m
  · subst hi
    rw [update_self, update_self]
    exact hm
  · rw [update_of_ne hi, update_of_ne hi]
    exact h i

theorem rel_exchange (h : Rel hash t f) (s : Table (K × V)) (hs : s.mutex = .write) :
    Rel hash (unlock { s with total := t.total, size := t.size, datas := t.datas }) f :=
  ⟨⟨h.wf.pow, h.wf.len, h.wf.sorted, h.wf.placed⟩, by rw [unlock, hs]; rfl, h.entries, h.total, h.few⟩

theorem rel_swap (h : ∀ i, Rel hash (w i) (fs i)) {m oth : ι} (hne : m ≠ oth) :
    ∃ w', swap w m oth = some w' ∧ ∀ i, Rel hash (w' i) (update (update fs m (fs oth)) oth (fs m) i) := by
  let a : Table (K × V) := { w m with mutex := .write }
  let b : Table (K × V) := { w oth with mutex := .write }
  have hm : wrlock (w m) = some a := wrlock_of_free (h m).free
  have hoth : wrlock (update w m a oth) = some b := by
    rw [update_of_ne hne.symm, wrlock_of_free (h oth).free]
  refine ⟨_, ?_, rel_update (rel_update h (rel_exchange (h oth) a rfl)) (rel_exchange (h m) b rfl)⟩
  simp only [swap, hm, hoth, bind_eq_bind, bind_some, some_inj]
  funext i
  by_cases hi : i = m
  · subst hi
    simp [exchange, hne, a, b]
  · by_cases ho : i = oth
    · subst ho
      simp [exchange, hi, hne, a, b]
    · simp [exchange, hi, ho]

variable [Inhabited V]

theorem rel_setAll (nodes : List (K × V)) (h : Rel hash t f) (hlt : (insertAll f nodes).keys.card < 2 ^ 31) :
    ∃ t', setAll hash t nodes = some t' ∧ Rel hash t' (insertAll f nodes) := by
  induction nodes generalizing t f with
  | nil => exact ⟨t, rfl, h⟩
  | cons n nodes ih =>
    have hone : (f.insert n.1 n.2).keys.card < 2 ^ 31 :=
      (Finset.card_le_card (keys_subset_insertAll _ nodes)).trans_lt hlt
    obtain ⟨t₁, ht₁, h₁⟩ := rel_set h hone
    obtain ⟨t', ht', h'⟩ := ih h₁ hlt
    refine ⟨t', ?_, h'⟩
    simp [setAll, ht₁, ht']

theorem rel_merge (h : ∀ i, Rel hash (w i) (fs i)) (m oth : ι) (hlt : (fs oth ∪ fs m).keys.card < 2 ^ 31) :
    ∃ w', merge hash w m oth = some w' ∧ ∀ i, Rel hash (w' i) (update fs m (fs oth ∪ fs m) i) := by
  have hcollect := rforeach_eq (h oth) (fun tmp k v => (tmp ++ [(k, v)], true)) []
  rw [visit_collect, nil_append] at hcollect
  rw [← insertAll_flatten (h oth)] at hlt ⊢
  obtain ⟨t, ht, hrel⟩ := rel_setAll _ (h m) hlt
  refine ⟨update w m t, ?_, rel_update h hrel⟩
  simp [merge, hcollect, ht]

/-! ## Runs -/

theorem step_simulates (hash : K → UInt64) :
    Simulates (fun (w : ι → Table (K × V)) fs => ∀ i, Rel hash (w i) (fs i)) (step hash) Spec.step Spec.Admitted := by
  intro w fs o h hok
  cases o with
  | set m k v =>
    have hlt := hok.2 m
    simp only [Spec.step, update_self] at hlt
    obtain ⟨t, ht, hrel⟩ := rel_set (h m) hlt
    exact ⟨_, by rw [step, ht]; rfl, rel_update h hrel⟩
  | get m k =>
    refine ⟨w, ?_, h⟩
    rw [step, get_eq (h m), map_some, update_eq_self]
    rfl
  | existsKey m k =>
    refine ⟨w, ?_, h⟩
    rw [step, existsKey_eq (h m), map_some, update_eq_self]
    rfl
  | del m k =>
    obtain ⟨t, ht, hrel⟩ := rel_del (h m) k
    exact ⟨_, by rw [step, ht]; rfl, rel_update h hrel⟩
  | merge m oth =>
    have hlt := hok.2 m
    simp only [Spec.step, update_self] at hlt
    obtain ⟨w', hw', hrel⟩ := rel_merge h m oth hlt
    exact ⟨w', by rw [step, hw']; rfl, hrel⟩
  | swap m oth =>
    obtain ⟨w', hw', hrel⟩ := rel_swap h (hok.1 m oth rfl)
    exact ⟨w', by rw [step, hw']; rfl, hrel⟩
  | rehash m =>
    obtain ⟨t, ht, hrel⟩ := (h m).rehash less_keyed
    refine ⟨_, by rw [step, ht]; rfl, fun i => ?_⟩
    have hup := rel_update (m := m) h hrel i
    rwa [update_eq_self] at hup

/-- **Maps refine finite maps.** -/
theorem hashMap_refines (hash : K → UInt64) (sizes : ι → UInt32) (ops : List (Op ι K V))
    (hops : Meets (fun f o => (Spec.step f o).1) Spec.Admitted (fun _ => ∅) ops) :
    let spec := play Spec.step (fun _ => ∅) ops
    ∃ w, exec (step hash) (fun i => init (sizes i).toNat) ops = some (w, spec.2) ∧
      ∀ i, getTotal (w i) = (spec.1 i).keys.card ∧
        ∃ nodes : List (K × V), (nodes.map Prod.fst).Nodup ∧ (∀ k v, (k, v) ∈ nodes ↔ (spec.1 i).lookup k = some v) ∧
          ∀ (σ : Type) (cb : σ → K → V → σ × Bool) (s : σ), rforeach (w i) cb s = some (w i, visit cb s nodes) := by
  have hinit : ∀ i, Rel hash (init (sizes i).toNat : Table (K × V)) ∅ := fun i => represents_init _
  obtain ⟨w, hrun, h⟩ := (step_simulates hash).exec_eq hinit hops
  refine ⟨w, hrun, fun i => ⟨(h i).total, (w i).datas.flatten, flatten_keys_nodup (h i).wf, ?_, ?_⟩⟩
  · intro k v
    exact mem_flatten_iff (h i)
  · intro σ cb s
    exact rforeach_eq (h i) cb s

theorem hashMap_refines_two :
    let ops : List (Op Bool ℕ ℕ) :=
      [.set true 1 10, .set false 1 20, .set false 2 30, .merge true false, .swap true false,
      .del true 1, .get false 1]
    ∃ w, exec (step fun k => UInt64.ofNat k) (fun _ => init 0) ops =
      some (w, [.flag true, .flag true, .flag true, .done, .done, .flag true, .found (some 20)]) ∧
      getTotal (w false) = 2 := by
  intro ops
  obtain ⟨w, hrun, h⟩ := hashMap_refines (fun k : ℕ => UInt64.ofNat k) (fun _ : Bool => 0) ops (by
    refine ⟨⟨by simp, by decide⟩, ⟨by simp, by decide⟩, ⟨by simp, by decide⟩, ⟨by simp, by decide⟩,
      ⟨by simp, by decide⟩,
      ⟨by simp, by decide⟩, ⟨by simp, by decide⟩, trivial⟩)
  exact ⟨w, hrun, (h false).1⟩

/-- **A map swapped with itself.** -/
theorem swap_self_hangs :
    let run := exec (step fun k => UInt64.ofNat k) fun _ => (init 0 : Table (ℕ × ℕ))
    let answers := fun ops => (play Spec.step (fun _ => (∅ : Finmap fun _ : ℕ => ℕ)) ops).2
    (run [.swap () (), .rehash ()]).isSome = true ∧ run [.swap () (), .rehash (), .rehash ()] = none ∧
      answers [.swap () (), .rehash (), .rehash ()] = [.done, .done, .done] := by
  refine ⟨?_, Option.isNone_iff_eq_none.1 ?_, rfl⟩
  · decide +kernel
  · decide +kernel

/-! ## `clear` -/

/-- the buckets are gone (`freeDatas` leaves a null pointer), and none are made -/
def clear (t : Table (K × V)) : Option (Table (K × V)) := do
  let t ← wrlock t
  some (unlock { t with total := 0, size := 0, datas := [] })

/-- the calls on one map -/
def Op.single : Op ι K V → Bool
  | .merge _ _ | .swap _ _ => false
  | _ => true

/-- what it leaves -/
def cleared : Table (K × V) := ⟨0, 0, [], .free⟩

omit [LinearOrder K] [Inhabited V] in
theorem clear_eq (hfree : t.mutex = .free) : clear t = some cleared := by
  simp [clear, wrlock_of_free hfree, unlock, cleared, Lock.unlock, Lock.write, Lock.free]

omit [LinearOrder K] [Inhabited V] in
theorem needRehash_cleared (m : Lock) : needRehash ({ cleared with mutex := m } : Table (K × V)) = false := by
  simp [needRehash, getRate, cleared, Double.round, Double.single]

theorem step_cleared (hash : K → UInt64) {o : Op Unit K V} (ho : o.single = true) :
    o = .rehash () ∧ step hash (fun _ => cleared) o = some (fun _ => cleared, .done) ∨
      o ≠ .rehash () ∧ step hash (fun _ => cleared) o = none := by
  cases o with
  | merge m oth | swap m oth => cases ho
  | rehash m =>
    have hkeep : rehash hash Prod.fst less (cleared : Table (K × V)) = some cleared := by
      simp only [rehash, wrlock_of_free (t := cleared) rfl, bind_eq_bind, bind_some, needRehash_cleared]
      rfl
    refine .inl ⟨rfl, ?_⟩
    rw [step, hkeep, map_some, update_eq_self]
  | set m k v =>
    refine .inr ⟨by simp, ?_⟩
    rw [step, set, rehashIfNeeded, needRehash_cleared]
    rfl
  | get m k => exact .inr ⟨by simp, rfl⟩
  | existsKey m k => exact .inr ⟨by simp, rfl⟩
  | del m k => exact .inr ⟨by simp, rfl⟩

/-- **After `clear`.** -/
theorem clear_right_iff (hash : K → UInt64) (t : Table (K × V)) (hfree : t.mutex = .free) (ops : List (Op Unit K V))
    (hops : ∀ o ∈ ops, o.single = true) :
    ∃ t', clear t = some t' ∧
      ((∃ w, exec (step hash) (fun _ => t') ops = some (w, (play Spec.step (fun _ => ∅) ops).2)) ↔
        ∀ o ∈ ops, o = .rehash ()) := by
  refine ⟨cleared, clear_eq hfree, ?_⟩
  induction ops with
  | nil => exact iff_of_true ⟨_, rfl⟩ fun o ho => absurd ho not_mem_nil
  | cons o ops ih =>
    obtain ⟨ho, hrest⟩ := forall_mem_cons.1 hops
    rw [forall_mem_cons]
    rcases step_cleared hash ho with ⟨rfl, hstep⟩ | ⟨hne, hstep⟩
    · rw [and_iff_right rfl, ← ih hrest, exec, hstep]
      refine exists_congr fun w => ?_
      cases hrun :
        exec (step hash) (fun _ : Unit => (cleared : Table (K × V))) ops <;> simp [play, Spec.step, hrun, Prod.ext_iff]
    · rw [exec, hstep]
      simp [hne]

theorem clear_right_iff_rehash :
    ∃ t', clear (init 4 : Table (ℕ × ℕ)) = some t' ∧
      ¬ ∃ w, exec (step fun k => UInt64.ofNat k) (fun _ => t') [.rehash (), .get () 1] =
        some (w, (play Spec.step (fun _ : Unit => (∅ : Finmap fun _ : ℕ => ℕ)) [.rehash (), .get () 1]).2) := by
  obtain ⟨t', hclear, hiff⟩ :=
    clear_right_iff (fun k => UInt64.ofNat k) (init 4 : Table (ℕ × ℕ)) rfl [.rehash (), .get () 1]
    (by simp [Op.single])
  exact ⟨t', hclear, fun h => absurd (hiff.1 h) (by simp)⟩

/-- **The code's bug.** -/
theorem set_after_clear :
    ∃ t', clear (init 4 : Table (ℕ × ℕ)) = some t' ∧
      exec (step fun k => UInt64.ofNat k) (fun _ : Unit => t') [.set () 1 2] = none := by
  refine ⟨cleared, clear_eq rfl, ?_⟩
  rcases step_cleared (fun k => UInt64.ofNat k) (o := .set () 1 2) rfl with ⟨heq, -⟩ | ⟨-, hstep⟩
  · cases heq
  · rw [exec, hstep]

end CoServer.DataStruct.HashMap
