/-
What the three caches of include/datastruct share: the counters (cache_status.h), what a call returns, the entries with
a deadline, the two overloads of `get` and the loop of `prune`.

`getBy` is the body of both overloads: they differ only in what they return. `pruneLoop` takes entries off one at a time
while there are more than max size; each cache gives its own test and its own round, and `pruneLoop_spec` needs to know
only what one round does.

Results:
- `getBy_value`: `V get(k)` is `bool get(k, v)` with `V()` for a key that is not there, whatever a hit does.
- `pruneLoop_spec`: if a round takes the last entry off, the loop keeps the first `limit` entries, drops the others from
  the last one upward and counts them; the test has to be exact and the rounds have to keep the invariant.
- `Item.less_keyed`: `ItemTimeOp` orders by the pair of deadline and key.
-/
import CoServer.Core.NodeList
import Mathlib.Data.Prod.Lex

namespace CoServer.DataStruct

open CoServer.Core List

/-- the counters of cache_status.h; `Atomic::addFetch` on `int64_t` wraps -/
structure CacheStatus where
  get : BitVec 64 := 0
  set : BitVec 64 := 0
  del : BitVec 64 := 0
  timeout : BitVec 64 := 0
  prune : BitVec 64 := 0
  hit : BitVec 64 := 0
deriving DecidableEq

namespace CacheStatus

variable (s : CacheStatus)

def incGet : CacheStatus := { s with get := s.get + 1 }
def incSet : CacheStatus := { s with set := s.set + 1 }
def incDel : CacheStatus := { s with del := s.del + 1 }
def incPrune (v : ℕ) : CacheStatus := { s with prune := s.prune + BitVec.ofNat 64 v }
def incHit : CacheStatus := { s with hit := s.hit + 1 }

end CacheStatus

/-- what a call of a cache returns -/
inductive Answer (V : Type) where
  | done
  | flag (b : Bool)
  | found (o : Option V)
  | value (v : V)
  | count (n : ℕ)
  /-- the end of a function that should return a value is reached without one -/
  | noReturn
deriving DecidableEq

/-- `Item` of the two timed caches: an entry with its deadline -/
structure Item (K V : Type) where
  key : K
  val : V
  ts : ℕ
deriving DecidableEq

namespace Item

variable {K V : Type} [LinearOrder K]

/-- the order of the deadline sets: by deadline, then by key -/
def less (x y : Item K V) : Bool := if x.ts ≠ y.ts then decide (x.ts < y.ts) else decide (x.key < y.key)

def rank (x : Item K V) : ℕ ×ₗ K := toLex (x.ts, x.key)

theorem less_keyed : OrderedSet.Keyed (less : Item K V → Item K V → Bool) rank := by
  intro x y
  have hlex : x.rank < y.rank ↔ x.ts < y.ts ∨ x.ts = y.ts ∧ x.key < y.key := Prod.Lex.lt_iff
  rw [hlex, less]
  by_cases hts : x.ts = y.ts
  · simp [hts]
  · simp [hts]

omit [LinearOrder K] in
theorem rank_eq {x y : Item K V} : x.rank = y.rank ↔ x.ts = y.ts ∧ x.key = y.key := by
  rw [rank, rank, toLex_inj, Prod.mk.injEq]

theorem ts_le_of_rank {x y : Item K V} (h : x.rank < y.rank) : x.ts ≤ y.ts := Prod.Lex.monotone_fst _ _ h.le

end Item

section

variable {σ A V : Type}

/-- both overloads of `get`: `it` is what the search in the index gives, `miss` the cache after a miss, `hit` what is
done with an iterator that was found; `absent` and `present` are what is returned -/
def getBy (it : Option ℕ) (miss : σ) (hit : ℕ → Option (σ × V)) (absent : A) (present : V → A) : Option (σ × A) :=
  match it with
  | none => some (miss, absent)
  | some it => (hit it).map fun (c, v) => (c, present v)

theorem getBy_value [Inhabited V] (it : Option ℕ) (miss : σ) (hit : ℕ → Option (σ × V)) :
    getBy it miss hit default id = (getBy it miss hit none some).map fun (c, o) => (c, o.getD default) := by
  cases it with
  | none => rfl
  | some it => simp [getBy, Function.comp_def]

end

section

variable {σ α : Type} (tooMany : σ → Bool) (round : σ → Option σ)

/-- the loop of `prune`: rounds while there are too many entries; every round takes one entry off, so their number
bounds the rounds -/
def pruneLoop : ℕ → σ → ℕ → Option (σ × ℕ)
  -- `back()` of an empty list
  | 0, c, count => if tooMany c then none else some (c, count)
  | fuel + 1, c, count =>
    if tooMany c then
      match round c with
      | none => none
      | some c => pruneLoop fuel c (count + 1)
    else some (c, count)

variable (Inv : σ → Prop) (vals : σ → List α) (R : σ → List α → σ → Prop) (limit : ℕ)

/-- each round takes the last value, so the loop takes those past the limit -/
theorem pruneLoop_spec (hfull : ∀ c, Inv c → (tooMany c = true ↔ limit < (vals c).length))
    (hnil : ∀ c, Inv c → R c [] c)
    (hround : ∀ c l x, Inv c → vals c = l ++ [x] →
      ∃ c₁, round c = some c₁ ∧ Inv c₁ ∧ vals c₁ = l ∧ ∀ gone c', R c₁ gone c' → R c (x :: gone) c')
    (fuel count : ℕ) (c : σ) (hc : Inv c) (hf : (vals c).length = fuel) :
    ∃ c', pruneLoop tooMany round fuel c count = some (c', count + ((vals c).drop limit).length) ∧ Inv c' ∧
      vals c' = (vals c).take limit ∧ R c ((vals c).drop limit).reverse c' := by
  induction fuel generalizing c count with
  | zero =>
    have hnot : ¬ tooMany c = true := fun h => by
      have := (hfull c hc).1 h
      omega
    have hle : (vals c).length ≤ limit := by omega
    rw [pruneLoop, if_neg hnot, drop_eq_nil_of_le hle, take_of_length_le hle]
    exact ⟨c, rfl, hc, rfl, hnil c hc⟩
  | succ fuel ih =>
    by_cases hlt : limit < (vals c).length
    · have hne : vals c ≠ [] := ne_nil_of_length_eq_add_one hf
      obtain ⟨l, x, hsplit⟩ : ∃ l x, vals c = l ++ [x] := ⟨_, _, (dropLast_append_getLast hne).symm⟩
      obtain ⟨c₁, hr, hc₁, hvals, hR⟩ := hround c l x hc hsplit
      have hlen : limit ≤ l.length ∧ l.length = fuel := by
        rw [hsplit, length_append, length_singleton] at hlt hf
        omega
      obtain ⟨c', hrun, hc', hv, hd⟩ := ih (count + 1) c₁ hc₁ (by rw [hvals]; exact hlen.2)
      rw [hvals] at hrun hv hd
      rw [pruneLoop, if_pos ((hfull c hc).2 hlt), hr, hsplit, take_append_of_le_length hlen.1,
        drop_append_of_le_length hlen.1]
      refine ⟨c', ?_, hc', hv, ?_⟩
      · simp only [hrun, length_append, length_singleton]
        congr 2
        omega
      · rw [reverse_append]
        exact hR _ _ hd
    · have hle := Nat.not_lt.1 hlt
      rw [pruneLoop, if_neg fun h => hlt ((hfull c hc).1 h), drop_eq_nil_of_le hle, take_of_length_le hle]
      exact ⟨c, rfl, hc, rfl, hnil c hc⟩

end

theorem full_iff {α : Type} (maxSize allowed : UInt64) (l : List α) :
    Recency.Full maxSize.toNat allowed.toNat l ↔ ¬ (maxSize = 0 ∨ l.length < allowed.toNat) := by
  rw [Recency.Full, not_or, Nat.not_lt, Nat.pos_iff_ne_zero, ← UInt64.toNat_inj]
  rfl

end CoServer.DataStruct
