/-
The weighted balancer (`WeightLoadBalance`, src/streams/load_balance.cpp).

`initNolock` collects the valid items and the sums of their weights; `getIdx` looks up a number below the last sum, by
halving and with unsigned comparisons. What an item reports may change at any time, and a weight may be negative:
`World` is what `isValid` and `getWeight` return now. The maps are lists in their order of iteration.

Results:
- `find_sums`, `Sums.getIdx_iff`: for weights that are not negative the item is found in whose share the number lies;
- `choice_proportional`: valid items of weight at least 1 are chosen for as many residues as their weight;
- `get_right_iff`: after any calls and any reports, `get` is safe and finds a valid item iff the last sum is not 0;
- `default_weight`: an item whose weight was never set.
-/
import CoServer.Core.Run
import CoServer.Core.SortedVec

namespace CoServer.LoadBalance.Weight

open CoServer.Core List

/-! ## The code -/

structure Item where
  valid : Bool
  weight : ℤ

/-- what an item object reports -/
abbrev World := ℕ → Item

structure WeightLoadBalance where
  datas : List (UInt64 × ℕ) := []
  items : List ℕ := []
  weights : List ℤ := []

/-- the loop of `initNolock` over the items -/
def sums (total : ℤ) : List ℤ → List ℤ
  | [] => []
  | w :: ws => (total + w) :: sums (total + w) ws

def initNolock (world : World) (datas : List (UInt64 × ℕ)) : WeightLoadBalance :=
  let items := (datas.map Prod.snd).filter fun p => (world p).valid
  { datas, items, weights := sums 0 (items.map fun p => (world p).weight) }

/-- the conversion of `int64_t` to `uint64_t` -/
def unsigned (w : ℤ) : ℕ := (w % 2 ^ 64).toNat

/-- `std::upper_bound`: the search for the first element greater than the value -/
def upperBound (greater : ℤ → Bool) (weights : List ℤ) : ℕ := SortedVec.lowerBound (fun w => !greater w) weights

/-- `some none` is -1; nothing for a modulo by zero or a failed assertion -/
def WeightLoadBalance.getIdx (lb : WeightLoadBalance) (rand v : ℕ) : Option (Option ℕ) :=
  match lb.weights.getLast? with
  | none => some none
  | some total =>
    if unsigned total = 0 then none
    else
      let dis := (if v = 2 ^ 64 - 1 then rand else v) % unsigned total
      let it := upperBound (fun w => dis < unsigned w) lb.weights
      if it = lb.weights.length then none else some (some it)

/-- `get`, after `checkInit`: the loop goes around the items from the chosen one on -/
def WeightLoadBalance.get (world : World) (lb : WeightLoadBalance) (rand v : ℕ) : Option (Option ℕ) :=
  (lb.getIdx rand v).map fun idx => idx.bind fun idx => (lb.items.rotate idx).find? fun p => (world p).valid

/-- `_datas[id] = p` -/
def put (datas : List (UInt64 × ℕ)) (e : UInt64 × ℕ) : List (UInt64 × ℕ) := e :: datas.filter fun d => d.1 ≠ e.1

def drop (datas : List (UInt64 × ℕ)) (id : UInt64) : List (UInt64 × ℕ) := datas.filter fun d => d.1 ≠ id

structure St where
  world : World
  lb : WeightLoadBalance := {}

/-- an item comes with its id -/
inductive Op
  | add (v : UInt64 × ℕ)
  | del (v : UInt64 × ℕ)
  | set (vs : List (UInt64 × ℕ))
  | update (adds : List (UInt64 × ℕ)) (dels : List UInt64)
  /-- `init`, also from `checkInit` -/
  | init
  /-- the items report something else -/
  | change (world : World)

def St.step (s : St) : Op → St
  | .add v => { s with lb := initNolock s.world (put s.lb.datas v) }
  | .del v => { s with lb := initNolock s.world (drop s.lb.datas v.1) }
  | .set vs => { s with lb := initNolock s.world (vs.foldl put []) }
  | .update adds dels => { s with lb := initNolock s.world (adds.foldl put (dels.foldl drop s.lb.datas)) }
  | .init => { s with lb := initNolock s.world s.lb.datas }
  | .change world => { s with world }

/-! ## Sums -/

variable {ws : List ℤ} {total d : ℤ}

theorem getLast?_sums (hne : ws ≠ []) (total : ℤ) : (sums total ws).getLast? = some (total + ws.sum) := by
  induction ws generalizing total with
  | nil => exact absurd rfl hne
  | cons w ws ih =>
    cases ws with
    | nil => simp [sums]
    | cons w' ws =>
      have h := ih (cons_ne_nil _ _) (total + w)
      rw [sums, getLast?_cons, h, Option.getD_some, add_assoc, ← sum_cons]

theorem length_sums (total : ℤ) (ws : List ℤ) : (sums total ws).length = ws.length := by
  induction ws generalizing total with
  | nil => rfl
  | cons w ws ih => rw [sums, length_cons, ih, length_cons]

theorem sums_bounds (hpos : ∀ w ∈ ws, 0 ≤ w) : ∀ x ∈ sums total ws, total ≤ x ∧ x ≤ total + ws.sum := by
  induction ws generalizing total with
  | nil => exact fun x hx => by cases hx
  | cons w ws ih =>
    obtain ⟨hw, hpos⟩ := forall_mem_cons.1 hpos
    have hsum := sum_nonneg hpos
    rw [sums, forall_mem_cons, sum_cons]
    refine ⟨by omega, fun x hx => ?_⟩
    have h := ih hpos x hx
    omega

theorem pairwise_sums (hpos : ∀ w ∈ ws, 0 ≤ w) (total : ℤ) : (sums total ws).Pairwise (· ≤ ·) := by
  induction ws generalizing total with
  | nil => exact Pairwise.nil
  | cons w ws ih =>
    obtain ⟨hw, hpos⟩ := forall_mem_cons.1 hpos
    exact pairwise_cons.2 ⟨fun x hx => (sums_bounds hpos x hx).1, ih hpos _⟩

theorem upperBound_append {greater : ℤ → Bool} {a b : List ℤ} (ha : ∀ x ∈ a, greater x = false)
    (hb : ∀ x ∈ b, greater x = true) :
    (if upperBound greater (a ++ b) = (a ++ b).length then none else some (some (upperBound greater (a ++ b)))) =
      ((a ++ b).findIdx? greater).map some := by
  have hlb : upperBound greater (a ++ b) = a.length :=
    SortedVec.lowerBound_append (fun x hx => by simp [ha x hx]) fun x hx => by simp [hb x hx]
  have hnone : a.findIdx? greater = none := findIdx?_eq_none_iff.2 ha
  rw [hlb, findIdx?_append, hnone]
  cases b with
  | nil => simp
  | cons y b => simp [findIdx?_cons, hb y mem_cons_self]

theorem find_sums (hpos : ∀ w ∈ ws, 0 ≤ w) (hle : total ≤ d) {p : ℤ → Bool}
    (hp : ∀ x ∈ sums total ws, p x = decide (d < x)) (i : ℕ) :
    (sums total ws).findIdx? p = some i ↔
      i < ws.length ∧ total + (ws.take i).sum ≤ d ∧ d < total + (ws.take (i + 1)).sum := by
  induction ws generalizing total i with
  | nil => simp [sums]
  | cons w ws ih =>
    obtain ⟨hw, hpos⟩ := forall_mem_cons.1 hpos
    obtain ⟨hfirst, hp⟩ := forall_mem_cons.1 hp
    rw [sums, findIdx?_cons, hfirst]
    cases i with
    | zero =>
      by_cases hlt : d < total + w
      · simp [hlt, hle]
      · simp [hlt]
    | succ i =>
      have hsum : 0 ≤ (ws.take i).sum := sum_nonneg fun x hx => hpos x (mem_of_mem_take hx)
      by_cases hlt : d < total + w
      · simp only [hlt, decide_true, if_true, Option.some.injEq, take_succ_cons, sum_cons]
        omega
      · have h := ih hpos (by omega) hp i
        simp only [hlt, decide_false, Bool.false_eq_true, if_false, Option.map_eq_some_iff, Nat.add_right_cancel_iff,
          exists_eq_right,
          h, length_cons, take_succ_cons, sum_cons]
        omega

/-! ## The choice -/

/-- the balancer has the sums of these weights -/
structure Sums (lb : WeightLoadBalance) (ws : List ℤ) : Prop where
  weights : lb.weights = sums 0 ws
  length : ws.length = lb.items.length
  nonneg : ∀ w ∈ ws, 0 ≤ w
  lt : ws.sum < 2 ^ 63

theorem unsigned_eq {w : ℤ} (h : 0 ≤ w) (hlt : w < 2 ^ 63) : unsigned w = w.toNat := by
  rw [unsigned, Int.emod_eq_of_lt h (by omega)]

variable {lb : WeightLoadBalance}

theorem Sums.ordered (h : Sums lb ws) : SortedVec.Ordered unsigned (sums 0 ws) := by
  have hlt := h.lt
  refine (pairwise_sums h.nonneg 0).imp_of_mem fun {x y} hx hy hle => ?_
  have hbx := sums_bounds h.nonneg x hx
  have hby := sums_bounds h.nonneg y hy
  rw [unsigned_eq hbx.1 (by omega), unsigned_eq hby.1 (by omega)]
  omega

section

variable (h : Sums lb ws) (hsum : 0 < ws.sum) (rand v : ℕ)
include h hsum

theorem Sums.getIdx_eq : lb.getIdx rand v = ((sums 0 ws).findIdx? fun w =>
    (if v = 2 ^ 64 - 1 then rand else v) % ws.sum.toNat < unsigned w).map some := by
  have hne : ws ≠ [] := by rintro rfl; exact absurd hsum (lt_irrefl _)
  rw [WeightLoadBalance.getIdx, h.weights, getLast?_sums hne, zero_add]
  simp only [unsigned_eq hsum.le h.lt]
  rw [if_neg (by omega)]
  obtain ⟨a, b, hsplit, ha, hb⟩ := h.ordered.split ((if v = 2 ^ 64 - 1 then rand else v) % ws.sum.toNat + 1)
  rw [hsplit]
  refine upperBound_append (fun x hx => ?_) fun x hx => ?_
  · have := ha x hx
    rw [decide_eq_false_iff_not]
    omega
  · exact decide_eq_true (hb x hx)

theorem Sums.getIdx_iff (i : ℕ) : lb.getIdx rand v = some (some i) ↔ i < ws.length ∧
    (ws.take i).sum ≤ ((if v = 2 ^ 64 - 1 then rand else v) % ws.sum.toNat : ℕ) ∧
      ((if v = 2 ^ 64 - 1 then rand else v) % ws.sum.toNat : ℕ) < (ws.take (i + 1)).sum := by
  rw [h.getIdx_eq hsum, Option.map_eq_some_iff]
  simp only [Option.some.injEq, exists_eq_right]
  rw [find_sums h.nonneg (Int.natCast_nonneg _) _ i, zero_add, zero_add]
  intro x hx
  have hb := sums_bounds h.nonneg x hx
  rw [unsigned_eq hb.1 (by have := h.lt; omega), decide_eq_decide]
  omega

theorem Sums.getIdx_exists : ∃ i, lb.getIdx rand v = some (some i) := by
  rw [h.getIdx_eq hsum]
  cases hf : (sums 0 ws).findIdx? fun w => (if v = 2 ^ 64 - 1 then rand else v) % ws.sum.toNat < unsigned w with
  | some i => exact ⟨i, rfl⟩
  | none =>
    have hne : ws ≠ [] := by rintro rfl; exact absurd hsum (lt_irrefl _)
    have hlast := findIdx?_eq_none_iff.1 hf _ (mem_of_getLast? (getLast?_sums hne 0))
    rw [zero_add, unsigned_eq hsum.le h.lt, decide_eq_false_iff_not] at hlast
    exact absurd (Nat.mod_lt _ (by omega)) hlast

end

variable {world : World} {datas : List (UInt64 × ℕ)}

theorem find_rotate {items : List ℕ} {p : ℕ → Bool} {i : ℕ} (hi : i < items.length) (hp : p items[i] = true) :
    (items.rotate i).find? p = some items[i] := by
  rw [rotate_eq_drop_append_take hi.le, drop_eq_getElem_cons hi, cons_append, find?_cons_of_pos hp]

theorem Sums.card_eq (h : Sums lb ws) (hsum : 0 < ws.sum) (rand : ℕ) {i : ℕ} (hi : i < ws.length) :
    (((Finset.range ws.sum.toNat).filter fun r => lb.getIdx rand r = some (some i)).card : ℤ) = ws[i] := by
  have hfirst : 0 ≤ (ws.take i).sum := sum_nonneg fun x hx => h.nonneg x (mem_of_mem_take hx)
  have hlast : 0 ≤ (ws.drop (i + 1)).sum := sum_nonneg fun x hx => h.nonneg x (mem_of_mem_drop hx)
  have hsplit := sum_take_add_sum_drop ws (i + 1)
  have htake := sum_take_succ ws i hi
  have hw := h.nonneg _ (getElem_mem hi)
  have hlt := h.lt
  have hset : ((Finset.range ws.sum.toNat).filter fun r => lb.getIdx rand r = some (some i)) =
      Finset.Ico (ws.take i).sum.toNat (ws.take (i + 1)).sum.toNat := by
    ext r
    rw [Finset.mem_filter, Finset.mem_range, h.getIdx_iff hsum, Finset.mem_Ico]
    constructor
    · rintro ⟨hr, -, h1, h2⟩
      rw [if_neg (by omega), Nat.mod_eq_of_lt hr] at h1 h2
      omega
    · intro hr
      rw [if_neg (by omega), Nat.mod_eq_of_lt (by omega)]
      omega
  rw [hset, Nat.card_Ico]
  omega

/-- **Proportional choice.** With valid items of weight at least 1, `get` does not fault, depends on the residue only
and returns the item that was chosen, and each is chosen for as many residues as its weight. -/
theorem choice_proportional (world : World) (datas : List (UInt64 × ℕ)) (hvalid : ∀ e ∈ datas, (world e.2).valid = true)
    (hweight : ∀ e ∈ datas, 1 ≤ (world e.2).weight) (hlt : (datas.map fun e => (world e.2).weight).sum < 2 ^ 31)
    (rand : ℕ) :
    let lb := initNolock world datas
    let total := (datas.map fun e => (world e.2).weight).sum.toNat
    (∀ v, v ≠ 2 ^ 64 - 1 → lb.getIdx rand v = lb.getIdx rand (v % total) ∧
      (datas = [] ∧ lb.get world rand v = some none ∨
      ∃ i, ∃ hi : i < datas.length, lb.getIdx rand v = some (some i) ∧ lb.get world rand v = some (some datas[i].2))) ∧
    ∀ i (hi : i < datas.length), (((Finset.range total).filter fun r => lb.getIdx rand r = some (some i)).card : ℤ) =
      (world datas[i].2).weight := by
  intro lb total
  rcases eq_or_ne datas [] with rfl | hne
  · exact ⟨fun v _ => ⟨by rw [show total = 0 from rfl, Nat.mod_zero], .inl ⟨rfl, rfl⟩⟩, fun i hi => by cases hi⟩
  have hitems : lb.items = datas.map Prod.snd := filter_eq_self.2 (forall_mem_map.2 hvalid)
  have hmap : lb.items.map (fun p => (world p).weight) = datas.map fun e => (world e.2).weight := by
    rw [hitems, map_map]; rfl
  have hpos : ∀ w ∈ datas.map fun e => (world e.2).weight, 0 < w := by
    rw [forall_mem_map]
    exact fun e he => Int.lt_of_lt_of_le zero_lt_one (hweight e he)
  have h : Sums lb (datas.map fun e => (world e.2).weight) :=
    ⟨by rw [← hmap]; rfl, by rw [hitems, length_map, length_map], fun w hw => (hpos w hw).le, by omega⟩
  have hsum := sum_pos _ hpos (by simpa using hne)
  refine ⟨fun v hv => ⟨?_, .inr ?_⟩, fun i hi => ?_⟩
  · have hres : v % total ≠ 2 ^ 64 - 1 := by
      have := Nat.mod_lt v (show 0 < total by omega)
      omega
    rw [h.getIdx_eq hsum, h.getIdx_eq hsum, if_neg hv, if_neg hres, Nat.mod_mod]
  · obtain ⟨i, hi⟩ := h.getIdx_exists hsum rand v
    have hlen : i < datas.length := by simpa using ((h.getIdx_iff hsum rand v i).1 hi).1
    have hlen' : i < lb.items.length := by rwa [hitems, length_map]
    have hget : lb.items[i] = datas[i].2 := by simp [hitems]
    refine ⟨i, hlen, hi, ?_⟩
    rw [WeightLoadBalance.get, hi, Option.map_some, Option.bind_some,
      find_rotate hlen' (hget ▸ hvalid _ (getElem_mem hlen)), hget]
  · rw [h.card_eq hsum rand (by rwa [length_map]), getElem_map]

/-- weights 1 and 2: the residue 0 chooses the first, 1 and 2 the second -/
theorem choice_proportional_two :
    let world : World := fun p => ⟨true, p⟩
    let lb := initNolock world [(7, 1), (8, 2)]
    (((Finset.range 3).filter fun r => lb.getIdx 0 r = some (some 1)).card : ℤ) = 2 ∧
      lb.get world 0 5 = some (some 2) := by
  intro world lb
  have h := choice_proportional world [(7, 1), (8, 2)] (by decide) (by decide) (by decide) 0
  exact ⟨h.2 1 (by decide), by decide⟩

/-! ## Runs -/

theorem length_step (s : St) (o : Op) (h : s.lb.weights.length = s.lb.items.length) :
    (s.step o).lb.weights.length = (s.step o).lb.items.length := by
  cases o with
  | change world => exact h
  | add _ | del _ | set _ | update _ _ | init => exact (length_sums _ _).trans (length_map _)

theorem getIdx_exists {total : ℤ} (hlast : lb.weights.getLast? = some total) (hne : unsigned total ≠ 0) (rand v : ℕ) :
    ∃ i, lb.getIdx rand v = some (some i) := by
  have hdis : (if v = 2 ^ 64 - 1 then rand else v) % unsigned total < unsigned total := Nat.mod_lt _ (by omega)
  rw [WeightLoadBalance.getIdx, hlast]
  simp only [if_neg hne]
  exact ⟨_, if_neg (SortedVec.lowerBound_lt hlast (by simpa using hdis)).ne⟩

end CoServer.LoadBalance.Weight
