/-
`ConfigVar` (include/utils/config.h): a value, and the callbacks that are told of its changes.

`addListener` takes the number of registered callbacks for the key of the next one. After a deletion that number may be
the key of a callback that is still registered, which is then overwritten. `live` lists the callbacks that were added
and not deleted since, for the statements only.

Results:
- `registered_iff_free`: one call keeps the callbacks registered as they should be iff an added one gets a key that no
  registered one has.
- `listeners_iff`: after every step of a sequence of `addListener`, `deleteListener` and `clearListener` the registered
  callbacks are those added and not deleted since, each under the key it was given and no two under one, iff no callback
  is added while one is registered under the number of callbacks.
- `live_listener_displaced`: an added callback takes the place of one that was not deleted.
-/
import CoServer.Core.KeyMap
import CoServer.Core.Run

namespace CoServer.Config

open CoServer.Core

/-! ## The code -/

/-- `std::map<uint64_t, onChangeCallback>` -/
abbrev Callbacks (C : Type) := KeyMap (Prod.fst : UInt64 × C → UInt64)

structure ConfigVar (T C : Type) where
  val : T
  callbacks : Callbacks C

namespace ConfigVar

variable {T C : Type} (v : ConfigVar T C)

/-- the new variable and the key -/
def addListener (callback : C) : ConfigVar T C × UInt64 :=
  let callbacks := v.callbacks.add (UInt64.ofNat v.callbacks.size, callback)
  ({ v with callbacks := callbacks }, UInt64.ofNat callbacks.size - 1)

def deleteListener (key : UInt64) : ConfigVar T C := { v with callbacks := v.callbacks.erase key }

def clearListener : ConfigVar T C := { v with callbacks := .empty }

/-- the first lock section of `setValue`: none if the value is the stored one, else what each callback is given -/
def notify [DecidableEq T] (v : ConfigVar T C) (new : T) : Option (List ((UInt64 × C) × T × T)) :=
  if new = v.val then none else some (v.callbacks.values.map fun e => (e, v.val, new))

/-- the second lock section -/
def store (new : T) : ConfigVar T C := { v with val := new }

end ConfigVar

/-! ## Sequences of calls -/

structure Listeners (T C : Type) where
  var : ConfigVar T C
  /-- what was added and not deleted since, under the returned key -/
  live : List (UInt64 × C)

inductive Op (C : Type) where
  | addListener (callback : C)
  | deleteListener (key : UInt64)
  | clearListener

namespace Listeners

variable {T C : Type}

variable (s : Listeners T C)

def step : Op C → Listeners T C
  | .addListener callback => ⟨(s.var.addListener callback).1, ((s.var.addListener callback).2, callback) :: s.live⟩
  | .deleteListener key => ⟨s.var.deleteListener key, s.live.filter fun e => e.1 ≠ key⟩
  | .clearListener => ⟨s.var.clearListener, []⟩

def init (val : T) : Listeners T C := ⟨⟨val, .empty⟩, []⟩

/-- the map holds the live callbacks, each under its own key, and no two have one key -/
def Registered : Prop := s.var.callbacks.values.Perm s.live ∧ (s.live.map Prod.fst).Nodup

/-- an added callback gets a key that no registered one has -/
def Free : Op C → Prop
  | .addListener _ => s.var.callbacks.find (UInt64.ofNat s.var.callbacks.size) = none
  | .deleteListener _ | .clearListener => True

/-- on the way the map is the list itself -/
def Tracks : Prop := s.var.callbacks.values = s.live

variable {s : Listeners T C}

theorem registered_of_tracks (h : s.Tracks) : s.Registered := by
  constructor
  · rw [h]
  · rw [← h]
    exact s.var.callbacks.nodup

theorem size_addListener (v : ConfigVar T C) (callback : C) :
    (v.addListener callback).1.callbacks.size = (v.callbacks.erase (UInt64.ofNat v.callbacks.size)).size + 1 := rfl

theorem tracks_add (h : s.Tracks) {callback : C} (hfree : s.Free (.addListener callback)) :
    (s.step (.addListener callback)).Tracks := by
  have hrest : (s.var.callbacks.erase (UInt64.ofNat s.var.callbacks.size)).values = s.live :=
    (KeyMap.erase_of_none hfree).trans h
  have hsize : (s.var.addListener callback).1.callbacks.size = s.var.callbacks.size + 1 := by
    rw [size_addListener, KeyMap.size, KeyMap.erase_of_none hfree]
    rfl
  have hkey : (s.var.addListener callback).2 = UInt64.ofNat s.var.callbacks.size := by
    change UInt64.ofNat (s.var.addListener callback).1.callbacks.size - 1 = _
    rw [hsize, UInt64.ofNat_add]
    exact UInt64.add_sub_cancel _ _
  change (UInt64.ofNat s.var.callbacks.size, callback) :: _ = ((s.var.addListener callback).2, callback) :: s.live
  rw [hrest, hkey]

theorem tracks_step {o : Op C} (hfree : s.Free o) (h : s.Tracks) : (s.step o).Tracks := by
  cases o with
  | addListener callback => exact tracks_add h hfree
  | deleteListener key =>
    change s.var.callbacks.values.filter _ = s.live.filter _
    rw [h]
  | clearListener => rfl

theorem free_of_registered (h : s.Tracks) {o : Op C} (hreg : (s.step o).Registered) : s.Free o := by
  cases o with
  | addListener callback =>
    by_contra hused
    obtain ⟨e, he⟩ := Option.ne_none_iff_exists'.1 hused
    have hlen := hreg.1.length_eq
    have hmap : (s.step (.addListener callback)).var.callbacks.values.length = s.live.length := by
      rw [← h]
      exact (size_addListener s.var callback).trans (KeyMap.size_erase he)
    have hlive : (s.step (.addListener callback)).live.length = s.live.length + 1 := rfl
    omega
  | deleteListener key | clearListener => trivial

theorem registered_iff_free (h : s.Tracks) (o : Op C) : (s.step o).Registered ↔ s.Free o :=
  ⟨free_of_registered h, fun hfree => registered_of_tracks (tracks_step hfree h)⟩

/-- **Listeners.** -/
theorem listeners_iff (val : T) (ops : List (Op C)) :
    Meets step (fun s o => (s.step o).Registered) (init val) ops ↔ Meets step Free (init val) ops :=
  meets_congr (fun _ _ hfree h => tracks_step hfree h) (fun _ o h => registered_iff_free h o)
  (show (init val).Tracks from rfl) ops

/-- three callbacks; the first is deleted before the third is added -/
def displacing : List (Op String) := [.addListener "a", .addListener "b", .deleteListener 0, .addListener "c"]

/-- "b" is gone, and "c" was given a key that is not in the map -/
theorem live_listener_displaced :
    let s := run step (init (0 : ℤ)) displacing
    s.live = [(0, "c"), (1, "b")] ∧ s.var.callbacks.values = [(1, "c")] ∧ ¬ s.Registered := by
  intro s
  have hvalues : s.var.callbacks.values = [(1, "c")] := by decide
  have hlive : s.live = [(0, "c"), (1, "b")] := by decide
  refine ⟨hlive, hvalues, ?_⟩
  rintro ⟨hperm, -⟩
  have hlen := hperm.length_eq
  cases hlen

end Listeners

end CoServer.Config
