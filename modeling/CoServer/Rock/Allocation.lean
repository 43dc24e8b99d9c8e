/-
The memory that strings of a received frame take (`bytearray.h`, `rock_protocol.cpp`).

A string is read by its length, then `s.resize(len)`, then the bytes; that there are so many bytes is tested by the last
step only. `std::string` keeps short strings in itself, throws `std::length_error` above its maximum, and otherwise asks
`operator new`, which may fail. The decoders are those of `Rock.Protocol`, in a monad that keeps the requests to the
allocator, and with the exceptions that `catch(...)` also catches.

Results, for any implementation of `std::string` and any memory:
- `readStringAlloc_ok`, `parseFieldsAlloc_ok`: what the decoders give is what the models without memory give;
- `announced_too_long`: when a string whose announced length exceeds what is left is refused as it should be;
- `parseMessage_within`: a frame whose announced lengths fit into it, or into the string object, requests at most twice
  its size, whether or not it is a message;
- `allocation_iff`: the two together; `frame_requests_terabyte`: a frame of 14 bytes that requests 2^40.
-/
import CoServer.Rock.Protocol

namespace CoServer.Rock

open CoServer.ByteArray

/-! ## Strings -/

/-- an implementation of `std::string`: how long a string it keeps in itself, the longest string, and the request for a
longer one -/
structure StringLib where
  localCapacity : ℕ
  maxSize : ℕ
  request : ℕ → ℕ
  lt_request : ∀ n, localCapacity < n → n < request n
  request_le : ∀ n, localCapacity < n → request n ≤ 2 * n

/-- 15 bytes in the string, then at least twice as many, and the terminating 0 -/
def StringLib.gnu : StringLib where
  localCapacity := 15
  maxSize := 2 ^ 63 - 1
  request n := max n 30 + 1
  lt_request n _ := by omega
  request_le n h := by omega

/-- an exception or fault of the buffer, `std::length_error`, `std::bad_alloc` -/
inductive Thrown where
  | fault (e : Fault)
  | lengthError
  | badAlloc
deriving DecidableEq

/-- code that works on a buffer and may fail, with the sizes that it asks of the allocator -/
structure Alloc (α : Type) where
  run : ByteArray → List ℕ × Except Thrown (α × ByteArray)

open Alloc

instance : Monad Alloc where
  pure a := ⟨fun b => ([], .ok (a, b))⟩
  bind m f := ⟨fun b =>
    match m.run b with
    | (rs, .error e) => (rs, .error e)
    | (rs, .ok (a, b')) => (rs ++ ((f a).run b').1, ((f a).run b').2)⟩

/-- code that asks for nothing -/
def Alloc.lift {α : Type} (m : Action α) : Alloc α := ⟨fun b =>
  match m b with
  | .error e => ([], .error (.fault e))
  | .ok r => ([], .ok r)⟩

section Decoding

variable (lib : StringLib) (memory : ℕ → Bool) (host : Endian)

/-- `s.resize(n)` of an empty string; `memory`: which requests the allocator can meet -/
def resize (n : ℕ) : Alloc Unit := ⟨fun b =>
  if n ≤ lib.localCapacity then ([], .ok ((), b))
  else if n > lib.maxSize then ([], .error .lengthError)
  else ([lib.request n], if memory (lib.request n) then .ok ((), b) else .error .badAlloc)⟩

def readStringAlloc (l : Len) : Alloc (List UInt8) := do
  let n ← lift (readLen host l)
  if n > 0 then do
    resize lib memory n
    lift (take n)
  else return []

/-! ## Messages -/

/-- `catch(...)` -/
def attemptAlloc {α : Type} (m : Alloc α) : Alloc (Option α) := ⟨fun b =>
  match m.run b with
  | (rs, .ok (a, b')) => (rs, .ok (some a, b'))
  | (rs, .error (.fault .outOfRange)) | (rs, .error .lengthError) | (rs, .error .badAlloc) => (rs, .ok (none, b))
  | (rs, .error e) => (rs, .error e)⟩

def parseFieldsAlloc : MessageType → Alloc Message
  | .request => do
    lift (seek 0)
    let sn ← lift (readInt host .w32)
    let cmd ← lift (readInt host .w32)
    let body ← readStringAlloc lib memory host .varint
    return .request sn cmd body
  | .response => do
    lift (seek 0)
    let sn ← lift (readInt host .w32)
    let cmd ← lift (readInt host .w32)
    let result ← lift (readInt host .w32)
    let resultStr ← readStringAlloc lib memory host .varint
    let body ← readStringAlloc lib memory host .varint
    return .response sn cmd result resultStr body
  | .notify => do
    lift (seek 0)
    let notify ← lift (readInt host .w32)
    let body ← readStringAlloc lib memory host .varint
    return .notify notify body

def parseFromByteArrayAlloc (t : MessageType) : Alloc (Option Message) :=
  attemptAlloc (parseFieldsAlloc lib memory host t)

/-- the rest of `parseFrom`, from the first byte of the received array on -/
def parseMessageAlloc : Alloc (Option Message) := do
  let type ← lift (readInt host .w8)
  if type.toNat = MessageType.request.code then parseFromByteArrayAlloc lib memory host .request
  else if type.toNat = MessageType.response.code then parseFromByteArrayAlloc lib memory host .response
  else if type.toNat = MessageType.notify.code then parseFromByteArrayAlloc lib memory host .notify
  else return none

end Decoding

theorem resize_cases (lib : StringLib) (memory : ℕ → Bool) (n : ℕ) (b : ByteArray) :
    n ≤ lib.localCapacity ∧ (resize lib memory n).run b = ([], .ok ((), b)) ∨
      lib.localCapacity < n ∧
        ((resize lib memory n).run b = ([], .error .lengthError) ∨
          (resize lib memory n).run b = ([lib.request n], .error .badAlloc) ∨
          (resize lib memory n).run b = ([lib.request n], .ok ((), b))) := by
  unfold resize
  split_ifs with hlocal hmax hmem
  · exact .inl ⟨hlocal, rfl⟩
  · exact .inr ⟨not_le.1 hlocal, .inl rfl⟩
  · exact .inr ⟨not_le.1 hlocal, .inr (.inr rfl)⟩
  · exact .inr ⟨not_le.1 hlocal, .inr (.inl rfl)⟩

/-! ## The models without memory -/

/-- what `m` gives, `m'` gives -/
def Gives {α : Type} (m : Alloc α) (m' : Action α) : Prop := ∀ b r, (m.run b).2 = .ok r → m' b = .ok r

variable {α β : Type} {b b' : ByteArray} {rs : List ℕ} {m : Alloc α} {f : α → Alloc β}
variable (lib : StringLib) (memory : ℕ → Bool) (host : Endian) (t : MessageType)

theorem alloc_bind (m : Alloc α) (f : α → Alloc β) (b : ByteArray) :
    (m >>= f).run b =
      match m.run b with
      | (rs, .error e) => (rs, .error e)
      | (rs, .ok (a, b')) => (rs ++ ((f a).run b').1, ((f a).run b').2) := rfl

section

variable (m : Action α)

theorem lift_run (b : ByteArray) :
    (lift m).run b =
      match m b with
      | .error e => ([], .error (.fault e))
      | .ok r => ([], .ok r) := rfl

theorem lift_requests (b : ByteArray) : ((lift m).run b).1 = [] := by
  rw [lift_run]
  split <;> rfl

theorem action_bind (f : α → Action β) (b : ByteArray) :
    (m >>= f) b =
      match m b with
      | .error e => .error e
      | .ok (a, b') => f a b' := by
  simp only [bind, StateT.bind, Except.bind]
  cases m b <;> rfl

theorem gives_pure (a : α) : Gives (pure a : Alloc α) (pure a : Action α) := fun _ _ h => by
  cases h
  rfl

theorem gives_lift : Gives (lift m) m := by
  intro b r h
  rw [lift_run] at h
  split at h
  · cases h
  · next r' hm =>
    cases h
    exact hm

end

theorem Gives.bind {m' : Action α} {f : α → Alloc β} {f' : α → Action β} (hm : Gives m m')
    (hf : ∀ a, Gives (f a) (f' a)) : Gives (m >>= f) (m' >>= f') := by
  intro b r h
  rw [alloc_bind] at h
  split at h
  · cases h
  next rs a b' hb =>
  have hb' := hm b (a, b') (by rw [hb])
  rw [action_bind, hb']
  exact hf a b' r h

theorem resize_take (n : ℕ) (b : ByteArray) :
    (((resize lib memory n >>= fun _ => lift (take n)).run b).1 = [] ∨ lib.localCapacity < n ∧
        ((resize lib memory n >>= fun _ => lift (take n)).run b).1 = [lib.request n]) ∧
      ∀ r, ((resize lib memory n >>= fun _ => lift (take n)).run b).2 = .ok r → take n b = .ok r := by
  have htake := gives_lift (take n) b
  rw [alloc_bind]
  rcases resize_cases lib memory n b with ⟨-, hr⟩ | ⟨hlocal, hr | hr | hr⟩ <;> rw [hr]
  · exact ⟨.inl (lift_requests _ b), htake⟩
  · exact ⟨.inl rfl, nofun⟩
  · exact ⟨.inr ⟨hlocal, rfl⟩, nofun⟩
  · exact ⟨.inr ⟨hlocal, by simp only [lift_requests, List.append_nil]⟩, htake⟩

theorem readStringAlloc_ok (l : Len) : Gives (readStringAlloc lib memory host l) (readString host l) := by
  refine (gives_lift (readLen host l)).bind fun n => ?_
  by_cases hn : n > 0
  · simp only [if_pos hn]
    exact fun b => (resize_take lib memory n b).2
  · simp only [if_neg hn]
    exact gives_pure []

theorem parseFieldsAlloc_ok : Gives (parseFieldsAlloc lib memory host t) (parseFields host t) := by
  have hword := gives_lift (readInt host .w32)
  have hstring := readStringAlloc_ok lib memory host .varint
  cases t with
  | request =>
    exact (gives_lift (seek 0)).bind fun _ => hword.bind fun sn => hword.bind fun cmd =>
      hstring.bind fun body => gives_pure _
  | response =>
    exact (gives_lift (seek 0)).bind fun _ => hword.bind fun sn => hword.bind fun cmd => hword.bind fun result =>
      hstring.bind fun resultStr => hstring.bind fun body => gives_pure _
  | notify => exact (gives_lift (seek 0)).bind fun _ => hword.bind fun notify => hstring.bind fun body => gives_pure _

/-! ## An announced length that is too long -/

theorem announced_too_long (l : Len) {n : ℕ} (hlen : readLen host l b = .ok (n, b')) (hmore : n > b'.getReadSize) :
    (((readStringAlloc lib memory host l).run b).2 = .error (.fault .outOfRange) ∧
        ∀ r ∈ ((readStringAlloc lib memory host l).run b).1, r ≤ b'.getReadSize) ↔ n ≤ lib.localCapacity := by
  have hread : b'.read n = .error .outOfRange := if_pos hmore
  have hpos : n > 0 := by omega
  have hstring :
      (readStringAlloc lib memory host l).run b = (resize lib memory n >>= fun _ => lift (take n)).run b' := by
    rw [readStringAlloc, alloc_bind, lift_run, hlen]
    simp [if_pos hpos]
  rw [hstring]
  have htake : (lift (take n)).run b' = ([], .error (.fault .outOfRange)) := by simp only [lift_run, take, hread]
  rw [alloc_bind]
  rcases resize_cases lib memory n b' with ⟨hlocal, hr⟩ | ⟨hlocal, hr⟩
  · simp only [hr, htake]
    exact iff_of_true ⟨trivial, nofun⟩ hlocal
  -- more than the length is requested, whether or not there is so much memory
  have hlt := lib.lt_request n hlocal
  refine iff_of_false (fun ⟨hthrow, hreq⟩ => ?_) (not_le.2 hlocal)
  rcases hr with hr | hr | hr <;> rw [hr] at hthrow hreq
  · cases hthrow
  · cases hthrow
  · have := hreq (lib.request n) (List.mem_append_left _ (List.mem_singleton_self _))
    omega

/-! ## Requests and bytes -/

/-- the requests are at most twice the bytes that are consumed; the cursor stays within the stored bytes -/
def Paid {α : Type} (m : Alloc α) : Prop :=
  ∀ b a b' rs, m.run b = (rs, .ok (a, b')) →
    rs.sum + 2 * b.position ≤ 2 * b'.position ∧ b'.size = b.size ∧ (b.position ≤ b.size → b'.position ≤ b'.size)

theorem take_moves {n : ℕ} {bs : List UInt8} (h : take n b = .ok (bs, b')) :
    b'.position = b.position + n ∧ b'.size = b.size ∧ n ≤ b.size - b.position := by
  have hread : b.read n = .ok (bs, b') := h
  unfold ByteArray.read at hread
  by_cases hmore : n > b.getReadSize
  · rw [if_pos hmore] at hread
    cases hread
  by_cases hbase : b.baseSize = 0
  · rw [if_neg hmore, if_pos hbase] at hread
    cases hread
  rw [if_neg hmore, if_neg hbase] at hread
  split at hread
  · cases hread
  by_cases hzero : n = 0
  · rw [if_pos hzero] at hread
    cases hread
    exact ⟨by omega, rfl, by omega⟩
  rw [if_neg hzero] at hread
  split at hread
  · cases hread
  · cases hread
    exact ⟨rfl, rfl, not_lt.1 hmore⟩

theorem Paid.bind (hm : Paid m) (hf : ∀ a, Paid (f a)) : Paid (m >>= f) := by
  intro b r b' rs h
  rw [alloc_bind] at h
  split at h
  · cases h
  next rs₁ a b₁ hb =>
  obtain ⟨h1, h2, h3⟩ := hm b a b₁ rs₁ hb
  obtain ⟨hrs, hok⟩ := Prod.mk.inj h
  obtain ⟨h4, h5, h6⟩ := hf a b₁ r b' ((f a).run b₁).1 (Prod.ext rfl hok)
  rw [← hrs, List.sum_append]
  exact ⟨by omega, h5.trans h2, fun hle => h6 (h3 hle)⟩

theorem paid_pure (a : α) : Paid (pure a : Alloc α) := by
  intro b r b' rs h
  cases h
  exact ⟨by rw [List.sum_nil]; omega, rfl, id⟩

theorem paid_lift_bind {m : Action α} {f : α → Action β} (hm : Paid (lift m)) (hf : ∀ a, Paid (lift (f a))) :
    Paid (lift (m >>= f)) := by
  have hlift : lift (m >>= f) = lift m >>= fun a => lift (f a) := by
    refine congrArg Alloc.mk (funext fun b => ?_)
    rw [action_bind, lift_run]
    cases m b <;> rfl
  rw [hlift]
  exact hm.bind hf

theorem paid_take (n : ℕ) : Paid (lift (take n)) := by
  intro b bs b' rs h
  obtain rfl : [] = rs := by rw [← lift_requests (take n) b, h]
  obtain ⟨h1, h2, h3⟩ := take_moves (gives_lift (take n) b (bs, b') (by rw [h]))
  exact ⟨by rw [List.sum_nil]; omega, h2, by omega⟩

theorem paid_readInt (w : Width) : Paid (lift (readInt host w)) :=
  paid_lift_bind (fun _ _ _ _ h => by cases h; exact ⟨by rw [List.sum_nil]; omega, rfl, id⟩) fun _ =>
    paid_lift_bind (paid_take _) fun _ => paid_pure _

theorem paid_readVaruint (w rounds i : ℕ) (result : BitVec w) : Paid (lift (readVaruint w rounds i result)) := by
  induction rounds generalizing i result with
  | zero => exact paid_pure result
  | succ rounds ih =>
    refine paid_lift_bind (paid_take 1) fun bs => ?_
    simp only
    split_ifs
    · exact paid_pure _
    · exact ih _ _

theorem paid_readLen (l : Len) : Paid (lift (readLen host l)) := by
  cases l with
  | u16 | u32 | u64 => exact paid_lift_bind (paid_readInt host _) fun _ => paid_pure _
  | varint =>
    exact paid_lift_bind (paid_lift_bind (paid_readVaruint 64 10 0 0#64) fun _ => paid_pure _) fun _ => paid_pure _

theorem paid_readStringAlloc (l : Len) : Paid (readStringAlloc lib memory host l) := by
  refine (paid_readLen host l).bind fun n => ?_
  by_cases hn : n > 0
  · simp only [if_pos hn]
    intro b bs b' rs h
    obtain ⟨hrs, hok⟩ := resize_take lib memory n b
    rw [h] at hrs hok
    obtain ⟨h1, h2, h3⟩ := take_moves (hok _ rfl)
    obtain rfl | ⟨hlocal, rfl⟩ : rs = [] ∨ lib.localCapacity < n ∧ rs = [lib.request n] := hrs
    · exact ⟨by rw [List.sum_nil]; omega, h2, by omega⟩
    · have hle := lib.request_le n hlocal
      exact ⟨by rw [List.sum_singleton]; omega, h2, by omega⟩
  · simp only [if_neg hn]
    exact paid_pure []

theorem seek_zero {b₁ : ByteArray} {u : Unit} (h : seek 0 b = .ok (u, b₁)) : b₁.position = 0 ∧ b₁.size = b.size := by
  unfold seek setPosition at h
  cases hseek : seekNodes b.nodes 0 with
  | error e =>
    rw [hseek] at h
    cases h
  | ok k =>
    rw [hseek] at h
    cases h
    exact ⟨rfl, Nat.max_zero b.size⟩

/-! ## Frames -/

/-- what holds after `m`, if it succeeds -/
def After (m : Action α) (P : α → ByteArray → Prop) (b : ByteArray) : Prop :=
  match m b with
  | .ok (a, b') => P a b'
  | .error _ => True

/-- the announced length of the string at the cursor is at most the bytes behind it, or the string object has room for
it -/
def Fits (b : ByteArray) : Prop :=
  After (readLen host .varint) (fun n b' => n ≤ b'.getReadSize ∨ n ≤ lib.localCapacity) b

/-- so do the strings of a message -/
def FieldsFit : MessageType → ByteArray → Prop
  | .request =>
    After (seek 0) fun _ => After (readInt host .w32) fun _ => After (readInt host .w32) fun _ => Fits lib host
  | .response =>
    After (seek 0) fun _ => After (readInt host .w32) fun _ => After (readInt host .w32) fun _ =>
      After (readInt host .w32) fun _ b => Fits lib host b ∧ After (readString host .varint) (fun _ => Fits lib host) b
  | .notify => After (seek 0) fun _ => After (readInt host .w32) fun _ => Fits lib host

/-- the strings of the message that the first byte of the frame names -/
def FrameFits : ByteArray → Prop :=
  After (readInt host .w8) fun type b =>
    ∀ t ∈ [MessageType.request, .response, .notify], type.toNat = t.code → FieldsFit lib host t b

instance {m : Action α} {P : α → ByteArray → Prop} [∀ a b, Decidable (P a b)] (b : ByteArray) :
    Decidable (After m P b) :=
  match hm : m b with
  | .ok (a, b') => decidable_of_iff (P a b') (by rw [After, hm])
  | .error _ => isTrue (by rw [After, hm]; trivial)

instance (b : ByteArray) : Decidable (Fits lib host b) := inferInstanceAs (Decidable (After _ _ _))

instance (b : ByteArray) : Decidable (FieldsFit lib host t b) :=
  match t with
  | .request | .response | .notify => inferInstanceAs (Decidable (After _ _ _))

instance (b : ByteArray) : Decidable (FrameFits lib host b) := inferInstanceAs (Decidable (After _ _ _))

/-- the requests, whatever the outcome, are at most twice the bytes behind the cursor -/
def Within (m : Alloc α) (b : ByteArray) : Prop :=
  b.position ≤ b.size → (m.run b).1.sum + 2 * b.position ≤ 2 * b.size

theorem within_lift (m : Action α) (b : ByteArray) : Within (lift m) b := by
  intro hle
  rw [lift_requests, List.sum_nil]
  omega

theorem within_pure (a : α) (b : ByteArray) : Within (pure a) b := within_lift (pure a) b

theorem Within.bind {m' : Action α} (hb : Within m b) (hm : Paid m) (hg : Gives m m')
    (hf : After m' (fun a b' => Within (f a) b') b) : Within (m >>= f) b := by
  intro hle
  have hreq := hb hle
  rw [alloc_bind]
  split
  · next rs e hrun =>
    rwa [hrun] at hreq
  · next rs a b' hrun =>
    have hok := hg b (a, b') (by rw [hrun])
    obtain ⟨hsum, hsize, hpos⟩ := hm b a b' rs hrun
    rw [After, hok] at hf
    have hrest := hf (hpos hle)
    rw [List.sum_append]
    omega

theorem within_then {m : Action α} (hm : Paid (lift m)) (hf : After m (fun a b' => Within (f a) b') b) :
    Within (lift m >>= f) b :=
  (within_lift m b).bind hm (gives_lift m) hf

theorem After.imp {m : Action α} {P Q : α → ByteArray → Prop} (h : After m P b) (himp : ∀ a b, P a b → Q a b) :
    After m Q b := by
  unfold After at h ⊢
  split
  · next a b' hm =>
    rw [hm] at h
    exact himp a b' h
  · trivial

theorem within_readString (h : Fits lib host b) : Within (readStringAlloc lib memory host .varint) b := by
  refine within_then (paid_readLen host .varint) (h.imp fun n b' hn => ?_)
  split_ifs
  · intro hle
    have hleft : b'.getReadSize = b'.size - b'.position := rfl
    rcases (resize_take lib memory n b').1 with hr | ⟨hlocal, hr⟩ <;> rw [hr]
    · rw [List.sum_nil]
      omega
    · have hreq := lib.request_le n hlocal
      rw [List.sum_singleton]
      omega
  · exact within_pure [] b'

theorem within_string {f : List UInt8 → Alloc β} (h : Fits lib host b)
    (hf : After (readString host .varint) (fun a b' => Within (f a) b') b) :
    Within (readStringAlloc lib memory host .varint >>= f) b :=
  (within_readString lib memory host h).bind (paid_readStringAlloc lib memory host .varint)
    (readStringAlloc_ok lib memory host .varint) hf

theorem After.of_forall {m : Action α} {P : α → ByteArray → Prop} (h : ∀ a b, P a b) : After m P b := by
  unfold After
  split
  · exact h _ _
  · trivial

theorem sum_le_of_seek (h : After (seek 0) (fun _ b' => Within m b') b) :
    ((lift (seek 0) >>= fun _ => m).run b).1.sum ≤ 2 * b.size := by
  rw [alloc_bind, lift_run]
  cases hseek : seek 0 b with
  | error e => exact Nat.zero_le _
  | ok r =>
    obtain ⟨hpos, hsize⟩ := seek_zero hseek
    rw [After, hseek] at h
    have hreq := h (by omega)
    simp only [List.nil_append]
    omega

theorem parseFields_within (h : FieldsFit lib host t b) :
    ((parseFieldsAlloc lib memory host t).run b).1.sum ≤ 2 * b.size := by
  have hword := paid_readInt host .w32
  have hlast {β : Type} (f : List UInt8 → β) {b : ByteArray} (hfit : Fits lib host b) :
      Within (readStringAlloc lib memory host .varint >>= fun s => pure (f s)) b :=
    within_string lib memory host hfit (.of_forall fun s => within_pure (f s))
  cases t with
  | request =>
    refine sum_le_of_seek (h.imp fun _ b h => within_then hword (h.imp fun sn b h => ?_))
    exact within_then hword (h.imp fun cmd b h => hlast _ h)
  | response =>
    refine sum_le_of_seek (h.imp fun _ b h => within_then hword (h.imp fun sn b h => ?_))
    refine within_then hword (h.imp fun cmd b h => within_then hword (h.imp fun result b h => ?_))
    exact within_string lib memory host h.1 (h.2.imp fun resultStr b h => hlast _ h)
  | notify => exact sum_le_of_seek (h.imp fun _ b h => within_then hword (h.imp fun notify b h => hlast _ h))

theorem attempt_requests (m : Alloc α) (b : ByteArray) : ((attemptAlloc m).run b).1 = (m.run b).1 := by
  unfold attemptAlloc
  simp only
  split <;> simp [*]

theorem parseMessage_within (h : FrameFits lib host b) :
    ((parseMessageAlloc lib memory host).run b).1.sum ≤ 2 * b.size := by
  have hmessage (t : MessageType) {b : ByteArray} (hfit : FieldsFit lib host t b) :
      ((parseFromByteArrayAlloc lib memory host t).run b).1.sum ≤ 2 * b.size := by
    rw [parseFromByteArrayAlloc, attempt_requests]
    exact parseFields_within lib memory host t hfit
  rw [parseMessageAlloc, alloc_bind, lift_run]
  cases hread : readInt host .w8 b with
  | error e => exact Nat.zero_le _
  | ok r =>
    obtain ⟨type, b₁⟩ := r
    obtain ⟨-, hsize, -⟩ := paid_readInt host .w8 b type b₁ [] (by rw [lift_run, hread])
    rw [FrameFits, After, hread] at h
    simp only [List.nil_append]
    rw [← hsize]
    split_ifs with hrequest hresponse hnotify
    · exact hmessage .request (h _ (by simp) hrequest)
    · exact hmessage .response (h _ (by simp) hresponse)
    · exact hmessage .notify (h _ (by simp) hnotify)
    · exact Nat.zero_le _

/-! ## Result -/

/-- **Memory for received strings.** For every implementation of `std::string` and any memory: a string whose announced
length exceeds the bytes that are left throws `std::out_of_range` and requests no more than those bytes iff the string
object itself has room for the announced length; and a frame, decoded or not, in which every announced length is at most
the bytes left or has room in the string object requests at most twice its size. -/
theorem allocation_iff (lib : StringLib) (memory : ℕ → Bool) (host : Endian) :
    (∀ (l : Len) (b b' : ByteArray) (n : ℕ), readLen host l b = .ok (n, b') → n > b'.getReadSize →
        ((((readStringAlloc lib memory host l).run b).2 = .error (.fault .outOfRange) ∧
          ∀ r ∈ ((readStringAlloc lib memory host l).run b).1, r ≤ b'.getReadSize) ↔ n ≤ lib.localCapacity)) ∧
      ∀ b : ByteArray, FrameFits lib host b → ((parseMessageAlloc lib memory host).run b).1.sum ≤ 2 * b.size :=
  ⟨fun l _ _ _ hlen hmore => announced_too_long lib memory host l hlen hmore,
    fun _ h => parseMessage_within lib memory host h⟩

/-- a response with a text of 20 bytes that ends before its body -/
def cutFrame : ByteArray :=
  { baseSize := 64, position := 0, capacity := 64, size := 33, endian := .big
    nodes := [[2, 0, 0, 0, 0, 0, 0, 0, 0, 0, 0, 0, 20] ++ List.replicate 51 0], cur := some 0 }

theorem allocation_iff_cut :
    (((parseMessageAlloc .gnu (fun _ => true) .little).run cutFrame).2.toOption.map Prod.fst = some none ∧
      ((parseMessageAlloc .gnu (fun _ => true) .little).run cutFrame).1 = [31]) ∧
      ((parseMessageAlloc .gnu (fun _ => true) .little).run cutFrame).1.sum ≤ 66 :=
  ⟨by decide +kernel, (allocation_iff .gnu (fun _ => true) .little).2 cutFrame (by decide +kernel)⟩

/-- a request of 14 bytes: two numbers, and the length 2^40 of a body that is not there -/
def terabyteFrame : ByteArray :=
  { baseSize := 16, position := 0, capacity := 16, size := 14, endian := .big
    nodes := [[1, 0, 0, 0, 0, 0, 0, 0, 0x80, 0x80, 0x80, 0x80, 0x80, 0x20, 0, 0]], cur := some 0 }

/-- **A terabyte for 14 bytes.** More than 2^40 bytes are requested; without so much memory the exception is
`std::bad_alloc`. -/
theorem frame_requests_terabyte :
    ((parseMessageAlloc .gnu (fun _ => false) .little).run terabyteFrame).1 = [2 ^ 40 + 1] ∧
      ((readStringAlloc .gnu (fun _ => false) .little .varint).run { terabyteFrame with position := 8 }).2 =
      .error .badAlloc := by
  decide +kernel

end CoServer.Rock
