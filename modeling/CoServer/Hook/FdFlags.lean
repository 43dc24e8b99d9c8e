/-
The two views of `O_NONBLOCK` on a socket (`hook.cpp`, `fd_manager.cpp`): the kernel's flag, which the hooks keep set so
that no thread blocks in a call, and `_userNonblock`, which the user asked for.

`fcntl(F_SETFL)` stores what the user asks for and passes the flags on with `O_NONBLOCK` as the system has it;
`fcntl(F_GETFL)` reports what the user asked for. `ioctl(FIONBIO)` also stores it, but hands the user's value to the
kernel as it is: with 0 a hooked read blocks its thread. A call to the kernel may fail, and then changes nothing there.
The fd stays registered.

Results:
- `getfl_reports`: `F_GETFL` reports what was asked for last.
- `step_kernel`: the kernel's flag after a call: `F_SETFL` sets it, `FIONBIO` makes it what the user asks for, and a
  call that fails leaves it.
- `nonblock_iff`: for a socket with any flags, registered with `FdManager`, and every sequence of calls: after every
  call the kernel's flag is set, `F_GETFL` reports what was asked for last and no hooked read blocks in the kernel iff
  no `FIONBIO` with 0 succeeds.
- `fionbio_clears`: after a `FIONBIO` with 0 the flag is cleared, and a hooked read blocks its thread.
-/
import CoServer.Hook.Machine

namespace CoServer.Hook

open CoServer.Core List

/-! ## Flags -/

def O_NONBLOCK : BitVec 32 := BitVec.twoPow 32 11

/-- the flags that `F_SETFL` can change: `O_APPEND`, `O_NONBLOCK`, `O_ASYNC`, `O_DIRECT` and `O_NOATIME` -/
def setflMask : BitVec 32 := 0x46C00#32

section

variable (flags : BitVec 32)

/-- `flags & O_NONBLOCK` as a condition -/
def nonblock : Bool := flags &&& O_NONBLOCK != 0#32

theorem nonblock_eq : nonblock flags = flags.getLsbD 11 := by
  unfold nonblock O_NONBLOCK
  rw [BitVec.and_twoPow]
  cases flags.getLsbD 11 <;> decide

@[simp] theorem nonblock_set : nonblock (flags ||| O_NONBLOCK) = true := by
  rw [nonblock_eq, BitVec.getLsbD_or, show O_NONBLOCK.getLsbD 11 = true by decide, Bool.or_true]

@[simp] theorem nonblock_cleared : nonblock (flags &&& ~~~O_NONBLOCK) = false := by
  rw [nonblock_eq, BitVec.getLsbD_and, show (~~~O_NONBLOCK).getLsbD 11 = false by decide, Bool.and_false]

/-! ## The kernel -/

/-- `F_SETFL` in the kernel -/
def kernelSetfl (flags arg : BitVec 32) : BitVec 32 := (flags &&& ~~~setflMask) ||| (arg &&& setflMask)

@[simp] theorem nonblock_kernelSetfl (flags arg : BitVec 32) : nonblock (kernelSetfl flags arg) = nonblock arg := by
  rw [nonblock_eq, nonblock_eq, kernelSetfl, BitVec.getLsbD_or, BitVec.getLsbD_and, BitVec.getLsbD_and,
    show (~~~setflMask).getLsbD 11 =
    false by decide, show setflMask.getLsbD 11 = true by decide, Bool.and_false, Bool.false_or,
    Bool.and_true]

/-- `FIONBIO` in the kernel -/
def kernelFionbio (on : Bool) : BitVec 32 := if on then flags ||| O_NONBLOCK else flags &&& ~~~O_NONBLOCK

@[simp] theorem nonblock_kernelFionbio (on : Bool) : nonblock (kernelFionbio flags on) = on := by
  cases on
  · exact nonblock_cleared flags
  · exact nonblock_set flags

end

/-! ## The hooks -/

/-- an `FdCtx` with what the system made of the flag -/
structure FlagCtx extends FdCtx where
  sysNonblock : Bool
deriving DecidableEq

/-- an fd: the flags of its file in the kernel, and its entry in `FdManager` -/
structure Fd where
  flags : BitVec 32
  ctx : Option FlagCtx
deriving DecidableEq

/-- `FdCtx::init` on a file of the given kind -/
def Fd.register (flags : BitVec 32) (isSocket : Bool) : Fd where
  flags := if isSocket ∧ nonblock flags = false then kernelSetfl flags (flags ||| O_NONBLOCK) else flags
  ctx := some
    { isSocket := isSocket
      isClosed := false
      userNonblock := false
      recvTimeout := 2 ^ 64 - 1
      sendTimeout := 2 ^ 64 - 1
      sysNonblock := isSocket }

variable (fd : Fd)

/-- the entry of an open socket: `!ctx || ctx->isClosed() || !ctx->isSocket()` is false -/
def Fd.socketCtx : Option FlagCtx := fd.ctx.filter fun ctx => !ctx.isClosed && ctx.isSocket

def Fd.setUserNonblock (ctx : FlagCtx) (v : Bool) : Fd :=
  { fd with ctx := some { ctx with userNonblock := v } }

/-- a call to the kernel that succeeds or not -/
def Fd.kernel (ok : Bool) (flags : BitVec 32) : Fd := if ok then { fd with flags := flags } else fd

/-- `fcntl(fd, F_SETFL, arg)` -/
def Fd.setfl (arg : BitVec 32) (ok : Bool) : Fd :=
  match fd.socketCtx with
  | none => fd.kernel ok (kernelSetfl fd.flags arg)
  | some ctx =>
    (fd.setUserNonblock ctx (nonblock arg)).kernel ok
      (kernelSetfl fd.flags (if ctx.sysNonblock then arg ||| O_NONBLOCK else arg &&& ~~~O_NONBLOCK))

/-- what `fcntl(fd, F_GETFL)` returns -/
def Fd.getfl : BitVec 32 :=
  match fd.socketCtx with
  | none => fd.flags
  | some ctx => if ctx.userNonblock then fd.flags ||| O_NONBLOCK else fd.flags &&& ~~~O_NONBLOCK

/-- `ioctl(fd, FIONBIO, &value)` -/
def Fd.fionbio (value : BitVec 32) (ok : Bool) : Fd :=
  match fd.socketCtx with
  | none => fd.kernel ok (kernelFionbio fd.flags (value != 0#32))
  | some ctx => (fd.setUserNonblock ctx (value != 0#32)).kernel ok (kernelFionbio fd.flags (value != 0#32))

/-- the calls of a user; each but `F_GETFL` says whether the kernel does it -/
inductive FlagOp where
  | setfl (arg : BitVec 32) (ok : Bool)
  | getfl
  | fionbio (value : BitVec 32) (ok : Bool)
deriving DecidableEq

def Fd.step : FlagOp → Fd
  | .setfl arg ok => fd.setfl arg ok
  | .getfl => fd
  | .fionbio value ok => fd.fionbio value ok

/-- what a call asks for -/
def FlagOp.asks : FlagOp → Option Bool
  | .setfl arg _ => some (nonblock arg)
  | .getfl => none
  | .fionbio value _ => some (value != 0#32)

/-! ## The entry of a registered socket -/

/-- an open socket whose entry has what was asked for last in `hist` -/
structure SocketEntry (fd : Fd) (hist : List FlagOp) : Prop where
  ctx : ∃ ctx, fd.socketCtx = some ctx ∧ fd.ctx = some ctx ∧ ctx.sysNonblock = true ∧
    ctx.userNonblock = (latest FlagOp.asks hist).getD false

variable {fd : Fd} {hist : List FlagOp} (flags : BitVec 32)

theorem socketCtx_of {ctx : FlagCtx} (h : fd.ctx = some ctx) (hclosed : ctx.isClosed = false)
    (hsocket : ctx.isSocket = true) : fd.socketCtx = some ctx := by
  rw [Fd.socketCtx, h, Option.filter_some, if_pos (by rw [hclosed, hsocket]; rfl)]

theorem open_of_socketCtx {ctx : FlagCtx} (h : fd.socketCtx = some ctx) :
    ctx.isClosed = false ∧ ctx.isSocket = true := by
  have hopen := (Option.filter_eq_some_iff.1 h).2
  simpa using hopen

theorem socketEntry_register : SocketEntry (Fd.register flags true) [] := ⟨_, socketCtx_of rfl rfl rfl, rfl, rfl, rfl⟩

@[simp] theorem ctx_kernel (fd : Fd) (ok : Bool) (flags : BitVec 32) : (fd.kernel ok flags).ctx = fd.ctx := by
  cases ok <;> rfl

theorem flags_kernel (fd : Fd) (ok : Bool) (flags : BitVec 32) :
    (fd.kernel ok flags).flags = if ok then flags else fd.flags := by
  cases ok <;> rfl

theorem SocketEntry.asked {fd' : Fd} {o : FlagOp} {v : Bool} {ctx : FlagCtx} (hctx : fd.socketCtx = some ctx)
    (hsys : ctx.sysNonblock = true) (ho : o.asks = some v) (h : fd'.ctx = some { ctx with userNonblock := v }) :
    SocketEntry fd' (hist ++ [o]) := by
  obtain ⟨hclosed, hsocket⟩ := open_of_socketCtx hctx
  refine ⟨{ ctx with userNonblock := v }, socketCtx_of h hclosed hsocket, h, hsys, ?_⟩
  rw [latest_snoc, ho]
  rfl

theorem SocketEntry.step (h : SocketEntry fd hist) (o : FlagOp) : SocketEntry (fd.step o) (hist ++ [o]) := by
  obtain ⟨ctx, hctx, hfd, hsys, huser⟩ := h
  cases o with
  | getfl =>
    refine ⟨ctx, hctx, hfd, hsys, ?_⟩
    rw [huser, latest_snoc]
    rfl
  | setfl arg ok => exact SocketEntry.asked hctx hsys rfl (by simp [Fd.step, Fd.setfl, hctx, Fd.setUserNonblock])
  | fionbio value ok => exact SocketEntry.asked hctx hsys rfl (by simp [Fd.step, Fd.fionbio, hctx, Fd.setUserNonblock])

theorem socketEntry_run (ops : List FlagOp) : SocketEntry (run Fd.step (Fd.register flags true) ops) ops := by
  induction ops using List.reverseRecOn with
  | nil => exact socketEntry_register flags
  | append_singleton ops o ih =>
    rw [run_append]
    exact ih.step o

/-- **The user's view.** -/
theorem getfl_reports (h : SocketEntry fd hist) : nonblock fd.getfl = (latest FlagOp.asks hist).getD false := by
  obtain ⟨ctx, hctx, -, -, huser⟩ := h
  rw [Fd.getfl, hctx, ← huser]
  cases hu : ctx.userNonblock with
  | true | false => simp [hu]

/-! ## The kernel's view -/

theorem step_kernel (h : SocketEntry fd hist) (o : FlagOp) :
    nonblock (fd.step o).flags =
      match o with
      | .setfl _ true => true
      | .fionbio value true => value != 0#32
      | _ => nonblock fd.flags := by
  obtain ⟨ctx, hctx, -, hsys, -⟩ := h
  cases o with
  | getfl => rfl
  | setfl arg ok => cases ok <;> simp [Fd.step, Fd.setfl, hctx, hsys, flags_kernel, Fd.setUserNonblock]
  | fionbio value ok => cases ok <;> simp [Fd.step, Fd.fionbio, hctx, flags_kernel, Fd.setUserNonblock]

theorem nonblock_register : nonblock (Fd.register flags true).flags = true := by
  cases h : nonblock flags <;> simp [Fd.register, h]

theorem kernel_run (ops : List FlagOp) (h : .fionbio 0#32 true ∉ ops) :
    nonblock (run Fd.step (Fd.register flags true) ops).flags = true := by
  induction ops using List.reverseRecOn with
  | nil => exact nonblock_register flags
  | append_singleton ops o ih =>
    rw [mem_append, not_or, mem_singleton] at h
    have hstep := step_kernel (socketEntry_run flags ops) o
    rw [ih h.1] at hstep
    rw [run_append, run_cons, run_nil, hstep]
    split
    · rfl
    · next value => exact bne_iff_ne.2 fun hz => h.2 (by rw [hz])
    · rfl

/-! ## Result -/

/-- a call of the user that goes through the `IOManager` calls the original function, which blocks the thread if the
kernel's flag is clear and nothing is there -/
def Fd.mayBlock (fd : Fd) (timeoutSo : TimeoutType) : Prop :=
  (∃ timeout, doIoEntry true (fd.ctx.map FlagCtx.toFdCtx) timeoutSo = .hooked timeout) ∧ nonblock fd.flags = false

/-- both views are right after the calls `hist` -/
structure RightFlags (fd : Fd) (hist : List FlagOp) : Prop where
  kernel : nonblock fd.flags = true
  reported : nonblock fd.getfl = (latest FlagOp.asks hist).getD false
  never_blocks : ∀ timeoutSo, ¬ fd.mayBlock timeoutSo

/-- **The two views of `O_NONBLOCK`.** -/
theorem nonblock_iff (flags : BitVec 32) (ops : List FlagOp) :
    (∀ n, RightFlags (run Fd.step (Fd.register flags true) (ops.take n)) (ops.take n)) ↔ .fionbio 0#32 true ∉ ops := by
  constructor
  · intro hall hmem
    obtain ⟨before, after, rfl⟩ := append_of_mem hmem
    have hright := hall (before.length + 1)
    have htake : (before ++ .fionbio 0#32 true :: after).take (before.length + 1) = before ++ [.fionbio 0#32 true] := by
      rw [take_append, take_of_length_le (Nat.le_succ _), Nat.add_sub_cancel_left, take_succ_cons, take_zero]
    rw [htake, run_append, run_cons, run_nil] at hright
    have hkernel := hright.kernel
    rw [step_kernel (socketEntry_run flags before)] at hkernel
    simp at hkernel
  · intro hno n
    have hkernel := kernel_run flags (ops.take n) fun hmem => hno (mem_of_mem_take hmem)
    refine ⟨hkernel, getfl_reports (socketEntry_run flags (ops.take n)), fun timeoutSo hblock => ?_⟩
    exact Bool.false_ne_true (hblock.2.symm.trans hkernel)

/-- **`FIONBIO` with 0.** -/
theorem fionbio_clears :
    nonblock ((Fd.register 2#32 true).step (.fionbio 0#32 true)).flags = false ∧
      ((Fd.register 2#32 true).step (.fionbio 0#32 true)).mayBlock .recv :=
  ⟨by decide, ⟨2 ^ 64 - 1, by decide⟩, by decide⟩

end CoServer.Hook
