import Mathlib.Data.UInt
import Mathlib.Data.List.Basic

/-!
# What the injector sees of a traced thread (strace/src/defs.h, dst_fuzz.c)

- `UserRegs`: `struct user_regs_struct`, with `compareRegs`, the number of
  registers two snapshots disagree on (dst_fuzz.c:558–599).
- `Tcb`: the fields of strace's trace control block that the injector reads or
  writes.
- `getLengthFrom…`: the length of a scatter/gather call, summed over the
  `iovec`s in the memory of the tracee (dst_fuzz.c:510–556). The pointer
  arithmetic is the source's: in two of the three functions the offset is
  scaled by `sizeof(struct iovec)` a second time.
-/

namespace DistFuzz.Injector

/-! ## Registers -/

/-- `struct user_regs_struct` (x86-64). -/
structure UserRegs where
  r15 : UInt64
  r14 : UInt64
  r13 : UInt64
  r12 : UInt64
  rbp : UInt64
  rbx : UInt64
  r11 : UInt64
  r10 : UInt64
  r9 : UInt64
  r8 : UInt64
  rax : UInt64
  rcx : UInt64
  rdx : UInt64
  rsi : UInt64
  rdi : UInt64
  origRax : UInt64
  rip : UInt64
  cs : UInt64
  eflags : UInt64
  rsp : UInt64
  ss : UInt64
  fsBase : UInt64
  gsBase : UInt64
  ds : UInt64
  es : UInt64
  fs : UInt64
  gs : UInt64
deriving DecidableEq, Repr

namespace UserRegs

/-- The registers in the order `compare_and_warning_regs_differences` visits
them. -/
def toList (r : UserRegs) : List UInt64 :=
  [r.r15, r.r14, r.r13, r.r12, r.rbp, r.rbx, r.r11, r.r10, r.r9, r.r8, r.rax, r.rcx, r.rdx,
    r.rsi, r.rdi, r.origRax, r.rip, r.cs, r.eflags, r.rsp, r.ss, r.fsBase, r.gsBase, r.ds,
    r.es, r.fs, r.gs]

/-- All registers zero. -/
def zero : UserRegs :=
  ⟨0, 0, 0, 0, 0, 0, 0, 0, 0, 0, 0, 0, 0, 0, 0, 0, 0, 0, 0, 0, 0, 0, 0, 0, 0, 0, 0⟩

end UserRegs

/-- `compare_and_warning_regs_differences`: how many registers differ. -/
def compareRegs (new old : UserRegs) : Nat :=
  (new.toList.zip old.toList).countP fun p => p.1 != p.2

/-- Snapshots that differ in `rax` at most. -/
theorem compareRegs_rax (r : UserRegs) (rax : UInt64) :
    compareRegs { r with rax := rax } r < 2 := by
  by_cases h : rax = r.rax
  · simp [compareRegs, UserRegs.toList, h]
  · simp [compareRegs, UserRegs.toList, h]

/-! ## The trace control block -/

/-- The part of `struct inject_data` that the injector fills in for the current
system call. -/
structure InjectData where
  flags : UInt8
  rvalIdx : UInt16
  delayIdx : UInt16
deriving DecidableEq, Repr

/-- The fields of `struct tcb` the injector uses. `injectVec` is the entry of
`inject_vec[current_personality]` for the current system call. -/
structure Tcb where
  pid : Nat
  scno : UInt64
  uArg : Fin 6 → UInt64
  flags : UInt32
  qualFlg : UInt32
  injectVec : Option InjectData

/-- `INJECT_F_RETVAL` (defs.h:224). -/
def injectFRetval : UInt8 := 0x04

/-- `INJECT_F_DELAY_ENTER` (defs.h:225). -/
def injectFDelayEnter : UInt8 := 0x08

/-- `QUAL_INJECT` (defs.h). -/
def qualInject : UInt32 := 0x010

/-! ## Lengths of scatter/gather calls -/

/-- The memory of the tracee: the eight-byte word at an address, as `umove`
delivers it. -/
abbrev TraceeMemory := UInt64 → UInt64

/-- `sizeof(struct iovec)`; `iov_len` is its second word. -/
def sizeofIovec : UInt64 := 16

/-- `sizeof(struct mmsghdr)`. -/
def sizeofMmsghdr : UInt64 := 64

/-- `iov_len` of the `struct iovec` at an address. -/
def iovLen (mem : TraceeMemory) (addr : UInt64) : UInt64 := mem (addr + 8)

/-- `msg_iov` of the `struct msghdr` at an address. -/
def msgIov (mem : TraceeMemory) (addr : UInt64) : UInt64 := mem (addr + 16)

/-- `msg_iovlen` of the `struct msghdr` at an address. -/
def msgIovlen (mem : TraceeMemory) (addr : UInt64) : UInt64 := mem (addr + 24)

/-- `get_length_from_iovec`. -/
def getLengthFromIovec (mem : TraceeMemory) (tcp : Tcb) (iovPos iovcntPos : Fin 6) : UInt64 :=
  (List.range (tcp.uArg iovcntPos).toNat).foldl
    (fun length i => length + iovLen mem (tcp.uArg iovPos + sizeofIovec * UInt64.ofNat i)) 0

/-- `get_length_from_msg`: `msg.msg_iov + sizeof(struct iovec) * i` is
arithmetic on a `struct iovec *`. -/
def getLengthFromMsg (mem : TraceeMemory) (tcp : Tcb) (msgPos : Fin 6) : UInt64 :=
  let msg := tcp.uArg msgPos
  (List.range (msgIovlen mem msg).toNat).foldl
    (fun length i =>
      length + iovLen mem (msgIov mem msg + sizeofIovec * (sizeofIovec * UInt64.ofNat i))) 0

/-- `get_length_from_mmsg`: the inner loop counts with `j` and reads at `i`. -/
def getLengthFromMmsg (mem : TraceeMemory) (tcp : Tcb) (msgvecPos vlenPos : Fin 6) : UInt64 :=
  (List.range (tcp.uArg vlenPos).toNat).foldl
    (fun length i =>
      let msgHdr := tcp.uArg msgvecPos + sizeofMmsghdr * UInt64.ofNat i
      (List.range (msgIovlen mem msgHdr).toNat).foldl
        (fun length _ =>
          length
            + iovLen mem (msgIov mem msgHdr + sizeofIovec * (sizeofIovec * UInt64.ofNat i)))
        length) 0

end DistFuzz.Injector
