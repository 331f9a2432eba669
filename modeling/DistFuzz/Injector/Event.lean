import DistFuzz.Injector.Coverage
import DistFuzz.Injector.Tracee
import DistFuzz.Random
import Mathlib.Data.List.Infix

/-!
# The fault decision of the strace injector (strace/src/dst_fuzz.c:161–472)

`dst_fuzz_syscall_enter` runs at every syscall-enter stop. For the read and
write families it calls `handle_random_event`, which

1. lets the call through if a duplication is pending (`stored_regs`);
2. returns if fuzzing is off or the descriptor is not to be touched;
3. draws a byte, and from `50` on injects a fault: one more byte picks an entry
   of the local table `events`, whose index is taken modulo
   `NUM_INJECT_EVENTS` for sends on sockets and modulo `2` otherwise;
4. records the event in the coverage map (label `EXIT`).

The steps are separate functions here (`screen`, `chooseEvent`, `applyEvent`,
`exitEvent`), chained by `handleRandomEvent`. What a call finds outside the
injector is in `Call`: the descriptor's path, the fuzzing flag, the registers,
and the `int` that happens to follow `events` in memory.
-/

namespace DistFuzz.Injector

/-! ## Data -/

/-- `enum INJECT_EVENT` (dst_fuzz.h:11). -/
inductive InjectEvent where
  | delay
  | fail
  | lost
  | dup
  | netpart
  | numInjectEvents
deriving DecidableEq, Repr

/-- The value of an enumerator. -/
def InjectEvent.toNat : InjectEvent → Nat
  | .delay => 0
  | .fail => 1
  | .lost => 2
  | .dup => 3
  | .netpart => 4
  | .numInjectEvents => 5

/-- The local table `events` (dst_fuzz.c:315–319). -/
def events : List InjectEvent := [.delay, .fail, .lost, .dup]

/-- `READ_ERROR_CODES`: `0`, `EAGAIN`, `EWOULDBLOCK`, `EBADF`, `EFAULT`,
`EINTR`, `EINVAL`, `EIO`. -/
def readErrorCodes : List Int64 := [0, 11, 11, 9, 14, 4, 22, 5]

/-- `WRITE_ERROR_CODES`: `EAGAIN`, `EWOULDBLOCK`, `EBADF`, `EDESTADDRREQ`,
`EDQUOT`, `EFAULT`, `EFBIG`, `EINTR`, `EINVAL`, `EIO`, `ENOSPC`, `EPERM`,
`EPIPE`. -/
def writeErrorCodes : List Int64 := [11, 11, 9, 89, 122, 14, 27, 4, 22, 5, 28, 1, 32]

/-- The environment of an injector process: `NO_FAULT` set, `NO_FAULT_FILES`. -/
structure InjectorEnv where
  noFault : Bool
  noFaultFiles : Option (List Char)

/-- A syscall-enter stop, with what the injector looks up while handling it:
`get_is_fuzzing()`, the link `/proc/<pid>/fd/<fd>` (`none` if it cannot be
read), the registers, the tracee's memory, and what stands in memory right
after `events`, if that is the value of an enumerator. -/
structure Call where
  tcp : Tcb
  isFuzzing : Bool
  filePath : Option (List Char)
  regs : UserRegs
  mem : TraceeMemory
  pastEvents : Option InjectEvent

/-- The static variables of an injector process, and the memory it shares.
`died` says that `error_func_msg_and_die` was reached. -/
structure InjectorState where
  storedRegs : Option UserRegs
  random : RandomFile
  netPartition : Bool
  retvalVec : List Int64
  delayDataVec : List UInt16
  proc : NodeProcess
  shared : Shared
  died : Bool

/-- An injector process that has loaded its random file and handled nothing. -/
def InjectorState.init (file : List UInt8) (env : HashEnv) (shared : Shared) :
    InjectorState :=
  { storedRegs := none, random := .load file, netPartition := false, retvalVec := [],
    delayDataVec := [], proc := ⟨env, 0⟩, shared := shared, died := false }

/-- What `handle_random_event` decided about a call it did not ignore: the index
it used in `events` (none if it did not get there) and the case of the switch
it took (none if no case matched). -/
structure EventRecord where
  isSend : Bool
  isFile : Bool
  faultInjected : Bool
  index : Option Nat
  injected : Option InjectEvent
deriving DecidableEq, Repr

/-- How `handle_random_event` ended: the call was let through to be executed
again, it was ignored, the event was recorded, or the tracer died over it. -/
inductive Outcome where
  | replayed
  | ignored
  | recorded (r : EventRecord)
  | died (r : EventRecord)
deriving DecidableEq, Repr

/-- The decision behind an outcome, if there was one. -/
def Outcome.event? : Outcome → Option EventRecord
  | .replayed => none
  | .ignored => none
  | .recorded r => some r
  | .died r => some r

/-- State, trace control block and outcome after a call. -/
structure Handled where
  injector : InjectorState
  tcp : Tcb
  outcome : Outcome

/-! ## Which calls are touched -/

/-- The path fragments that exempt a file. -/
def exemptFragments : List (List Char) :=
  [".o".toList, ".so".toList, ".cfg".toList, "lib".toList, "/sys".toList, "/usr".toList,
    "/proc".toList, "/dev".toList, "/etc".toList, ".properties".toList, ".jar".toList]

/-- `strstr(file_path, fragment) != NULL`. -/
def contains (path fragment : List Char) : Bool := decide (fragment <:+: path)

/-- The entries of `NO_FAULT_FILES`: `strtok` skips empty ones. -/
def noFaultFileList (env : InjectorEnv) : List (List Char) :=
  ((env.noFaultFiles.getD []).splitOn ',').filter (· ≠ [])

/-- `is_file` and `is_eventfd`. -/
structure FileKind where
  isFile : Bool
  isEventfd : Bool
deriving DecidableEq, Repr

/-- The switch on `file_path[0]`: `none` where the function returns. -/
def fileKind (env : InjectorEnv) (path : List Char) : Option FileKind :=
  match path.head? with
  -- `socket:[...]`
  | some 's' => some ⟨false, false⟩
  -- `pipe:[...]`
  | some 'p' => none
  -- a path, or one of the `anon_inode`s
  | _ =>
    if exemptFragments.any (contains path) then none
    else if (noFaultFileList env).any (contains path) then none
    else some ⟨true, contains path "[eventfd]".toList⟩

/-- The checks before the fault decision. -/
def screen (env : InjectorEnv) (c : Call) : Option FileKind :=
  if !c.isFuzzing then none
  else if c.tcp.uArg 0 < 3 then none
  else c.filePath.bind (fileKind env)

/-! ## The decision -/

/-- `supported_event_size`. -/
def supportedEventSize (isSend isFile : Bool) : Nat :=
  if !isSend || isFile then 2 else InjectEvent.numInjectEvents.toNat

/-- How an injected event is picked: the index into `events` (none for the jump
to the label `NETPART`), with the stream and the partition flag after it. -/
structure Choice where
  index : Option Nat
  random : RandomFile
  netPartition : Bool

/-- The byte that picks the event. -/
def drawIndex (isSend isFile : Bool) (r : RandomFile) : Nat :=
  r.getRandomUint8.1.toNat % supportedEventSize isSend isFile

/-- dst_fuzz.c:320–336. During a partition a byte first decides whether it
heals. -/
def chooseEvent (isSend : Bool) (kind : FileKind) (r : RandomFile) (netPartition : Bool) :
    Choice :=
  if netPartition && !kind.isFile then
    let heal := r.getRandomUint8
    if heal.1 % 2 == 0 then
      -- the partition is over, and the call gets a fault of its own
      ⟨some (drawIndex isSend kind.isFile heal.2), heal.2.getRandomUint8.2, false⟩
    else
      -- `goto NETPART`
      ⟨none, heal.2, netPartition⟩
  else
    ⟨some (drawIndex isSend kind.isFile r), r.getRandomUint8.2, netPartition⟩

/-- The case of the switch that runs: past the end of `events` it is whatever
the memory there holds. -/
def Choice.event (ch : Choice) (pastEvents : Option InjectEvent) : Option InjectEvent :=
  match ch.index with
  | none => some .netpart
  | some i => if h : i < events.length then some events[i] else pastEvents

/-! ## The switch -/

/-- `retval_new`: `none` is `error_func_msg_and_die`. -/
def retvalNew (vec : List Int64) (rval : Int64) : Option (UInt16 × List Int64) :=
  let idx := UInt16.ofNat vec.length
  if idx.toNat < vec.length then none else some (idx, vec ++ [rval])

/-- `alloc_delay_data`, then `fill_delay_data` with a delay in milliseconds. -/
def allocDelayData (vec : List UInt16) (ms : UInt16) : Option (UInt16 × List UInt16) :=
  let idx := UInt16.ofNat vec.length
  if idx.toNat < vec.length then none else some (idx, vec ++ [ms])

/-- A fresh `opts[tcp->scno].data`. -/
def freshData : InjectData := ⟨0, 0xffff, 0xffff⟩

/-- Hand a return value to strace: the common part of `FAIL`, `LOST` and
`NETPART`. -/
def injectRetval (s : InjectorState) (tcp : Tcb) (rval : Int64) : Option (InjectorState × Tcb) :=
  (retvalNew s.retvalVec rval).map fun slot =>
    ({ s with retvalVec := slot.2 },
     { tcp with
       qualFlg := tcp.qualFlg ||| qualInject
       flags := tcp.flags ||| injectFRetval.toUInt32
       injectVec := some { freshData with flags := injectFRetval, rvalIdx := slot.1 } })

/-- `case DELAY`. -/
def injectDelay (s : InjectorState) (tcp : Tcb) : Option (InjectorState × Tcb) :=
  let ms := s.random.getRandomUint16
  (allocDelayData s.delayDataVec (ms.1 % 1000)).map fun slot =>
    ({ s with delayDataVec := slot.2, random := ms.2 },
     { tcp with
       qualFlg := tcp.qualFlg ||| qualInject
       flags := tcp.flags ||| injectFDelayEnter.toUInt32
       injectVec := some { freshData with flags := injectFDelayEnter, delayIdx := slot.1 } })

/-- `case FAIL`: eventfds always fail with `EAGAIN`, without drawing a byte. -/
def injectFail (s : InjectorState) (tcp : Tcb) (isEventfd : Bool) (errorCodes : List Int64) :
    Option (InjectorState × Tcb) :=
  if isEventfd then
    injectRetval s tcp (-11)
  else
    let b := s.random.getRandomUint8
    injectRetval { s with random := b.2 } tcp
      (-(errorCodes.getD (b.1.toNat % errorCodes.length) 0))

/-- The switch on the picked event (dst_fuzz.c:336–395); `none` if the tracer
died. The label `NETPART` sits inside `case NETPART`, behind the assignment
that starts a partition; the jump finds it already set. -/
def applyEvent (s : InjectorState) (c : Call) (kind : FileKind) (length : UInt64)
    (errorCodes : List Int64) : Option InjectEvent → Option (InjectorState × Tcb)
  | some .delay => injectDelay s c.tcp
  | some .fail => injectFail s c.tcp kind.isEventfd errorCodes
  | some .lost => injectRetval s c.tcp length.toInt64
  | some .dup => some ({ s with storedRegs := some c.regs },
      { c.tcp with injectVec := some freshData })
  | some .netpart => injectRetval { s with netPartition := true } c.tcp (-1)
  | some .numInjectEvents => some (s, { c.tcp with injectVec := some freshData })
  | none => some (s, { c.tcp with injectVec := some freshData })

/-! ## The whole handler -/

/-- The label `EXIT`. -/
def exitEvent (s : InjectorState) (tcp : Tcb) (length : UInt64) (r : EventRecord) : Handled :=
  let p := recordEvent s.shared s.proc ⟨tcp.scno.toUInt32, length, r.faultInjected⟩
  { injector := { s with shared := p.1, proc := p.2 }, tcp := tcp, outcome := .recorded r }

/-- dst_fuzz.c:292–395: a fault is injected. -/
def injectFault (s : InjectorState) (c : Call) (kind : FileKind) (isSend : Bool) (length : UInt64)
    (errorCodes : List Int64) : Handled :=
  let ch := chooseEvent isSend kind s.random s.netPartition
  let ev := ch.event c.pastEvents
  let r : EventRecord :=
    { isSend := isSend, isFile := kind.isFile, faultInjected := true, index := ch.index,
      injected := ev }
  let s' := { s with random := ch.random, netPartition := ch.netPartition }
  match applyEvent s' c kind length errorCodes ev with
  | none => { injector := { s' with died := true }, tcp := c.tcp, outcome := .died r }
  | some (s'', tcp) => exitEvent s'' tcp length r

/-- dst_fuzz.c:279–412: the decision for a call that is not exempt. -/
def decideFault (env : InjectorEnv) (s : InjectorState) (c : Call) (kind : FileKind) (isSend : Bool)
    (length : UInt64) (errorCodes : List Int64) : Handled :=
  let r : EventRecord :=
    { isSend := isSend, isFile := kind.isFile, faultInjected := false, index := none,
      injected := none }
  if env.noFault then
    exitEvent s c.tcp length r
  else
    let b := s.random.getRandomUint8
    let s' := { s with random := b.2 }
    if b.1 < 50 then exitEvent s' c.tcp length r
    else injectFault s' c kind isSend length errorCodes

/-- `handle_random_event`. A process that died handles nothing. -/
def handleRandomEvent (env : InjectorEnv) (s : InjectorState) (c : Call) (isSend : Bool)
    (length : UInt64) (errorCodes : List Int64) : Handled :=
  if s.died then ⟨s, c.tcp, .ignored⟩
  else match s.storedRegs with
    -- whichever thread made the call, it is taken for the duplicated one
    | some _ => ⟨{ s with storedRegs := none }, c.tcp, .replayed⟩
    | none =>
      match screen env c with
      | none => ⟨s, c.tcp, .ignored⟩
      | some kind => decideFault env s c kind isSend length errorCodes

/-- Where the length of a system call stands. -/
inductive LengthSource where
  | arg
  | iovec
  | msg
  | mmsg
deriving DecidableEq, Repr

/-- The switch of `dst_fuzz_syscall_enter`: direction and length of the handled
system calls (x86-64 numbers). -/
def syscallKind (scno : UInt64) : Option (Bool × LengthSource) :=
  match scno.toNat with
  | 0 => some (false, .arg)      -- read
  | 1 => some (true, .arg)       -- write
  | 19 => some (false, .iovec)   -- readv
  | 295 => some (false, .iovec)  -- preadv
  | 327 => some (false, .iovec)  -- preadv2
  | 20 => some (true, .iovec)    -- writev
  | 296 => some (true, .iovec)   -- pwritev
  | 328 => some (true, .iovec)   -- pwritev2
  | 45 => some (false, .arg)     -- recvfrom
  | 44 => some (true, .arg)      -- sendto
  | 47 => some (false, .msg)     -- recvmsg
  | 46 => some (true, .msg)      -- sendmsg
  | 299 => some (false, .mmsg)   -- recvmmsg
  | 307 => some (true, .mmsg)    -- sendmmsg
  | _ => none

/-- The length handed to `handle_random_event`. -/
def callLength (c : Call) : LengthSource → UInt64
  | .arg => c.tcp.uArg 2
  | .iovec => getLengthFromIovec c.mem c.tcp 1 2
  | .msg => getLengthFromMsg c.mem c.tcp 1
  | .mmsg => getLengthFromMmsg c.mem c.tcp 1 2

/-- The second argument of a send: its buffer, its array of buffers or its messages. -/
abbrev Tcb.bufferArg (tcp : Tcb) : UInt64 := tcp.uArg 1

/-- The third one: the length or the number of those. -/
abbrev Tcb.countArg (tcp : Tcb) : UInt64 := tcp.uArg 2

/-- `dst_fuzz_syscall_enter`. -/
def dstFuzzSyscallEnter (env : InjectorEnv) (s : InjectorState) (c : Call) : Handled :=
  match syscallKind c.tcp.scno with
  | none => ⟨s, c.tcp, .ignored⟩
  | some (isSend, source) =>
    handleRandomEvent env s c isSend (callLength c source)
      (if isSend then writeErrorCodes else readErrorCodes)

/-- The value that `retval_new` was given between two states, if it was called: the
fault is one that hands back a value in place of the call. -/
def retvalDrawn (before after : InjectorState) : Option Int64 :=
  after.retvalVec[before.retvalVec.length]?

/-- The number that `tamper_with_syscall_entering` gives to a call that is not to be
executed: `-1`. -/
def noSyscall : UInt64 := 0xffffffffffffffff

/-- `dst_fuzz_syscall_exiting_finish`: the registers it sets, if it does. It compares the
registers of whichever thread exits with the stored ones. -/
def dstFuzzSyscallExitingFinish (s : InjectorState) (regs : UserRegs) : Option UserRegs :=
  (s.storedRegs.filter fun stored => compareRegs regs stored < 2).map fun stored =>
    { regs with rax := stored.origRax, rip := stored.rip - 2 }

/-! ## What a call can do -/

/-- The two ends of the fault decision: nothing is injected, or the byte drawn
is at least `50` and `injectFault` takes over. -/
theorem decideFault_cases (env : InjectorEnv) (s : InjectorState) (c : Call) (kind : FileKind)
    (isSend : Bool) (length : UInt64) (errorCodes : List Int64) :
    (∃ s', decideFault env s c kind isSend length errorCodes =
        exitEvent s' c.tcp length
          { isSend := isSend, isFile := kind.isFile, faultInjected := false, index := none,
            injected := none } ∧
      (s' = s ∨ s' = { s with random := s.random.getRandomUint8.2 })) ∨
    (env.noFault = false ∧ 50 ≤ s.random.getRandomUint8.1 ∧
      decideFault env s c kind isSend length errorCodes =
        injectFault { s with random := s.random.getRandomUint8.2 } c kind isSend length
          errorCodes) := by
  rw [decideFault]
  cases hno : env.noFault with
  | true => exact .inl ⟨s, rfl, .inl rfl⟩
  | false =>
    by_cases hb : s.random.getRandomUint8.1 < 50
    · exact .inl ⟨_, by simp only [hb, Bool.false_eq_true, if_false, if_true], .inr rfl⟩
    · refine .inr ⟨rfl, UInt8.not_lt.mp hb, ?_⟩
      simp only [hb, Bool.false_eq_true, if_false]

/-- The four ends of `dst_fuzz_syscall_enter`: nothing happens, the pending
duplication is cleared, the event is recorded without a fault, or a byte that is
at least `50` was drawn and `injectFault` takes over. -/
theorem enter_cases (env : InjectorEnv) (s : InjectorState) (c : Call) :
    (dstFuzzSyscallEnter env s c = ⟨s, c.tcp, .ignored⟩) ∨
    (∃ regs, s.storedRegs = some regs ∧ (syscallKind c.tcp.scno).isSome ∧ s.died = false ∧
      dstFuzzSyscallEnter env s c = ⟨{ s with storedRegs := none }, c.tcp, .replayed⟩) ∨
    (∃ (s' : InjectorState) (kind : FileKind) (isSend : Bool) (source : LengthSource),
      (s' = s ∨ s' = { s with random := s.random.getRandomUint8.2 }) ∧
      dstFuzzSyscallEnter env s c =
        exitEvent s' c.tcp (callLength c source)
          { isSend := isSend, isFile := kind.isFile, faultInjected := false, index := none,
            injected := none }) ∨
    (∃ kind isSend source, s.storedRegs = none ∧ s.died = false ∧
      syscallKind c.tcp.scno = some (isSend, source) ∧ screen env c = some kind ∧
      env.noFault = false ∧ 50 ≤ s.random.getRandomUint8.1 ∧
      dstFuzzSyscallEnter env s c =
        injectFault { s with random := s.random.getRandomUint8.2 } c kind isSend
          (callLength c source) (if isSend then writeErrorCodes else readErrorCodes)) := by
  cases hsys : syscallKind c.tcp.scno with
  | none => exact .inl (by rw [dstFuzzSyscallEnter, hsys])
  | some ds =>
    obtain ⟨isSend, source⟩ := ds
    have hent : dstFuzzSyscallEnter env s c = handleRandomEvent env s c isSend
        (callLength c source) (if isSend then writeErrorCodes else readErrorCodes) := by
      rw [dstFuzzSyscallEnter, hsys]
    by_cases hdied : s.died = true
    · exact .inl (by rw [hent, handleRandomEvent, if_pos hdied])
    · rw [handleRandomEvent, if_neg hdied] at hent
      rw [Bool.not_eq_true] at hdied
      rcases Option.eq_none_or_eq_some s.storedRegs with hregs | ⟨regs, hregs⟩
      · rcases Option.eq_none_or_eq_some (screen env c) with hscr | ⟨kind, hscr⟩
        · exact .inl (by rw [hent, hregs, hscr])
        · rw [hregs, hscr] at hent
          rcases decideFault_cases env s c kind isSend (callLength c source)
            (if isSend then writeErrorCodes else readErrorCodes) with
            ⟨s', h, hs'⟩ | ⟨hno, hb, h⟩
          · exact .inr (.inr (.inl ⟨s', kind, isSend, source, hs', hent.trans h⟩))
          · exact .inr (.inr (.inr ⟨kind, isSend, source, hregs, hdied, rfl, hscr, hno, hb,
              hent.trans h⟩))
      · exact .inr (.inl ⟨regs, hregs, rfl, hdied, by rw [hent, hregs]⟩)

/-- A call that is not exempt, met by a fault byte, is handed to `injectFault`. -/
theorem enter_of_drawn {env : InjectorEnv} {s : InjectorState} {c : Call} {isSend : Bool}
    {source : LengthSource} {kind : FileKind} (halive : s.died = false)
    (hregs : s.storedRegs = none) (hsys : syscallKind c.tcp.scno = some (isSend, source))
    (hscr : screen env c = some kind) (hfaults : env.noFault = false)
    (hbyte : 50 ≤ s.random.getRandomUint8.1) :
    dstFuzzSyscallEnter env s c =
      injectFault { s with random := s.random.getRandomUint8.2 } c kind isSend
        (callLength c source) (if isSend then writeErrorCodes else readErrorCodes) := by
  have hno : ¬s.random.getRandomUint8.1 < 50 := UInt8.not_lt.mpr hbyte
  rw [dstFuzzSyscallEnter, hsys]
  simp only [handleRandomEvent, halive, hregs, hscr, decideFault, hfaults, hno,
    Bool.false_eq_true, if_false]

/-- Handing over a return value touches nothing but the table of return values. -/
theorem injectRetval_frame {s s' : InjectorState} {tcp tcp' : Tcb} {rval : Int64}
    (h : injectRetval s tcp rval = some (s', tcp')) :
    s'.netPartition = s.netPartition ∧ s'.storedRegs = s.storedRegs ∧ s'.died = s.died ∧
      s'.random = s.random := by
  rw [injectRetval, Option.map_eq_some_iff] at h
  obtain ⟨slot, -, heq⟩ := h
  obtain ⟨rfl, -⟩ := Prod.mk.inj heq
  exact ⟨rfl, rfl, rfl, rfl⟩

/-- The switch changes the partition flag and `stored_regs` only where it says
so, and draws some bytes. -/
theorem applyEvent_frame {s s' : InjectorState} {c : Call} {kind : FileKind} {length : UInt64}
    {errorCodes : List Int64} {ev : Option InjectEvent} {tcp : Tcb}
    (h : applyEvent s c kind length errorCodes ev = some (s', tcp)) :
    s'.netPartition = (s.netPartition || decide (ev = some .netpart)) ∧
    s'.storedRegs = (if ev = some .dup then some c.regs else s.storedRegs) ∧
    s'.died = s.died ∧ RandomFile.Reads s.random s'.random := by
  rcases ev with _ | ev
  · obtain ⟨rfl, -⟩ := Prod.mk.inj (Option.some.inj h)
    exact ⟨by simp, by simp, rfl, .refl _⟩
  · cases ev with
    | delay =>
      rw [applyEvent, injectDelay, Option.map_eq_some_iff] at h
      obtain ⟨slot, -, heq⟩ := h
      obtain ⟨rfl, -⟩ := Prod.mk.inj heq
      exact ⟨by simp, by simp, rfl, RandomFile.reads_uint16 _⟩
    | fail =>
      rw [applyEvent, injectFail] at h
      split at h
      · obtain ⟨hn, hr, hd, hf⟩ := injectRetval_frame h
        exact ⟨by simp [hn], by simp [hr], hd, hf ▸ .refl _⟩
      · obtain ⟨hn, hr, hd, hf⟩ := injectRetval_frame h
        exact ⟨by simp [hn], by simp [hr], hd, hf ▸ RandomFile.reads_uint8 _⟩
    | lost =>
      obtain ⟨hn, hr, hd, hf⟩ := injectRetval_frame h
      exact ⟨by simp [hn], by simp [hr], hd, hf ▸ .refl _⟩
    | dup =>
      obtain ⟨rfl, -⟩ := Prod.mk.inj (Option.some.inj h)
      exact ⟨by simp, by simp, rfl, .refl _⟩
    | netpart =>
      obtain ⟨hn, hr, hd, hf⟩ := injectRetval_frame h
      exact ⟨by simp [hn], by simp [hr], hd, hf ▸ .refl _⟩
    | numInjectEvents =>
      obtain ⟨rfl, -⟩ := Prod.mk.inj (Option.some.inj h)
      exact ⟨by simp, by simp, rfl, .refl _⟩

/-- Picking an event draws some bytes. -/
theorem chooseEvent_reads (isSend : Bool) (kind : FileKind) (r : RandomFile) (net : Bool) :
    RandomFile.Reads r (chooseEvent isSend kind r net).random := by
  rw [chooseEvent]
  split
  · dsimp only
    split
    · exact (RandomFile.reads_uint8 r).trans (RandomFile.reads_uint8 _)
    · exact RandomFile.reads_uint8 r
  · exact RandomFile.reads_uint8 r

/-- The decision behind an injected fault. -/
theorem injectFault_event (s : InjectorState) (c : Call) (kind : FileKind) (isSend : Bool)
    (length : UInt64) (errorCodes : List Int64) :
    (injectFault s c kind isSend length errorCodes).outcome.event? =
      some { isSend := isSend, isFile := kind.isFile, faultInjected := true,
             index := (chooseEvent isSend kind s.random s.netPartition).index,
             injected := (chooseEvent isSend kind s.random s.netPartition).event
               c.pastEvents } := by
  rw [injectFault]
  dsimp only
  split <;> rfl

/-- What an injected fault leaves behind. -/
theorem injectFault_frame (s : InjectorState) (c : Call) (kind : FileKind) (isSend : Bool)
    (length : UInt64) (errorCodes : List Int64) :
    RandomFile.Reads s.random (injectFault s c kind isSend length errorCodes).injector.random ∧
    ((chooseEvent isSend kind s.random s.netPartition).event c.pastEvents ≠ some .netpart →
      (injectFault s c kind isSend length errorCodes).injector.netPartition =
        (chooseEvent isSend kind s.random s.netPartition).netPartition) := by
  have hreads := chooseEvent_reads isSend kind s.random s.netPartition
  rw [injectFault]
  dsimp only
  split
  · exact ⟨hreads, fun _ => rfl⟩
  · next s' tcp happ =>
    obtain ⟨hnet, -, -, hr⟩ := applyEvent_frame happ
    refine ⟨hreads.trans hr, fun hne => ?_⟩
    show s'.netPartition = _
    rw [hnet, decide_eq_false hne, Bool.or_false]

/-- An injected fault sets `stored_regs` if and only if it is `DUP`. -/
theorem injectFault_storedRegs (s : InjectorState) (c : Call) (kind : FileKind) (isSend : Bool)
    (length : UInt64) (errorCodes : List Int64) :
    (injectFault s c kind isSend length errorCodes).injector.storedRegs =
      if (chooseEvent isSend kind s.random s.netPartition).event c.pastEvents = some .dup
      then some c.regs else s.storedRegs := by
  rw [injectFault]
  dsimp only
  split
  · next happ =>
    -- the tracer dies over a full table only, never over `DUP`
    rw [if_neg]
    intro hdup
    rw [hdup, applyEvent] at happ
    cases happ
  · next s' tcp happ => exact (applyEvent_frame happ).2.1

/-- Without a new entry in the table no value was handed back. -/
theorem retvalDrawn_of_kept {s s' : InjectorState} (h : s'.retvalVec = s.retvalVec) :
    retvalDrawn s s' = none := by
  rw [retvalDrawn, h]
  exact List.getElem?_eq_none (Nat.le_refl _)

/-- `DUP` hands back no value. -/
theorem injectFault_retvalVec {s : InjectorState} {c : Call} {kind : FileKind} {isSend : Bool}
    (length : UInt64) (errorCodes : List Int64)
    (h : (chooseEvent isSend kind s.random s.netPartition).event c.pastEvents = some .dup) :
    (injectFault s c kind isSend length errorCodes).injector.retvalVec = s.retvalVec := by
  rw [injectFault]
  dsimp only
  rw [h]
  rfl

end DistFuzz.Injector
