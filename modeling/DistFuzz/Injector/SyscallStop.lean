import DistFuzz.Injector.Event
import DistFuzz.Lib.Runs
import Mathlib.Logic.Function.Basic

/-!
# The two halves of a system call
(strace/src/syscall.c:489–782, 1019–1034, strace.c:874–876, 3421–3680)

strace tells the enter stop of a system call from its exit stop by the bit
`TCB_INSYSCALL` of `tcp->flags`, which `syscall_entering_finish` sets and
`syscall_exiting_finish` clears. The injector is called in the entering half. For
`FAIL`, `LOST` and `NETPART` it ORs `INJECT_F_RETVAL` into `tcp->flags`, for
`DELAY` `INJECT_F_DELAY_ENTER`. These are flags of `struct inject_data`; as bits
of `tcp->flags` they are `TCB_INSYSCALL` and `TCB_ATTACHED`.

- `Half`: what a half works on, with a log of every write to `tcp->flags`.
- `syscallExitingFinish`: the end of the exiting half, where the injector may set the
  registers of the tracee once more, to have a call repeated.
- `traceSyscall` and the functions it calls; `stepStrace`: the tracer with any
  number of tracees, their stops in any order; `flagWrites`: the writes of a step.
-/

namespace DistFuzz.Injector

open DistFuzz.Lib

/-! ## Flags -/

def tcbStartup : UInt32 := 0x01
def tcbIgnoreOneSigstop : UInt32 := 0x02
def tcbInsyscall : UInt32 := 0x04
def tcbAttached : UInt32 := 0x08
def tcbReprint : UInt32 := 0x10
def tcbFiltered : UInt32 := 0x20
def tcbTampered : UInt32 := 0x40
def tcbHideLog : UInt32 := 0x80
def tcbCheckExecSyscall : UInt32 := 0x100
def tcbSkipDetachOnFirstExec : UInt32 := 0x200
def tcbGrabbed : UInt32 := 0x400
def tcbRecovering : UInt32 := 0x800
def tcbInjectDelayExit : UInt32 := 0x1000
def tcbInjectPokeExit : UInt32 := 0x2000
def tcbDelayed : UInt32 := 0x4000
def tcbTamperedDelayed : UInt32 := 0x8000
def tcbTamperedPoked : UInt32 := 0x10000
def tcbTamperedNoFail : UInt32 := 0x20000
def tcbSeccompFilter : UInt32 := 0x40000

def injectFError : UInt8 := 0x02
def injectFDelayExit : UInt8 := 0x10
def injectFSyscall : UInt8 := 0x20
def injectFPokeEnter : UInt8 := 0x40
def injectFPokeExit : UInt8 := 0x80

def qualTrace : UInt32 := 0x001
def qualRaw : UInt32 := 0x008

/-- Some of these bits is set in `tcp->flags`. -/
def Tcb.has (tcp : Tcb) (mask : UInt32) : Bool := tcp.flags &&& mask != 0

/-- `entering(tcp)`. -/
def Tcb.entering (tcp : Tcb) : Bool := !tcp.has tcbInsyscall

/-! ## Writes -/

/-- The functions that write `tcp->flags`. -/
inductive Writer where
  | afterSuccessfulAttach
  | dispatchEvent
  | syscallEnteringTrace
  | dstFuzzSyscallEnter
  | tamperWithSyscallEntering
  | syscallEnteringFinish
  | syscallExitingDecode
  | syscallExitingTrace
  | syscallExitingFinish
deriving DecidableEq, Repr

/-- A write to `tcp->flags`. -/
structure FlagWrite where
  writer : Writer
  before : UInt32
  after : UInt32

/-- What a half works on: the injector, the trace control block, and the writes
to its flags so far. -/
structure Half where
  injector : InjectorState
  tcp : Tcb
  writes : List FlagWrite

/-- Write `tcp->flags`. -/
def Half.write (h : Half) (w : Writer) (f : UInt32 → UInt32) : Half :=
  { h with
    tcp := { h.tcp with flags := f h.tcp.flags }
    writes := h.writes ++ [⟨w, h.tcp.flags, f h.tcp.flags⟩] }

/-! ## The entering half -/

/-- What `syscall_entering_decode` returns: `0`, `1`, or an error. -/
inductive Decoded where
  | bailOut
  | ok
  | error
deriving DecidableEq, Repr

/-- A stop of a tracee, with what the two halves find out about it. For the
entering half: how the decoding went, the call, `qual_flags(scno)`, whether it is
one of the `exec` calls, whether path tracing lets it through, whether the
counters of its entry in `inject_vec` select it, and whether setting its number
and poking its memory worked. For the exiting half: whether the result could be
read, whether poking worked, and whether the line of output is resumed. The
registers are those the tracee has at the stop. -/
structure SyscallStop where
  decoded : Decoded
  call : Call
  qualFlags : UInt32
  isExec : Bool
  pathMatch : Bool
  countersSelect : Bool
  scnoSet : Bool
  poked : Bool
  resultRead : Bool
  resumed : Bool

/-- `syscall_entering_decode`, for what it leaves in the trace control block. -/
def syscallEnteringDecode (h : Half) (stop : SyscallStop) : Half :=
  { h with
    tcp :=
      { h.tcp with
        scno := stop.call.tcp.scno
        uArg := stop.call.tcp.uArg
        qualFlg :=
          if h.tcp.has tcbRecovering then stop.qualFlags ||| qualRaw else stop.qualFlags } }

/-- The first part of `syscall_entering_trace`: while the tracee still executes
code of strace nothing is injected, and the first `exec` ends that. -/
def revealExec (h : Half) (stop : SyscallStop) : Half :=
  if h.tcp.has tcbHideLog then
    let h := { h with tcp := { h.tcp with qualFlg := h.tcp.qualFlg &&& ~~~qualInject } }
    if stop.isExec then
      h.write .syscallEnteringTrace fun x => x &&& ~~~tcbHideLog ||| tcbCheckExecSyscall
    else h
  else h

/-- The call is filtered out. -/
def isFiltered (tcp : Tcb) (stop : SyscallStop) : Bool :=
  tcp.has tcbHideLog || tcp.qualFlg &&& qualTrace == 0 || !stop.pathMatch

/-- `dst_fuzz_syscall_enter(tcp)`. -/
def fuzzSyscallEnter (env : InjectorEnv) (h : Half) (stop : SyscallStop) : Half :=
  let r := dstFuzzSyscallEnter env h.injector { stop.call with tcp := h.tcp }
  { injector := r.injector
    tcp := r.tcp
    writes := h.writes ++ [⟨.dstFuzzSyscallEnter, h.tcp.flags, r.tcp.flags⟩] }

/-- The bits that `tamper_with_syscall_entering` sets for an entry of
`inject_vec`. -/
def tamperEnteringFlags (d : InjectData) (stop : SyscallStop) : UInt32 :=
  (if d.flags &&& (injectFError ||| injectFRetval) != 0 && stop.scnoSet then
      tcbTampered ||| (if d.flags &&& injectFSyscall != 0 then tcbTamperedNoFail else 0)
    else 0)
  ||| (if d.flags &&& injectFPokeEnter != 0 && stop.poked then tcbTamperedPoked else 0)
  ||| (if d.flags &&& injectFPokeExit != 0 then tcbInjectPokeExit else 0)
  ||| (if d.flags &&& injectFDelayEnter != 0 then tcbDelayed ||| tcbTamperedDelayed else 0)
  ||| (if d.flags &&& injectFDelayExit != 0 then tcbInjectDelayExit else 0)

/-- `tamper_with_syscall_entering`. -/
def tamperWithSyscallEntering (h : Half) (stop : SyscallStop) : Half :=
  match h.tcp.injectVec with
  | none => h
  | some d =>
    if stop.countersSelect && !h.tcp.has tcbRecovering then
      h.write .tamperWithSyscallEntering (· ||| tamperEnteringFlags d stop)
    else h

/-- `syscall_entering_trace`. What follows the injection only prints. -/
def syscallEnteringTrace (env : InjectorEnv) (h : Half) (stop : SyscallStop) : Half :=
  let h := revealExec h stop
  if isFiltered h.tcp stop then
    h.write .syscallEnteringTrace (· ||| tcbFiltered)
  else
    let h := h.write .syscallEnteringTrace (· &&& ~~~tcbFiltered)
    let h := fuzzSyscallEnter env h stop
    if h.injector.died then h
    else if h.tcp.qualFlg &&& qualInject != 0 then tamperWithSyscallEntering h stop
    else h

/-- `syscall_entering_finish`. -/
def syscallEnteringFinish (h : Half) : Half :=
  h.write .syscallEnteringFinish (· ||| tcbInsyscall)

/-! ## The exiting half -/

/-- `syscall_exiting_decode`. -/
def syscallExitingDecode (h : Half) : Half :=
  if !h.tcp.has tcbFiltered && h.tcp.has tcbCheckExecSyscall then
    h.write .syscallExitingDecode (· ||| tcbHideLog)
  else h

/-- The bits that `tamper_with_syscall_exiting` sets. -/
def tamperExitingFlags (tcp : Tcb) (stop : SyscallStop) : UInt32 :=
  (if tcp.has tcbInjectPokeExit && stop.poked then tcbTamperedPoked else 0)
  ||| (if tcp.has tcbInjectDelayExit then tcbDelayed ||| tcbTamperedDelayed else 0)

/-- `syscall_exiting_trace`. -/
def syscallExitingTrace (h : Half) (stop : SyscallStop) : Half :=
  let h :=
    if h.tcp.has (tcbTampered ||| tcbInjectDelayExit ||| tcbInjectPokeExit) then
      h.write .syscallExitingTrace (· ||| tamperExitingFlags h.tcp stop)
    else h
  if stop.resumed || h.tcp.has tcbReprint then
    h.write .syscallExitingTrace (· &&& ~~~tcbReprint)
  else h

/-- `syscall_exiting_finish`: the half, and the registers the tracee goes on with. The
first thing it does is to call `dst_fuzz_syscall_exiting_finish`. -/
def syscallExitingFinish (h : Half) (regs : UserRegs) : Half × UserRegs :=
  let regs := (dstFuzzSyscallExitingFinish h.injector regs).getD regs
  (h.write .syscallExitingFinish
    (· &&& ~~~(tcbInsyscall ||| tcbTampered ||| tcbInjectDelayExit ||| tcbInjectPokeExit
      ||| tcbTamperedDelayed ||| tcbTamperedPoked)), regs)

/-! ## The tracer -/

/-- The entering half of `trace_syscall`. -/
def traceEntering (env : InjectorEnv) (h : Half) (stop : SyscallStop) : Half :=
  let h := syscallEnteringDecode h stop
  match stop.decoded with
  | .bailOut => h
  | .error => syscallEnteringFinish h
  | .ok =>
    let h := syscallEnteringTrace env h stop
    if h.injector.died then h else syscallEnteringFinish h

/-- The exiting half of `trace_syscall`. -/
def traceExiting (h : Half) (stop : SyscallStop) : Half :=
  let h := syscallExitingDecode h
  let h := if !h.tcp.has tcbFiltered && stop.resultRead then syscallExitingTrace h stop else h
  -- the registers are not kept from one stop to the next, as the kernel changes them
  (syscallExitingFinish h stop.call.regs).1

/-- `trace_syscall`. -/
def traceSyscall (env : InjectorEnv) (h : Half) (stop : SyscallStop) : Half :=
  if h.tcp.entering then traceEntering env h stop else traceExiting h stop

/-- The flags `after_successful_attach` is called with. -/
structure AttachFlags where
  grabbed : Bool
  ignoreOneSigstop : Bool
  hideLog : Bool
  skipDetachOnFirstExec : Bool

/-- `TCB_ATTACHED | TCB_STARTUP | flags`. -/
def AttachFlags.toFlags (f : AttachFlags) : UInt32 :=
  tcbAttached ||| tcbStartup
  ||| (if f.grabbed then tcbGrabbed else 0)
  ||| (if f.ignoreOneSigstop then tcbIgnoreOneSigstop else 0)
  ||| (if f.hideLog then tcbHideLog else 0)
  ||| (if f.skipDetachOnFirstExec then tcbSkipDetachOnFirstExec else 0)

/-- What else happens to the flags of a tracee: it is initialised, its first
`SIGSTOP` is ignored, it is found to have a seccomp filter, it is restarted after
a delay, or it took the place of another thread. -/
inductive TcbEvent where
  | startup
  | ignoredSigstop
  | seccompFilter
  | restartDelayed
  | superseded
deriving DecidableEq, Repr

/-- What such an event makes of the flags. -/
def TcbEvent.flags : TcbEvent → UInt32 → UInt32
  | .startup => (· &&& ~~~tcbStartup)
  | .ignoredSigstop => (· &&& ~~~tcbIgnoreOneSigstop)
  | .seccompFilter => (· ||| tcbSeccompFilter)
  | .restartDelayed => (· &&& ~~~tcbDelayed)
  | .superseded => (· ||| tcbReprint)

/-- The strace process and its tracees. -/
structure Strace where
  injector : InjectorState
  tcbs : Nat → Option Tcb

/-- A tracee is attached or gone, stops at a system call, stops before `execve`
(where strace, if it does not expect that, traces a system call to recover), or
something else happens to its flags. -/
inductive StraceInput where
  | attach (tid : Nat) (flags : AttachFlags)
  | drop (tid : Nat)
  | syscallStop (tid : Nat) (stop : SyscallStop)
  | execveStop (tid : Nat) (stop : SyscallStop)
  | event (tid : Nat) (e : TcbEvent)

/-- A strace process without tracees. -/
def Strace.init (file : List UInt8) (hashEnv : HashEnv) (shared : Shared) : Strace :=
  { injector := .init file hashEnv shared, tcbs := fun _ => none }

/-- `TE_STOP_BEFORE_EXECVE`. -/
def stopBeforeExecve (env : InjectorEnv) (h : Half) (stop : SyscallStop) : Half :=
  let h := h.write .dispatchEvent (· &&& ~~~tcbCheckExecSyscall)
  if h.tcp.entering then
    let h := traceSyscall env (h.write .dispatchEvent (· ||| tcbRecovering)) stop
    if h.injector.died then h else h.write .dispatchEvent (· &&& ~~~tcbRecovering)
  else h

/-- What an input does to a tracee that is there. -/
def handleTcb (env : InjectorEnv) (h : Half) : StraceInput → Half
  | .attach _ _ => h
  | .drop _ => h
  | .syscallStop _ stop => traceSyscall env h stop
  | .execveStop _ stop => stopBeforeExecve env h stop
  | .event _ e => h.write .dispatchEvent e.flags

/-- The tracee an input is about. -/
def StraceInput.tid : StraceInput → Nat
  | .attach tid _ => tid
  | .drop tid => tid
  | .syscallStop tid _ => tid
  | .execveStop tid _ => tid
  | .event tid _ => tid

/-- One input that finds its tracee, with the writes it makes. -/
def handled (env : InjectorEnv) (s : Strace) (input : StraceInput) : Option Half :=
  if s.injector.died then none
  else (s.tcbs input.tid).map fun tcp => handleTcb env ⟨s.injector, tcp, []⟩ input

/-- The tracer after one input. A process that died handles none. -/
def stepStrace (env : InjectorEnv) (s : Strace) (input : StraceInput) : Strace :=
  if s.injector.died then s
  else match input with
    | .attach tid flags =>
      { s with
        tcbs := Function.update s.tcbs tid
          (some ⟨tid, 0, fun _ => 0, flags.toFlags, 0, none⟩) }
    | .drop tid => { s with tcbs := Function.update s.tcbs tid none }
    | input =>
      match handled env s input with
      | none => s
      | some h =>
        { injector := h.injector, tcbs := Function.update s.tcbs input.tid (some h.tcp) }

/-- The writes to the flags of a tracee that an input makes. -/
def flagWrites (env : InjectorEnv) (s : Strace) (input : StraceInput) : List FlagWrite :=
  match handled env s input with
  | none => []
  | some h => h.writes

/-! ### One input -/

section Input

variable {env : InjectorEnv} {s : Strace} {tcp : Tcb}

/-- What a stop of a tracee that is there makes of the tracer. -/
def Strace.after (s : Strace) (tid : Nat) (h : Half) : Strace where
  injector := h.injector
  tcbs := Function.update s.tcbs tid (some h.tcp)

theorem stepStrace_handled (input : StraceInput) (halive : s.injector.died = false)
    (htcp : s.tcbs input.tid = some tcp) (hthere : ∀ tid flags, input ≠ .attach tid flags)
    (hdrop : ∀ tid, input ≠ .drop tid) :
    stepStrace env s input = s.after input.tid (handleTcb env ⟨s.injector, tcp, []⟩ input) := by
  have hhandled : handled env s input = some (handleTcb env ⟨s.injector, tcp, []⟩ input) := by
    rw [handled, halive, if_neg Bool.false_ne_true, htcp, Option.map_some]
  unfold stepStrace
  rw [halive, if_neg Bool.false_ne_true]
  cases input with
  | attach tid flags => exact absurd rfl (hthere tid flags)
  | drop tid => exact absurd rfl (hdrop tid)
  | _ =>
    dsimp only
    rw [hhandled]
    rfl

theorem stepStrace_missing (input : StraceInput) (hnone : s.tcbs input.tid = none)
    (hthere : ∀ tid flags, input ≠ .attach tid flags) (hdrop : ∀ tid, input ≠ .drop tid) :
    stepStrace env s input = s := by
  have hhandled : handled env s input = none := by
    rw [handled, hnone]
    split <;> rfl
  unfold stepStrace
  split
  · rfl
  · cases input with
    | attach tid flags => exact absurd rfl (hthere tid flags)
    | drop tid => exact absurd rfl (hdrop tid)
    | _ =>
      dsimp only
      rw [hhandled]

end Input

end DistFuzz.Injector
