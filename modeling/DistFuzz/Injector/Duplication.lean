import DistFuzz.Injector.Decode

/-!
# Message duplication (strace/src/dst_fuzz.c:161–173, 375–382, 484–508)

To duplicate a call, `DUP` saves the registers of the thread in the global
`stored_regs` at its syscall-enter stop. At the exit stop the registers are
found unchanged but for the result, `rax` and `rip` are wound back, and the
thread executes the call once more; its second enter stop finds `stored_regs`
set, clears it and lets the call through.

A call that `FAIL`, `LOST` or `NETPART` hands a value is not executed at all: its
number is replaced by `-1` at the enter stop, and the value is written to `rax` at
the exit stop, before the registers are compared.

`stored_regs` belongs to the tracer, not to the thread, so between the two enter
stops a stop of another thread can take it.

- `Tracer`, `stepTracer`: any number of threads, their stops in any order. What
  a thread's call has been through so far is kept in `Progress`.
- `ExactAt`: what duplication should look like, stop by stop.
- `Interferes`: a stop of a thread that is not the one being duplicated and that
  the tracer takes for it.
- `exactAt_iff`, `orderly_step`: from an orderly state duplication is exact at a
  stop if and only if the stop does not interfere, and the next state is orderly
  again; `duplication_exact_iff` says so of whole runs.
-/

namespace DistFuzz.Injector

open DistFuzz.Lib

/-! ## Stops -/

/-- A call of a thread: its registers when it leaves the enter stop, whether `DUP`
was injected into it, the value that is handed back in its place, and how often it
was executed to the end. -/
structure Progress where
  regs : UserRegs
  dup : Bool
  forged : Option Int64
  executions : Nat
deriving DecidableEq, Repr

/-- Between calls, between the enter and the exit stop of a call, or wound back
after the exit stop and about to enter the same call again. -/
inductive ThreadState where
  | idle
  | inKernel (p : Progress)
  | again (p : Progress)
deriving DecidableEq, Repr

/-- A call that its thread is through with. `forged` says that the application was
handed a value in place of the last execution. -/
structure CallDone where
  tid : Nat
  dup : Bool
  forged : Bool
  executions : Nat
deriving DecidableEq, Repr

/-- One strace process and its threads: the injector, whose stored registers all threads share,
what each thread is in the middle of, and the calls that are over. -/
structure Tracer where
  injector : InjectorState
  threads : Nat → ThreadState
  completed : List CallDone

/-- A stop of a thread. At an enter stop of a new call the registers are those of
`c`; the rest of `c` is what the injector looks up. At an exit stop the kernel
has put the result into `rax`, if it executed the call. -/
inductive Stop where
  | enter (tid : Nat) (c : Call)
  | exit (tid : Nat) (rax : UInt64)

/-- A tracer that has seen no stop. -/
def Tracer.init (file : List UInt8) (hashEnv : HashEnv) (shared : Shared) : Tracer :=
  { injector := .init file hashEnv shared, threads := fun _ => .idle, completed := [] }

/-- The call a thread with registers `regs` enters: strace reads its number from
`orig_rax` and its arguments from `rdi`, `rsi`, `rdx`, `r10`, `r8` and `r9`. -/
def atEntry (tid : Nat) (regs : UserRegs) (c : Call) : Call :=
  { c with
    tcp :=
      { c.tcp with
        pid := tid
        scno := regs.origRax
        uArg := fun i =>
          [regs.rdi, regs.rsi, regs.rdx, regs.r10, regs.r8, regs.r9].getD i.val 0 }
    regs := regs }

/-- The two-byte instruction `syscall`, up to the enter stop: the kernel saves
`rax` and puts `-ENOSYS` there. -/
def syscallInsn (regs : UserRegs) (enosys : UInt64) : UserRegs :=
  { regs with origRax := regs.rax, rax := enosys, rip := regs.rip + 2 }

/-- The outcome is an injected `DUP`. -/
def injectsDup (o : Outcome) : Bool := o.event?.any fun r => r.injected == some .dup

/-- The registers of a call after its enter stop. -/
def leaveEntry (regs : UserRegs) (forged : Option Int64) : UserRegs :=
  if forged.isSome then { regs with origRax := noSyscall } else regs

/-- The enter stop of a call under way. -/
def enterCall (env : InjectorEnv) (s : Tracer) (tid : Nat) (p : Progress) (c : Call) : Tracer :=
  let h := dstFuzzSyscallEnter env s.injector (atEntry tid p.regs c)
  let forged := retvalDrawn s.injector h.injector
  { s with
    injector := h.injector
    threads := Function.update s.threads tid
      (.inKernel ⟨leaveEntry p.regs forged, p.dup || injectsDup h.outcome, forged,
        p.executions⟩) }

/-- The registers that are compared at the exit stop: `rax` holds what the kernel
returned, or what `tamper_with_syscall_exiting` has just put there. -/
def Progress.exitRegs (p : Progress) (rax : UInt64) : UserRegs :=
  { p.regs with rax := (p.forged.map Int64.toUInt64).getD rax }

/-- How often the call was executed, at its exit stop. The kernel executes nothing for
the number `-1`. -/
def Progress.executed (p : Progress) : Nat :=
  if p.forged.isSome then p.executions else p.executions + 1

/-- The exit stop of a call. -/
def exitCall (s : Tracer) (tid : Nat) (p : Progress) (rax : UInt64) : Tracer :=
  match dstFuzzSyscallExitingFinish s.injector (p.exitRegs rax) with
  | some regs =>
    -- `rip` is back at the `syscall` instruction, which runs up to its enter stop
    { s with
      threads := Function.update s.threads tid
        (.again ⟨syscallInsn regs p.regs.rax, p.dup, none, p.executed⟩) }
  | none =>
    { s with
      threads := Function.update s.threads tid .idle
      completed := ⟨tid, p.dup, p.forged.isSome, p.executed⟩ :: s.completed }

/-- One stop. A thread has enter and exit stops in turns; a tracer that died
handles none. -/
def stepTracer (env : InjectorEnv) (s : Tracer) (stop : Stop) : Tracer :=
  if s.injector.died then s
  else match stop with
    | .enter tid c =>
      match s.threads tid with
      | .idle => enterCall env s tid ⟨c.regs, false, none, 0⟩ c
      | .again p => enterCall env s tid p c
      | .inKernel _ => s
    | .exit tid rax =>
      match s.threads tid with
      | .inKernel p => exitCall s tid p rax
      | .idle => s
      | .again _ => s

/-! ## Exactness and interference -/

/-- A call that is over was executed twice if it was duplicated, not at all if the
application was handed a value in its place, and otherwise once. -/
def CallDone.Exact (d : CallDone) : Prop :=
  d.executions = if d.dup then 2 else if d.forged then 0 else 1

/-- Duplication is exact at a stop: a thread entering a new call gets its fault
decision, only a call with `DUP` is wound back, and only once, and the calls
that are over after the stop were executed as often as they should be. -/
structure ExactAt (env : InjectorEnv) (s : Tracer) (stop : Stop) : Prop where
  decided : ∀ tid c, stop = .enter tid c → s.threads tid = .idle → s.injector.died = false →
    (dstFuzzSyscallEnter env s.injector (atEntry tid c.regs c)).outcome ≠ .replayed
  own : ∀ tid rax p, stop = .exit tid rax → s.threads tid = .inKernel p →
    s.injector.died = false →
    (dstFuzzSyscallExitingFinish s.injector (p.exitRegs rax)).isSome →
    p.dup = true ∧ p.executions = 0
  counts : ∀ d ∈ (stepTracer env s stop).completed, d.Exact

/-- A stop that meets the pending duplication of another thread: a new call of
the handled families is entered, or a call that is not waiting for its own
duplication exits with fewer than two registers different from `stored_regs`. -/
def Interferes (s : Tracer) (stop : Stop) : Prop :=
  s.injector.died = false ∧ ∃ stored, s.injector.storedRegs = some stored ∧
    match stop with
    | .enter tid c => s.threads tid = .idle ∧ (syscallKind c.regs.origRax).isSome
    | .exit tid rax => ∃ p, s.threads tid = .inKernel p ∧ ¬(p.dup = true ∧ p.executions = 0) ∧
        compareRegs (p.exitRegs rax) stored < 2

/-! ## What the injector does to `stored_regs` -/

/-- With nothing pending, an enter stop takes its decision and sets
`stored_regs` if that is `DUP`, which hands back no value. -/
theorem enter_of_calm (env : InjectorEnv) {s : InjectorState} (hs : s.storedRegs = none)
    (c : Call) :
    (dstFuzzSyscallEnter env s c).outcome ≠ .replayed ∧
    (dstFuzzSyscallEnter env s c).injector.storedRegs =
      (if injectsDup (dstFuzzSyscallEnter env s c).outcome then some c.regs else none) ∧
    (injectsDup (dstFuzzSyscallEnter env s c).outcome = true →
      (syscallKind c.tcp.scno).isSome ∧
        retvalDrawn s (dstFuzzSyscallEnter env s c).injector = none) := by
  rcases enter_cases env s c with h | ⟨regs, hregs, -⟩ | ⟨s', kind, isSend, source, hs', h⟩ |
    ⟨kind, isSend, source, -, -, hsys, -, -, -, h⟩
  · rw [h]
    exact ⟨fun h => (nomatch h), hs, fun h => (nomatch h)⟩
  · rw [hs] at hregs
    cases hregs
  · rw [h]
    refine ⟨fun h => (nomatch h), ?_, fun h => (nomatch h)⟩
    show s'.storedRegs = none
    rcases hs' with rfl | rfl <;> exact hs
  · have hev := injectFault_event { s with random := s.random.getRandomUint8.2 } c kind
      isSend (callLength c source) (if isSend then writeErrorCodes else readErrorCodes)
    rw [h, injectFault_storedRegs, injectsDup, hev]
    refine ⟨fun hrep => ?_, ?_, fun hdup => ⟨by rw [hsys]; rfl, ?_⟩⟩
    · rw [hrep] at hev
      cases hev
    · simp [hs]
    · have hevent : (chooseEvent isSend kind s.random.getRandomUint8.2 s.netPartition).event
          c.pastEvents = some .dup := by simpa using hdup
      exact retvalDrawn_of_kept (injectFault_retvalVec _ _ hevent)

/-- With a duplication pending, an enter stop of the handled families clears it
and is let through; any other enter stop does nothing. -/
theorem enter_of_pending (env : InjectorEnv) {s : InjectorState} {stored : UserRegs}
    (hs : s.storedRegs = some stored) (hd : s.died = false) (c : Call) :
    dstFuzzSyscallEnter env s c =
      if (syscallKind c.tcp.scno).isSome then ⟨{ s with storedRegs := none }, c.tcp, .replayed⟩
      else ⟨s, c.tcp, .ignored⟩ := by
  rw [dstFuzzSyscallEnter]
  cases hsys : syscallKind c.tcp.scno with
  | none => rfl
  | some ds => simp [handleRandomEvent, hs, hd]

/-- With a duplication pending, no value is handed back. -/
theorem retvalDrawn_of_pending (env : InjectorEnv) {s : InjectorState} {stored : UserRegs}
    (hs : s.storedRegs = some stored) (hd : s.died = false) (c : Call) :
    retvalDrawn s (dstFuzzSyscallEnter env s c).injector = none := by
  rw [enter_of_pending env hs hd]
  split
  · exact retvalDrawn_of_kept rfl
  · exact retvalDrawn_of_kept rfl

/-- Winding back a call whose own registers are stored leads to the same enter
stop again. -/
theorem exiting_own {s : InjectorState} {regs : UserRegs} (hs : s.storedRegs = some regs)
    (rax : UInt64) :
    ∃ set, dstFuzzSyscallExitingFinish s { regs with rax := rax } = some set ∧
      syscallInsn set regs.rax = regs := by
  refine ⟨{ regs with rax := regs.origRax, rip := regs.rip - 2 }, ?_, ?_⟩
  · rw [dstFuzzSyscallExitingFinish, hs, Option.filter_some,
      if_pos (decide_eq_true (compareRegs_rax regs rax))]
    rfl
  · simp [syscallInsn]

/-! ## Orderly states -/

/-- A thread that is not being duplicated: its call, if any, was not injected
with `DUP`, or is being executed for the second time. -/
def Settled : ThreadState → Prop
  | .idle => True
  | .inKernel p => (p.executions = if p.dup then 1 else 0) ∧ (p.dup = true → p.forged = none)
  | .again _ => False

/-- The thread that `stored_regs` belongs to. -/
def Duplicated (stored : UserRegs) : ThreadState → Prop
  | .idle => False
  | .inKernel p => p = ⟨stored, true, none, 0⟩
  | .again p => p = ⟨stored, true, none, 1⟩

/-- `stored_regs` is set exactly while one thread is being duplicated, and then
to the registers of that thread. -/
structure Orderly (s : Tracer) : Prop where
  exact : ∀ d ∈ s.completed, d.Exact
  calm : s.injector.storedRegs = none → ∀ tid, Settled (s.threads tid)
  pending : ∀ stored, s.injector.storedRegs = some stored →
    (syscallKind stored.origRax).isSome ∧
    ∃ tid, Duplicated stored (s.threads tid) ∧ ∀ t, t ≠ tid → Settled (s.threads t)

theorem orderly_init (file : List UInt8) (hashEnv : HashEnv) (shared : Shared) :
    Orderly (.init file hashEnv shared) where
  exact := fun _ hd => (nomatch hd)
  calm := fun _ _ => trivial
  pending := fun _ h => (nomatch h)

theorem settled_update {threads : Nat → ThreadState} {tid : Nat} {st : ThreadState}
    (hst : Settled st) (hothers : ∀ t, t ≠ tid → Settled (threads t)) (t : Nat) :
    Settled (Function.update threads tid st t) := by
  by_cases ht : t = tid
  · rw [ht, Function.update_self]
    exact hst
  · rw [Function.update_of_ne ht]
    exact hothers t ht

/-- Replacing the state of a thread that is not the duplicated one. -/
theorem duplicated_update {threads : Nat → ThreadState} {tid : Nat} {st : ThreadState}
    {stored : UserRegs} (hst : Settled st) (hnot : ¬Duplicated stored (threads tid))
    (h : ∃ o, Duplicated stored (threads o) ∧ ∀ t, t ≠ o → Settled (threads t)) :
    ∃ o, Duplicated stored (Function.update threads tid st o) ∧
      ∀ t, t ≠ o → Settled (Function.update threads tid st t) := by
  obtain ⟨o, ho, hothers⟩ := h
  have hne : o ≠ tid := by
    rintro rfl
    exact hnot ho
  refine ⟨o, by rwa [Function.update_of_ne hne], fun t ht => ?_⟩
  by_cases htid : t = tid
  · rw [htid, Function.update_self]
    exact hst
  · rw [Function.update_of_ne htid]
    exact hothers t ht

/-- The thread that is wound back is the duplicated one. -/
theorem Orderly.again {s : Tracer} (h : Orderly s) {tid : Nat} {p : Progress}
    (hp : s.threads tid = .again p) :
    s.injector.storedRegs = some p.regs ∧ p.dup = true ∧ p.executions = 1 ∧
      (syscallKind p.regs.origRax).isSome ∧ ∀ t, t ≠ tid → Settled (s.threads t) := by
  cases hs : s.injector.storedRegs with
  | none =>
    have := h.calm hs tid
    rw [hp] at this
    exact this.elim
  | some stored =>
    obtain ⟨hsys, o, ho, hothers⟩ := h.pending stored hs
    obtain rfl : tid = o := by
      by_contra hne
      have := hothers tid hne
      rw [hp] at this
      exact this
    rw [hp] at ho
    obtain rfl : p = ⟨stored, true, none, 1⟩ := ho
    exact ⟨rfl, rfl, rfl, hsys, hothers⟩

/-! ## The step -/

/-- A thread enters a new call, and no duplication of another one is in its
way. -/
theorem orderly_enter {env : InjectorEnv} {s : Tracer} (h : Orderly s) {tid : Nat} {c : Call}
    (hidle : s.threads tid = .idle) (hd : s.injector.died = false)
    (hno : ¬Interferes s (.enter tid c)) :
    Orderly (enterCall env s tid ⟨c.regs, false, none, 0⟩ c) ∧
      (dstFuzzSyscallEnter env s.injector (atEntry tid c.regs c)).outcome ≠ .replayed := by
  cases hs : s.injector.storedRegs with
  | none =>
    obtain ⟨hout, hregs, hsys⟩ := enter_of_calm env hs (atEntry tid c.regs c)
    have hothers : ∀ t, t ≠ tid → Settled (s.threads t) := fun t _ => h.calm hs t
    refine ⟨?_, hout⟩
    cases hdup : injectsDup
        (dstFuzzSyscallEnter env s.injector (atEntry tid c.regs c)).outcome with
    | true =>
      -- the thread becomes the duplicated one
      rw [hdup, if_pos rfl] at hregs
      refine { exact := h.exact, calm := fun hnone => ?_, pending := fun stored hst => ?_ }
      · exact absurd (hnone.symm.trans hregs) (by simp)
      · obtain rfl : c.regs = stored := Option.some.inj (hregs.symm.trans hst)
        refine ⟨(hsys hdup).1, tid, ?_, fun t ht => ?_⟩
        · simp [enterCall, hdup, (hsys hdup).2, leaveEntry, Duplicated]
        · simpa [enterCall, Function.update_of_ne ht] using hothers t ht
    | false =>
      rw [hdup] at hregs
      refine { exact := h.exact, calm := fun _ => ?_, pending := fun stored hst => ?_ }
      · refine settled_update ?_ hothers
        simp [Settled, hdup]
      · exact absurd (hst.symm.trans hregs) (by simp)
  | some stored =>
    have hent := enter_of_pending env hs hd (atEntry tid c.regs c)
    have hforged := retvalDrawn_of_pending env hs hd (atEntry tid c.regs c)
    have hnone : (syscallKind c.regs.origRax).isSome = false := by
      rw [Bool.eq_false_iff]
      exact fun hsys => hno ⟨hd, stored, hs, hidle, hsys⟩
    rw [show (atEntry tid c.regs c).tcp.scno = c.regs.origRax from rfl, hnone] at hent
    rw [enterCall, hforged, hent]
    refine ⟨{ exact := h.exact, calm := fun hcalm => ?_, pending := fun stored' hst => ?_ },
      fun hrep => (nomatch hrep)⟩
    · exact absurd (hs.symm.trans hcalm) (by simp)
    · obtain ⟨hsys, howner⟩ := h.pending stored' hst
      refine ⟨hsys, duplicated_update (by simp [Settled, injectsDup, Outcome.event?]) ?_ howner⟩
      rw [hidle]
      exact id

/-- The duplicated thread enters its call again: it is let through, and nothing
is pending any more. -/
theorem orderly_reenter {env : InjectorEnv} {s : Tracer} (h : Orderly s) {tid : Nat} {c : Call}
    {p : Progress} (hagain : s.threads tid = .again p) (hd : s.injector.died = false) :
    Orderly (enterCall env s tid p c) := by
  obtain ⟨hs, hdup, hexec, hsys, hothers⟩ := h.again hagain
  have hent := enter_of_pending env hs hd (atEntry tid p.regs c)
  have hforged := retvalDrawn_of_pending env hs hd (atEntry tid p.regs c)
  rw [show (atEntry tid p.regs c).tcp.scno = p.regs.origRax from rfl, if_pos hsys] at hent
  rw [enterCall, hforged, hent]
  refine { exact := h.exact, calm := fun _ => settled_update ?_ hothers,
           pending := fun stored hst => (nomatch hst) }
  simp [Settled, hdup, hexec]

/-- The counts of a call that comes to its end. -/
theorem exact_of_settled {tid : Nat} {p : Progress} (hset : Settled (.inKernel p)) :
    CallDone.Exact ⟨tid, p.dup, p.forged.isSome, p.executed⟩ := by
  obtain ⟨hexec, hforged⟩ := hset
  show p.executed = _
  rw [Progress.executed, hexec]
  cases hdup : p.dup with
  | true =>
    -- a call that is executed for the second time is not handed a value
    rw [hforged hdup]
    rfl
  | false => cases p.forged <;> rfl

/-- A call comes to its end. -/
theorem orderly_complete {s : Tracer} (h : Orderly s) {tid : Nat} {p : Progress}
    (hp : s.threads tid = .inKernel p) (hset : Settled (s.threads tid)) :
    Orderly
      { s with
        threads := Function.update s.threads tid .idle
        completed := ⟨tid, p.dup, p.forged.isSome, p.executed⟩ :: s.completed } := by
  refine { exact := ?_, calm := fun hs => ?_, pending := fun stored hs => ?_ }
  · rintro d (_ | ⟨_, hd⟩)
    · rw [hp] at hset
      exact exact_of_settled hset
    · exact h.exact d hd
  · exact settled_update trivial fun t _ => h.calm hs t
  · obtain ⟨hsys, howner⟩ := h.pending stored hs
    refine ⟨hsys, duplicated_update trivial (fun hdup => ?_) howner⟩
    rw [hp] at hset hdup
    obtain rfl : p = ⟨stored, true, none, 0⟩ := hdup
    exact absurd hset.1 (by simp)

/-- An exit stop that the tracer does not take for another thread's. -/
theorem orderly_exit {s : Tracer} (h : Orderly s) {tid : Nat} {p : Progress} {rax : UInt64}
    (hp : s.threads tid = .inKernel p) (hd : s.injector.died = false)
    (hno : ¬Interferes s (.exit tid rax)) :
    Orderly (exitCall s tid p rax) ∧
      ((dstFuzzSyscallExitingFinish s.injector (p.exitRegs rax)).isSome →
        p.dup = true ∧ p.executions = 0) := by
  cases hs : s.injector.storedRegs with
  | none =>
    have hfin : dstFuzzSyscallExitingFinish s.injector (p.exitRegs rax) = none := by
      rw [dstFuzzSyscallExitingFinish, hs]
      rfl
    rw [exitCall, hfin]
    exact ⟨orderly_complete h hp (h.calm hs tid), fun hsome => (nomatch hsome)⟩
  | some stored =>
    obtain ⟨hsys, o, ho, hothers⟩ := h.pending stored hs
    by_cases htid : tid = o
    · -- the duplicated thread itself: it is wound back to where it came from
      subst htid
      rw [hp] at ho
      obtain rfl : p = ⟨stored, true, none, 0⟩ := ho
      obtain ⟨set, hfin, hset⟩ := exiting_own hs rax
      have hregs : Progress.exitRegs ⟨stored, true, none, 0⟩ rax = { stored with rax := rax } := rfl
      rw [exitCall, hregs, hfin]
      refine ⟨{ exact := h.exact, calm := fun hcalm => ?_, pending := fun stored' hst => ?_ },
        fun _ => ⟨rfl, rfl⟩⟩
      · exact absurd (hs.symm.trans hcalm) (by simp)
      · obtain rfl : stored = stored' := Option.some.inj (hs.symm.trans hst)
        refine ⟨hsys, tid, ?_, fun t ht => ?_⟩
        · simp [Duplicated, hset, Progress.executed]
        · simpa [Function.update_of_ne ht] using hothers t ht
    · have hset := hothers tid htid
      have hnotown : ¬(p.dup = true ∧ p.executions = 0) := by
        rintro ⟨hdup, hexec⟩
        rw [hp, Settled, hdup, hexec] at hset
        exact absurd hset.1 (by simp)
      have hfin : dstFuzzSyscallExitingFinish s.injector (p.exitRegs rax) = none := by
        rw [dstFuzzSyscallExitingFinish, hs, Option.filter_some, if_neg]
        · rfl
        · intro hcmp
          exact hno ⟨hd, stored, hs, p, hp, hnotown, of_decide_eq_true hcmp⟩
      rw [exitCall, hfin]
      exact ⟨orderly_complete h hp hset, fun hsome => (nomatch hsome)⟩

/-- A stop that does not interfere leads from an orderly state to an orderly
one, and duplication is exact at it. -/
theorem orderly_step {env : InjectorEnv} {s : Tracer} (h : Orderly s) {stop : Stop}
    (hno : ¬Interferes s stop) :
    Orderly (stepTracer env s stop) ∧ ExactAt env s stop := by
  suffices hstep : Orderly (stepTracer env s stop) ∧
      (∀ tid c, stop = .enter tid c → s.threads tid = .idle → s.injector.died = false →
        (dstFuzzSyscallEnter env s.injector (atEntry tid c.regs c)).outcome ≠ .replayed) ∧
      (∀ tid rax p, stop = .exit tid rax → s.threads tid = .inKernel p →
        s.injector.died = false →
        (dstFuzzSyscallExitingFinish s.injector (p.exitRegs rax)).isSome →
        p.dup = true ∧ p.executions = 0) from
    ⟨hstep.1, { decided := hstep.2.1, own := hstep.2.2, counts := hstep.1.exact }⟩
  refine ⟨?_, ?_, ?_⟩
  · cases hd : s.injector.died with
    | true =>
      have hstay : stepTracer env s stop = s := if_pos hd
      rw [hstay]
      exact h
    | false =>
      cases stop with
      | enter tid c =>
        cases ht : s.threads tid with
        | idle => simpa [stepTracer, hd, ht] using (orderly_enter h ht hd hno).1
        | again p => simpa [stepTracer, hd, ht] using orderly_reenter h ht hd
        | inKernel p => simpa [stepTracer, hd, ht] using h
      | exit tid rax =>
        cases ht : s.threads tid with
        | idle => simpa [stepTracer, hd, ht] using h
        | again p => simpa [stepTracer, hd, ht] using h
        | inKernel p => simpa [stepTracer, hd, ht] using (orderly_exit h ht hd hno).1
  · rintro tid c rfl hidle hd
    exact (orderly_enter h hidle hd hno).2
  · rintro tid rax p rfl hp hd
    exact (orderly_exit h hp hd hno).2

/-- A stop that interferes goes wrong: the new call loses its fault decision, or
the wrong call is wound back. -/
theorem not_exactAt_of_interferes {env : InjectorEnv} {s : Tracer} {stop : Stop}
    (hint : Interferes s stop) : ¬ExactAt env s stop := by
  intro hex
  obtain ⟨hd, stored, hs, hstop⟩ := hint
  cases stop with
  | enter tid c =>
    obtain ⟨hidle, hsys⟩ := hstop
    refine hex.decided tid c rfl hidle hd ?_
    rw [enter_of_pending env hs hd]
    exact congrArg Handled.outcome (if_pos hsys)
  | exit tid rax =>
    obtain ⟨p, hp, hnot, hcmp⟩ := hstop
    refine hnot (hex.own tid rax p rfl hp hd ?_)
    rw [dstFuzzSyscallExitingFinish, hs, Option.filter_some, if_pos (decide_eq_true hcmp)]
    rfl

theorem exactAt_iff {env : InjectorEnv} {s : Tracer} (h : Orderly s) (stop : Stop) :
    ExactAt env s stop ↔ ¬Interferes s stop :=
  ⟨fun hex hint => not_exactAt_of_interferes hint hex, fun hno => (orderly_step h hno).2⟩

/-- **Message duplication** is exact at every stop of a run if and only if no
stop of the run meets the pending duplication of another thread. -/
theorem duplication_exact_iff (env : InjectorEnv) (file : List UInt8) (hashEnv : HashEnv)
    (shared : Shared) (stops : List Stop) :
    Steps (stepTracer env) (ExactAt env) (.init file hashEnv shared) stops
      ↔ Steps (stepTracer env) (fun s stop => ¬Interferes s stop)
          (.init file hashEnv shared) stops :=
  steps_congr Orderly (fun _ stop h => exactAt_iff h stop)
    (fun _ stop h hex => (orderly_step h ((exactAt_iff h stop).mp hex)).1)
    (orderly_init file hashEnv shared)

/-- Two threads send on a socket; `DUP` is injected into the call of the first,
and the second enters its own before the first exits. The second call loses its
fault decision, and the first is executed once. -/
theorem duplication_lost :
    ¬Steps (stepTracer ⟨false, none⟩) (ExactAt ⟨false, none⟩)
      (.init [200, 3, 200, 1, 0] ⟨false, 0⟩ ⟨fun _ => 0, 0⟩)
      [.enter 1 socketSend, .enter 2 socketSend, .exit 1 8, .exit 2 8] ∧
    (run (stepTracer ⟨false, none⟩)
      (.init [200, 3, 200, 1, 0] ⟨false, 0⟩ ⟨fun _ => 0, 0⟩)
      [.enter 1 socketSend, .enter 2 socketSend, .exit 1 8, .exit 2 8]).completed
      = [⟨2, false, false, 1⟩, ⟨1, true, false, 1⟩] := by
  refine ⟨fun h => ?_, by decide⟩
  refine not_exactAt_of_interferes ?_ h.2.1
  exact ⟨rfl, socketSend.regs, rfl, rfl, rfl⟩

end DistFuzz.Injector
