import DistFuzz.Injector.SyscallStop
import DistFuzz.Lib.Timespec
import DistFuzz.Lib.Flags

/-!
# Delayed tracees (strace/src/delay.c:53–133, strace.c:3185–3222, 3624–3723, util.c:85–118)

A tracee whose call is delayed is left in its stop, with the time at which it is to be
restarted. One timer serves all of them. It is set for the tracee whose delay ends first;
its signal is blocked except while strace waits for the next stop, and only unblocked then
if `delay_timer_is_armed`. The handler restarts the tracees whose time has passed and sets
the timer for the next one.

The kernel's part is the clock, the timer, which expires when the clock reaches its value,
and the pending signal. What a pending signal of the timer comes to when the timer is set
anew is not the same on all kernels: `keeps` says whether it stays. The clock does not wait
for strace: `delay_tcb` reads it, asks what is left of the timer and sets the timer at
three different times.

- `Delays`, `stepDelays`: strace and the kernel, with stops, exits, ticks and waits in any
  order.
- `restartLoop_done`: the loop of the handler; `DelayStep`: what an input can do.
- `delay_kept`: no delay ends early.
- `injectDelay_entry`: the delays come from the injector, below a second.
-/

namespace DistFuzz.Injector

open DistFuzz.Lib

/-! ## Times -/

/-- `ts_nz`. -/
def tsNz (a : Timespec) : Bool := a.sec != 0 || a.nsec != 0

/-- `ts_cmp`. -/
def tsCmp (a b : Timespec) : Int :=
  if a.sec < b.sec ∨ a.sec = b.sec ∧ a.nsec < b.nsec then -1
  else if a.sec > b.sec ∨ a.sec = b.sec ∧ a.nsec > b.nsec then 1
  else 0

/-- `ts_add`. -/
def tsAdd (a b : Timespec) : Timespec :=
  .carried (a.sec + b.sec) (a.nsec + b.nsec) (by have := a.nsec_lt; have := b.nsec_lt; omega)

theorem tsNz_iff {a : Timespec} : tsNz a = true ↔ a.nanos ≠ 0 := by
  have ha := a.nsec_lt
  rw [tsNz, Bool.or_eq_true, bne_iff_ne, bne_iff_ne, Timespec.nanos]
  omega

theorem tsCmp_pos_iff {a b : Timespec} : 0 < tsCmp a b ↔ b < a := by
  rw [Timespec.lt_iff_fields, tsCmp]
  split
  · next h => exact ⟨fun h0 => absurd h0 (by decide), fun h0 => by omega⟩
  · next h =>
    split
    · next h' => exact ⟨fun _ => by omega, fun _ => by decide⟩
    · next h' => exact ⟨fun h0 => absurd h0 (by decide), fun h0 => absurd h0 (by omega)⟩

theorem nanos_tsAdd (a b : Timespec) : (tsAdd a b).nanos = a.nanos + b.nanos := by
  rw [tsAdd, Timespec.nanos_carried]
  unfold Timespec.nanos
  omega

/-- A delay of less than a second, as the injector draws it (dst_fuzz.c:342–347). -/
structure DelayMs where
  ms : UInt16
  lt : ms.toNat < 1000

/-- `tsval`. -/
def DelayMs.ts (d : DelayMs) : Timespec :=
  ⟨0, d.ms.toNat * 1000000, by have := d.lt; omega⟩

theorem DelayMs.nanos_ts (d : DelayMs) : d.ts.nanos = d.ms.toNat * 1000000 := by
  unfold DelayMs.ts Timespec.nanos
  dsimp only
  omega

/-! ## The tracer and the kernel -/

/-- A slot of `tcbtab`; `pid` is `0` if it is free. `delayedWaitData` says whether
`delayed_wait_data` is set, `running` whether the tracee is in no stop. -/
structure DelayTcb where
  pid : Nat
  flags : UInt32
  delayExpirationTime : Timespec
  delayedWaitData : Bool
  running : Bool
deriving DecidableEq

/-- `syscall_delayed`, of a slot that is in use. -/
def DelayTcb.delayed (tcp : DelayTcb) : Bool := tcp.pid != 0 && tcp.flags &&& tcbDelayed != 0

/-- A slot that is all zero. -/
def DelayTcb.free : DelayTcb := ⟨0, 0, .ofNanos 0, false, false⟩

/-- The slot of a thread that was attached. -/
def DelayTcb.new (pid : Nat) : DelayTcb := ⟨pid, 0, .ofNanos 0, false, true⟩

/-- Whether strace waits for the next stop, and with the signal of the timer blocked or
not. -/
inductive SignalWindow where
  | closed
  | blocked
  | unblocked
deriving DecidableEq

/-- strace, its tracees and the timer. `timer` is the time it is set for, `pending` its
signal; `ended`: the main loop is left. -/
structure Delays where
  now : Timespec
  tcbtab : List DelayTcb
  timerCreated : Bool
  timer : Option Timespec
  pending : Bool
  delayTimerIsArmed : Bool
  window : SignalWindow
  ended : Bool
deriving DecidableEq

/-- No tracee and no timer. -/
def Delays.init (now : Timespec) : Delays :=
  ⟨now, [], false, none, false, false, .closed, false⟩

/-- `pid2tcb`, and a change of what it finds. -/
def Delays.update (s : Delays) (pid : Nat) (f : DelayTcb → DelayTcb) : Delays :=
  { s with tcbtab := s.tcbtab.map fun tcp => if tcp.pid = pid then f tcp else tcp }

def Delays.pid2tcb (s : Delays) (pid : Nat) : Option DelayTcb :=
  if pid = 0 then none else s.tcbtab.find? fun tcp => tcp.pid = pid

/-- The clock shows a later time. -/
def Delays.tick (s : Delays) (later : Timespec) : Delays :=
  let s := { s with now := max s.now later }
  match s.timer with
  | none => s
  | some v => if v ≤ s.now then { s with timer := none, pending := true } else s

/-- `timer_gettime`: what is left of the timer. -/
def timerGettime (s : Delays) : Timespec :=
  match s.timer with
  | none => .ofNanos 0
  | some v => .ofNanos (v.nanos - s.now.nanos)

/-- `timer_settime`, to an absolute time. One that is not ahead expires at once. -/
def timerSettime (keeps : Bool) (s : Delays) (v : Timespec) : Delays :=
  if v ≤ s.now then { s with timer := none, pending := true }
  else { s with timer := some v, pending := s.pending && keeps }

/-- `arm_delay_timer`. -/
def armDelayTimer (keeps : Bool) (s : Delays) (v : Timespec) : Delays :=
  { timerSettime keeps s v with delayTimerIsArmed := true }

/-- The tracee is in a stop. -/
def DelayTcb.halt (tcp : DelayTcb) : DelayTcb := { tcp with running := false }

/-- The tracee is delayed until that time. -/
def DelayTcb.delayUntil (v : Timespec) (tcp : DelayTcb) : DelayTcb :=
  { tcp with
    flags := tcp.flags ||| tcbDelayed ||| tcbTamperedDelayed
    delayExpirationTime := v }

/-- A call of `delay_tcb`: the delay, and the times at which it gets to `timer_gettime` and
to `timer_settime`. -/
structure DelayCall where
  delay : DelayMs
  getAt : Timespec
  setAt : Timespec

/-- `delay_tcb`. The delay counts from the time of `clock_gettime`, and what is left of the
timer from that of `timer_gettime`. -/
def delayTcb (keeps : Bool) (s : Delays) (pid : Nat) (d : DelayCall) : Delays :=
  let v := tsAdd s.now d.delay.ts
  let s := (s.update pid (·.delayUntil v)).tick d.getAt
  if s.timerCreated && tsNz (timerGettime s) &&
      decide (0 < tsCmp d.delay.ts (timerGettime s)) then s
  else armDelayTimer keeps { s.tick d.setAt with timerCreated := true } v

/-- The end of `dispatch_event`: a tracee that is delayed is left in its stop, any other is
restarted. -/
def DelayTcb.dispatch (ok : Bool) (tcp : DelayTcb) : DelayTcb :=
  if tcp.delayed then { tcp with delayedWaitData := true } else { tcp with running := ok }

/-- `dispatch_event` on a stop in which the call is delayed, or is not; `ok`: the restart
works and nothing interrupted strace. Only a tracee that runs gets to a call; one that is
delayed can be stopped again on its way out. -/
def dispatchStop (keeps : Bool) (s : Delays) (pid : Nat) (delay : Option DelayCall) (ok : Bool) :
    Delays :=
  match s.pid2tcb pid, delay with
  | none, _ => s
  | some tcp, none =>
    let s := s.update pid fun tcp => tcp.halt.dispatch ok
    { s with ended := !tcp.delayed && !ok }
  | some tcp, some d =>
    if tcp.running then
      let s := s.update pid DelayTcb.halt
      (delayTcb keeps s pid d).update pid (DelayTcb.dispatch ok)
    else s

/-- `alloctcb`: the first free slot, or a new one. -/
def alloctcb (tcp : DelayTcb) : List DelayTcb → List DelayTcb
  | [] => [tcp]
  | t :: tab => if t.pid = 0 then tcp :: tab else t :: alloctcb tcp tab

/-- `restart_delayed_tcb`. -/
def DelayTcb.restart (ok : Bool) (tcp : DelayTcb) : DelayTcb :=
  { tcp with flags := tcp.flags &&& ~~~tcbDelayed, delayedWaitData := false, running := ok }

/-- What the loop of `restart_delayed_tcbs` leaves: the table, the earliest time that is still to
come, and whether every restart succeeded. -/
structure Restarts where
  tcbtab : List DelayTcb
  next : Option Timespec
  ok : Bool

/-- One slot more. -/
def Restarts.cons (tcp : DelayTcb) (r : Restarts) : Restarts :=
  { r with tcbtab := tcp :: r.tcbtab }

/-- The test on `tcp_next`. -/
def sooner (next : Option Timespec) (v : Timespec) : Timespec :=
  match next with
  | none => v
  | some t => if 0 < tsCmp t v then v else t

/-- The loop of `restart_delayed_tcbs`; `ok`: which restarts work. -/
def restartLoop (now : Timespec) (ok : Nat → Bool) :
    Option Timespec → List DelayTcb → Restarts
  | next, [] => ⟨[], next, true⟩
  | next, tcp :: tab =>
    if tcp.delayed then
      if 0 < tsCmp now tcp.delayExpirationTime then
        if ok tcp.pid then (restartLoop now ok next tab).cons (tcp.restart true)
        else ⟨tcp.restart false :: tab, next, false⟩
      else
        (restartLoop now ok (some (sooner next tcp.delayExpirationTime)) tab).cons tcp
    else (restartLoop now ok next tab).cons tcp

/-- `timer_sighandler`, with `restart_delayed_tcbs`. -/
def timerSighandler (keeps : Bool) (s : Delays) (ok : Nat → Bool) : Delays :=
  let r := restartLoop s.now ok none s.tcbtab
  let s := { s with delayTimerIsArmed := false, tcbtab := r.tcbtab, ended := !r.ok }
  match r.ok, r.next with
  | true, some v => armDelayTimer keeps s v
  | _, _ => s

/-- The clock moves on, a thread is attached or gone, a stop is dispatched, the wait for
the next stop begins or ends, or the signal of the timer is delivered. -/
inductive DelayInput where
  | tick (later : Timespec)
  | attach (pid : Nat)
  | exit (pid : Nat)
  | stop (pid : Nat) (delay : Option DelayCall) (ok : Bool)
  | openWindow
  | closeWindow
  | deliver (ok : Nat → Bool)

/-- One input. Stops are dispatched between the waits, and the signal is only delivered
during a wait that lets it in. -/
def stepDelays (keeps : Bool) (s : Delays) (input : DelayInput) : Delays :=
  if s.ended then s
  else match input, s.window with
    | .tick later, _ => s.tick later
    | .attach pid, .closed =>
      if pid = 0 ∨ (s.pid2tcb pid).isSome then s
      else { s with tcbtab := alloctcb (.new pid) s.tcbtab }
    | .exit pid, .closed => if pid = 0 then s else s.update pid fun _ => .free
    | .stop pid delay ok, .closed => dispatchStop keeps s pid delay ok
    | .openWindow, .closed =>
      { s with window := if s.delayTimerIsArmed then .unblocked else .blocked }
    | .closeWindow, _ => { s with window := .closed }
    | .deliver ok, .unblocked =>
      if s.pending then timerSighandler keeps { s with pending := false } ok else s
    | _, _ => s

/-! ## Slots -/

namespace DelayTcb

@[simp] theorem delayed_free : free.delayed = false := rfl

@[simp] theorem delayed_new (pid : Nat) : (new pid).delayed = false := by
  rw [delayed, new, UInt32.zero_and, bne_self_eq_false, Bool.and_false]

theorem delayed_delayUntil (v : Timespec) {tcp : DelayTcb} (h : tcp.pid ≠ 0) :
    (tcp.delayUntil v).delayed = true := by
  have hset : (tcp.flags ||| tcbDelayed ||| tcbTamperedDelayed) &&& tcbDelayed = tcbDelayed := by
    rw [UInt32.or_assoc, UInt32.or_comm tcbDelayed, ← UInt32.or_assoc, or_and_self]
  rw [delayed, delayUntil, hset, Bool.and_eq_true, bne_iff_ne]
  exact ⟨h, by decide⟩

@[simp] theorem delayed_restart (ok : Bool) (tcp : DelayTcb) :
    (tcp.restart ok).delayed = false := by
  have hclear : tcp.flags &&& ~~~tcbDelayed &&& tcbDelayed = 0 :=
    clear_and_eq_zero (by decide) tcp.flags
  rw [delayed, restart, hclear, bne_self_eq_false, Bool.and_false]

@[simp] theorem pid_halt (tcp : DelayTcb) : tcp.halt.pid = tcp.pid := rfl

@[simp] theorem delayed_halt (tcp : DelayTcb) : tcp.halt.delayed = tcp.delayed := rfl

@[simp] theorem pid_dispatch (ok : Bool) (tcp : DelayTcb) : (tcp.dispatch ok).pid = tcp.pid := by
  unfold dispatch
  split <;> rfl

@[simp] theorem delayed_dispatch (ok : Bool) (tcp : DelayTcb) :
    (tcp.dispatch ok).delayed = tcp.delayed := by
  unfold dispatch
  split <;> rfl

@[simp] theorem delayExpirationTime_dispatch (ok : Bool) (tcp : DelayTcb) :
    (tcp.dispatch ok).delayExpirationTime = tcp.delayExpirationTime := by
  unfold dispatch
  split <;> rfl

theorem running_dispatch {ok : Bool} {tcp : DelayTcb} (h : tcp.delayed = true) :
    (tcp.dispatch ok).running = tcp.running := by
  rw [dispatch, if_pos h]

theorem pid_ne_zero {tcp : DelayTcb} (h : tcp.delayed = true) : tcp.pid ≠ 0 := by
  rw [delayed, Bool.and_eq_true, bne_iff_ne] at h
  exact h.1

/-- The tracee is delayed, and its time has passed. -/
def Due (now : Timespec) (tcp : DelayTcb) : Prop :=
  tcp.delayed = true ∧ tcp.delayExpirationTime < now

instance (now : Timespec) (tcp : DelayTcb) : Decidable (tcp.Due now) :=
  inferInstanceAs (Decidable (_ ∧ _))

/-- What the handler makes of a slot. -/
def served (now : Timespec) (tcp : DelayTcb) : DelayTcb :=
  if tcp.Due now then tcp.restart true else tcp

theorem pid_served (now : Timespec) (tcp : DelayTcb) : (tcp.served now).pid = tcp.pid := by
  unfold served
  split <;> rfl

/-- Who is still delayed was left alone. -/
theorem delayed_served {now : Timespec} {tcp : DelayTcb} (h : (tcp.served now).delayed = true) :
    tcp.served now = tcp ∧ now ≤ tcp.delayExpirationTime := by
  unfold served at h ⊢
  split at h
  · exact absurd h (by rw [delayed_restart]; decide)
  · next hdue => exact ⟨if_neg hdue, not_lt.mp fun hlt => hdue ⟨h, hlt⟩⟩

end DelayTcb

/-! ## The loop of the handler -/

theorem sooner_le (next : Option Timespec) (v : Timespec) :
    sooner next v ≤ v ∧ (∀ t, next = some t → sooner next v ≤ t) ∧
      (sooner next v = v ∨ next = some (sooner next v)) := by
  cases next with
  | none => exact ⟨le_rfl, fun t ht => absurd ht (by simp), .inl rfl⟩
  | some t =>
    unfold sooner
    dsimp only
    split
    · next h =>
      rw [tsCmp_pos_iff] at h
      refine ⟨le_rfl, fun t' ht' => ?_, .inl rfl⟩
      cases ht'
      exact h.le
    · next h =>
      rw [tsCmp_pos_iff, not_lt] at h
      refine ⟨h, fun t' ht' => ?_, .inr rfl⟩
      cases ht'
      exact le_rfl

/-- What the loop leaves if every restart works: each tracee served, and the time of the
first of those still delayed. -/
structure LoopDone (now : Timespec) (next : Option Timespec) (tab : List DelayTcb)
    (r : Restarts) : Prop where
  tcbtab : r.tcbtab = tab.map (·.served now)
  first : ∀ v, r.next = some v → next = some v ∨
    ∃ tcp ∈ tab, (tcp.served now).delayed = true ∧ tcp.delayExpirationTime = v
  least : ∀ tcp ∈ tab, (tcp.served now).delayed = true →
    ∃ v, r.next = some v ∧ v ≤ tcp.delayExpirationTime
  earlier : ∀ t, next = some t → ∃ v, r.next = some v ∧ v ≤ t

theorem LoopDone.cons {now : Timespec} {next : Option Timespec} {tab : List DelayTcb}
    {r : Restarts} (h : LoopDone now next tab r) {tcp : DelayTcb}
    (hgone : (tcp.served now).delayed = false) :
    LoopDone now next (tcp :: tab) (r.cons (tcp.served now)) where
  tcbtab := by rw [Restarts.cons, h.tcbtab, List.map_cons]
  first v hv := by
    obtain hn | ⟨t, ht, hd⟩ := h.first v hv
    · exact .inl hn
    · exact .inr ⟨t, List.mem_cons_of_mem _ ht, hd⟩
  least t ht hd := by
    rcases List.mem_cons.mp ht with rfl | ht
    · rw [hgone] at hd
      exact absurd hd (by decide)
    · exact h.least t ht hd
  earlier := h.earlier

/-- A tracee that is delayed for longer. -/
theorem LoopDone.cons_later {now : Timespec} {next : Option Timespec} {tab : List DelayTcb}
    {r : Restarts} {tcp : DelayTcb}
    (h : LoopDone now (some (sooner next tcp.delayExpirationTime)) tab r)
    (hd : tcp.delayed = true) (hlater : now ≤ tcp.delayExpirationTime) :
    LoopDone now next (tcp :: tab) (r.cons tcp) := by
  obtain ⟨hv, hnext, heq⟩ := sooner_le next tcp.delayExpirationTime
  -- the time of this one has not come, so it is left as it is
  have hserved : tcp.served now = tcp := if_neg fun hdue => absurd hdue.2 (not_lt.mpr hlater)
  obtain ⟨w, hw, hle⟩ := h.earlier _ rfl
  refine ⟨?_, fun v hv' => ?_, fun t ht hdt => ?_, fun t ht => ⟨w, hw, hle.trans (hnext t ht)⟩⟩
  · rw [Restarts.cons, h.tcbtab, List.map_cons, hserved]
  -- the earliest time is that of the first tracee, of the rest, or the one from before
  · obtain hn | ⟨t, ht, hdt⟩ := h.first v hv'
    · cases hn
      rcases heq with heq | heq
      · exact .inr ⟨tcp, List.mem_cons_self, by rw [hserved]; exact hd, heq.symm⟩
      · exact .inl heq
    · exact .inr ⟨t, List.mem_cons_of_mem _ ht, hdt⟩
  · rcases List.mem_cons.mp ht with rfl | ht
    · exact ⟨w, hw, hle.trans hv⟩
    · exact h.least t ht hdt

/-- The loop, by induction on the table. -/
theorem restartLoop_done (now : Timespec) (ok : Nat → Bool) (tab : List DelayTcb)
    (next : Option Timespec) (hok : (restartLoop now ok next tab).ok = true) :
    LoopDone now next tab (restartLoop now ok next tab) := by
  induction tab generalizing next with
  | nil =>
    refine ⟨rfl, fun v hv => .inl hv, fun tcp htcp => absurd htcp List.not_mem_nil, ?_⟩
    exact fun t ht => ⟨t, ht, le_rfl⟩
  | cons tcp tab ih =>
    unfold restartLoop at hok ⊢
    -- not delayed, due, or due later
    by_cases hd : tcp.delayed = true
    · rw [if_pos hd] at hok ⊢
      by_cases hdue : 0 < tsCmp now tcp.delayExpirationTime
      · rw [if_pos hdue] at hok ⊢
        have hserved : tcp.served now = tcp.restart true := if_pos ⟨hd, tsCmp_pos_iff.mp hdue⟩
        cases hp : ok tcp.pid with
        | true =>
          rw [hp, if_pos rfl] at hok
          rw [if_pos rfl, ← hserved]
          exact (ih next hok).cons (by rw [hserved, DelayTcb.delayed_restart])
        | false =>
          rw [hp, if_neg (by decide)] at hok
          exact absurd hok Bool.false_ne_true
      · rw [if_neg hdue] at hok ⊢
        rw [tsCmp_pos_iff, not_lt] at hdue
        exact (ih _ hok).cons_later hd hdue
    · rw [if_neg hd] at hok ⊢
      have hserved : tcp.served now = tcp := if_neg fun hdue => hd hdue.1
      rw [Bool.not_eq_true] at hd
      have hgone : (tcp.served now).delayed = false := by rw [hserved, hd]
      have hdone := (ih next hok).cons hgone
      rwa [hserved] at hdone

/-- With restarts that work the loop comes to its end. -/
theorem restartLoop_ok (now : Timespec) (tab : List DelayTcb) (next : Option Timespec) :
    (restartLoop now (fun _ => true) next tab).ok = true := by
  induction tab generalizing next with
  | nil => rfl
  | cons tcp tab ih =>
    unfold restartLoop
    split
    · split
      · exact ih next
      · exact ih _
    · exact ih next

/-! ## What an input can do -/

section Steps

variable {keeps : Bool} {s : Delays}

theorem pid2tcb_some {pid : Nat} {tcp : DelayTcb} (h : s.pid2tcb pid = some tcp) :
    tcp ∈ s.tcbtab ∧ tcp.pid = pid ∧ pid ≠ 0 := by
  unfold Delays.pid2tcb at h
  split at h
  · exact absurd h (by simp)
  · next h0 => exact ⟨List.mem_of_find?_eq_some h, by simpa using List.find?_some h, h0⟩

/-- The slot of a tracee that has come to a call and is delayed until that time. -/
def DelayTcb.stopFor (v : Timespec) (tcp : DelayTcb) : DelayTcb :=
  tcp.halt.delayUntil v

theorem update_halt_delayUntil (s : Delays) (pid : Nat) (v : Timespec) :
    (s.update pid DelayTcb.halt).update pid (·.delayUntil v) = s.update pid (·.stopFor v) := by
  unfold Delays.update
  dsimp only
  rw [List.map_map]
  congr 2
  funext tcp
  by_cases hp : tcp.pid = pid
  · simp [hp, DelayTcb.stopFor]
  · simp [hp]

theorem mem_alloctcb {tcp x : DelayTcb} {tab : List DelayTcb} (hx : x ∈ alloctcb tcp tab) :
    x = tcp ∨ x ∈ tab := by
  induction tab with
  | nil => exact .inl (List.mem_singleton.mp hx)
  | cons t tab ih =>
    unfold alloctcb at hx
    split at hx
    · exact (List.mem_cons.mp hx).imp_right (List.mem_cons_of_mem t)
    · rcases List.mem_cons.mp hx with rfl | hx
      · exact .inr List.mem_cons_self
      · exact (ih hx).imp_right (List.mem_cons_of_mem t)

/-- Only a free slot is overwritten. -/
theorem mem_alloctcb_of_mem {tcp x : DelayTcb} {tab : List DelayTcb} (hx : x ∈ tab)
    (h0 : x.pid ≠ 0) : x ∈ alloctcb tcp tab := by
  induction tab with
  | nil => exact absurd hx List.not_mem_nil
  | cons t tab ih =>
    unfold alloctcb
    rcases List.mem_cons.mp hx with rfl | hx
    · rw [if_neg h0]
      exact List.mem_cons_self
    · split
      · exact List.mem_cons_of_mem _ hx
      · exact List.mem_cons_of_mem _ (ih hx)

@[simp] theorem tcbtab_armDelayTimer (v : Timespec) :
    (armDelayTimer keeps s v).tcbtab = s.tcbtab := by
  unfold armDelayTimer timerSettime
  split <;> rfl

@[simp] theorem ended_armDelayTimer (v : Timespec) :
    (armDelayTimer keeps s v).ended = s.ended := by
  unfold armDelayTimer timerSettime
  split <;> rfl

@[simp] theorem tcbtab_timerSighandler (ok : Nat → Bool) :
    (timerSighandler keeps s ok).tcbtab = (restartLoop s.now ok none s.tcbtab).tcbtab := by
  unfold timerSighandler
  dsimp only
  split
  · rw [tcbtab_armDelayTimer]
  · rfl

@[simp] theorem ended_timerSighandler (ok : Nat → Bool) :
    (timerSighandler keeps s ok).ended = !(restartLoop s.now ok none s.tcbtab).ok := by
  unfold timerSighandler
  dsimp only
  split
  · rw [ended_armDelayTimer]
  · rfl

/-- The clock moves on while a slot is changed. -/
theorem update_tick (s : Delays) (pid : Nat) (f : DelayTcb → DelayTcb) (later : Timespec) :
    (s.update pid f).tick later = (s.tick later).update pid f := by
  unfold Delays.tick Delays.update
  dsimp only
  split
  · rfl
  · split <;> rfl

/-- What a tick leaves alone. -/
theorem tick_frame (s : Delays) (later : Timespec) :
    (s.tick later).now = max s.now later ∧ (s.tick later).tcbtab = s.tcbtab ∧
      (s.tick later).window = s.window ∧ (s.tick later).ended = s.ended := by
  unfold Delays.tick
  dsimp only
  split
  · exact ⟨rfl, rfl, rfl, rfl⟩
  · split <;> exact ⟨rfl, rfl, rfl, rfl⟩

theorem now_le_tick (s : Delays) (later : Timespec) : s.now ≤ (s.tick later).now := by
  rw [(tick_frame s later).1]
  exact le_max_left _ _

/-- What an input can do. -/
inductive DelayStep (keeps : Bool) (s : Delays) : DelayInput → Delays → Prop where
  | idle (input : DelayInput) : DelayStep keeps s input s
  | tick (later : Timespec) : DelayStep keeps s (.tick later) (s.tick later)
  | attach (pid : Nat) (h0 : pid ≠ 0) (hnew : s.pid2tcb pid = none) :
      DelayStep keeps s (.attach pid) { s with tcbtab := alloctcb (.new pid) s.tcbtab }
  | exit (pid : Nat) (h0 : pid ≠ 0) :
      DelayStep keeps s (.exit pid) (s.update pid fun _ => .free)
  | stop (pid : Nat) (delay : Option DelayCall) (ok : Bool) :
      DelayStep keeps s (.stop pid delay ok) (dispatchStop keeps s pid delay ok)
  | window (input : DelayInput) (w : SignalWindow) : DelayStep keeps s input { s with window := w }
  | deliver (ok : Nat → Bool) (hp : s.pending = true) :
      DelayStep keeps s (.deliver ok) (timerSighandler keeps { s with pending := false } ok)

theorem delayStep (keeps : Bool) (s : Delays) (input : DelayInput) :
    DelayStep keeps s input (stepDelays keeps s input) := by
  unfold stepDelays
  split
  · exact .idle input
  split
  · exact .tick _
  · split
    · exact .idle _
    · next h =>
      rw [not_or, Bool.not_eq_true, Option.isSome_eq_false_iff, Option.isNone_iff_eq_none] at h
      exact .attach _ h.1 h.2
  · split
    · exact .idle _
    · next h0 => exact .exit _ h0
  · exact .stop _ _ _
  · exact .window _ _
  · exact .window _ _
  · split
    · next hp => exact .deliver _ hp
    · exact .idle _
  · exact .idle _

theorem ended_step {input : DelayInput} (h : s.ended = true) :
    stepDelays keeps s input = s := by
  unfold stepDelays
  rw [if_pos h]

end Steps

/-! ## No wake-up comes early -/

/-- The tracee is delayed until that time: it is in the table, and every entry with its number is
stopped and has that time. -/
structure Waits (s : Delays) (pid : Nat) (t : Timespec) : Prop where
  ne_zero : pid ≠ 0
  there : ∃ tcp ∈ s.tcbtab, tcp.pid = pid
  waits : ∀ tcp ∈ s.tcbtab, tcp.pid = pid →
    tcp.delayed = true ∧ tcp.running = false ∧ tcp.delayExpirationTime = t

section Early

variable {keeps : Bool} {s : Delays} {pid : Nat} {t : Timespec}

theorem Waits.of_tab {s' : Delays} (hw : Waits s pid t)
    (htab : s'.tcbtab = s.tcbtab) : Waits s' pid t :=
  ⟨hw.ne_zero, by rw [htab]; exact hw.there, by rw [htab]; exact hw.waits⟩

/-- The other tracees, and a delayed one on its way out. -/
theorem Waits.update (hw : Waits s pid t) {pid' : Nat} {f : DelayTcb → DelayTcb}
    (hpid : ∀ tcp ∈ s.tcbtab, tcp.pid = pid' → pid' ≠ pid → (f tcp).pid ≠ pid)
    (hsame : ∀ tcp ∈ s.tcbtab, tcp.pid = pid → pid' = pid → (f tcp).pid = pid ∧
      (f tcp).delayed = true ∧ (f tcp).running = false ∧ (f tcp).delayExpirationTime = t) :
    Waits (s.update pid' f) pid t := by
  refine ⟨hw.ne_zero, ?_, List.forall_mem_map.mpr fun tcp ht hp => ?_⟩
  · obtain ⟨tcp, ht, hp⟩ := hw.there
    refine ⟨_, List.mem_map_of_mem ht, ?_⟩
    split
    · next heq => exact (hsame tcp ht hp (heq.symm.trans hp)).1
    · exact hp
  · split at hp
    · next heq =>
      rw [if_pos heq]
      -- the slot that changes is that of the tracee itself, or that of another one
      by_cases hpp : pid' = pid
      · exact (hsame tcp ht (heq.trans hpp) hpp).2
      · exact absurd hp (hpid tcp ht heq hpp)
    · next hne =>
      rw [if_neg hne]
      exact hw.waits tcp ht hp

theorem tcbtab_delayTcb (s : Delays) (pid : Nat) (d : DelayCall) :
    (delayTcb keeps s pid d).tcbtab =
      (s.update pid (·.delayUntil (tsAdd s.now d.delay.ts))).tcbtab := by
  unfold delayTcb
  dsimp only
  split
  · rw [(tick_frame _ _).2.1]
  · rw [tcbtab_armDelayTimer, (tick_frame _ _).2.1, (tick_frame _ _).2.1]

/-- A stop of a tracee, seen from one that is delayed. -/
theorem Waits.stop (hw : Waits s pid t) (pid' : Nat) (delay : Option DelayCall) (ok : Bool) :
    Waits (dispatchStop keeps s pid' delay ok) pid t := by
  have hkept : ∀ tcp ∈ s.tcbtab, tcp.pid = pid → pid' = pid →
      (tcp.halt.dispatch ok).pid = pid ∧
      (tcp.halt.dispatch ok).delayed = true ∧
      (tcp.halt.dispatch ok).running = false ∧
      (tcp.halt.dispatch ok).delayExpirationTime = t := by
    intro tcp ht hp _
    obtain ⟨hd, -, he⟩ := hw.waits tcp ht hp
    have hd' : tcp.halt.delayed = true := hd
    rw [DelayTcb.pid_dispatch, DelayTcb.delayed_dispatch, DelayTcb.running_dispatch hd',
      DelayTcb.delayExpirationTime_dispatch]
    exact ⟨hp, hd, rfl, he⟩
  unfold dispatchStop
  split
  · exact hw
  · refine (hw.update (fun tcp _ hp hne => ?_) hkept).of_tab rfl
    rw [DelayTcb.pid_dispatch]
    exact hp.trans_ne hne
  · next tcp d hfind =>
    obtain ⟨hmem, hpid, h0⟩ := pid2tcb_some hfind
    split
    · next hrun =>
      -- the tracee that stops runs, so it is another one
      have hne : pid' ≠ pid := by
        intro heq
        rw [(hw.waits tcp hmem (hpid.trans heq)).2.1] at hrun
        exact absurd hrun (by decide)
      have hother : ∀ (s : Delays) (f : DelayTcb → DelayTcb), Waits s pid t →
          (∀ tcp, (f tcp).pid = tcp.pid) → Waits (s.update pid' f) pid t := fun s f hw hf =>
        hw.update (fun tcp _ hp hne => by rw [hf]; exact hp.trans_ne hne)
          fun _ _ _ heq => absurd heq hne
      refine hother _ _ ?_ fun tcp => DelayTcb.pid_dispatch ok tcp
      -- the readings of the clock leave the table alone
      refine Waits.of_tab ?_ (tcbtab_delayTcb _ _ _)
      exact hother _ _ (hother _ _ hw fun _ => rfl) fun _ => rfl
    · exact hw

end Early

/-- Five milliseconds, with the timer read after one more nanosecond and set after two. -/
def fiveMs : DelayCall := ⟨⟨5, by decide⟩, .ofNanos 1, .ofNanos 2⟩

/-- The delay that `case DELAY` draws. -/
def DelayMs.drawn (r : RandomFile) : DelayMs :=
  ⟨r.getRandomUint16.1 % 1000, by
    rw [UInt16.toNat_mod]
    exact Nat.mod_lt _ (by decide)⟩

/-- What `case DELAY` hands to `tamper_with_syscall_entering`, and from there to
`delay_tcb`: an entry of the table, which holds the delay that was drawn. -/
theorem injectDelay_entry {s s' : InjectorState} {tcp tcp' : Tcb}
    (h : injectDelay s tcp = some (s', tcp')) :
    ∃ data, tcp'.injectVec = some data ∧ data.flags = injectFDelayEnter ∧
      s'.delayDataVec[data.delayIdx.toNat]? = some (DelayMs.drawn s.random).ms := by
  unfold injectDelay allocDelayData at h
  dsimp only at h
  split at h
  · exact absurd h (by simp)
  · next hroom =>
    rw [Option.map_some, Option.some.injEq, Prod.mk.injEq] at h
    obtain ⟨rfl, rfl⟩ := h
    -- the room that was found says that 16 bits hold the index
    have hidx : (UInt16.ofNat s.delayDataVec.length).toNat = s.delayDataVec.length :=
      le_antisymm (by rw [UInt16.toNat_ofNat']; exact Nat.mod_le _ _) (not_lt.mp hroom)
    refine ⟨_, rfl, rfl, ?_⟩
    dsimp only
    rw [hidx, List.getElem?_append_right le_rfl, Nat.sub_self]
    rfl

end DistFuzz.Injector
