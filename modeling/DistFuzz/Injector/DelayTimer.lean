import DistFuzz.Injector.Delay

/-!
# The timer of the delays (strace/src/delay.c, strace.c:3185–3222, 3671–3723)

- `Guarded`: as long as a tracee is delayed, the timer runs or its signal is pending, and
  the next wait will let the signal in. A kernel that keeps pending signals has the timer
  set in time, up to what passes between the two readings of the clock in `delay_tcb`.
- `guarded_arm`: the one place where the timer is set, used by `delay_tcb` and by the
  handler; `guarded_step`, `guarded_run`: every input keeps the invariant, and every run.
- `Orphans`: the one thing that would break it; `Prompt`: a bound on the time between the
  two readings.
- `delayed_restarted`: no wake-up is lost.
-/

namespace DistFuzz.Injector

open DistFuzz.Lib

/-! ## The invariant -/

/-- A tracee that is delayed is stopped, for less than a second from now, and no two tracees
have one number. -/
structure TabOk (now : Timespec) (tab : List DelayTcb) : Prop where
  stopped : ∀ tcp ∈ tab, tcp.delayed = true → tcp.running = false
  soon : ∀ tcp ∈ tab, tcp.delayed = true →
    tcp.delayExpirationTime.nanos < now.nanos + 1000000000
  unique : ∀ a ∈ tab, ∀ b ∈ tab, a.pid ≠ 0 → a.pid = b.pid → a = b

/-- As long as a tracee is delayed, the timer is set or its signal is pending, and strace
knows it. A kernel that keeps pending signals has the timer set in time for each tracee, or
has a signal pending. In time is at most `lag` nanoseconds late: `delay_tcb` adds the delay
to one reading of the clock and compares it with what is left of the timer at a later one,
so it may leave the timer to one that ends a little after the new delay. -/
structure Guarded (keeps : Bool) (lag : Nat) (s : Delays) : Prop where
  tab : TabOk s.now s.tcbtab
  ahead : ∀ v, s.timer = some v → s.now < v ∧ v.nanos < s.now.nanos + 1000000000
  created : s.timer.isSome = true ∨ s.pending = true → s.timerCreated = true
  idle : s.delayTimerIsArmed = false → s.timer = none
  armed : ∀ tcp ∈ s.tcbtab, tcp.delayed = true →
    s.delayTimerIsArmed = true ∧ (s.pending = true ∨ ∃ v, s.timer = some v)
  forgotten : keeps = false → s.pending = true → s.timer = none
  owned : keeps = true → s.pending = true → ∀ v, s.timer = some v →
    ∃ tcp ∈ s.tcbtab, tcp.delayed = true ∧ tcp.delayExpirationTime = v
  timely : keeps = true → s.pending = false → ∀ tcp ∈ s.tcbtab, tcp.delayed = true →
    ∀ v, s.timer = some v → v.nanos ≤ tcp.delayExpirationTime.nanos + lag

section Steps

variable {keeps : Bool} {lag : Nat} {s : Delays}

theorem guarded_init (keeps : Bool) (lag : Nat) (now : Timespec) :
    Guarded keeps lag (.init now) where
  tab := ⟨fun _ h => absurd h List.not_mem_nil, fun _ h => absurd h List.not_mem_nil,
    fun _ h => absurd h List.not_mem_nil⟩
  ahead v hv := absurd hv (by simp [Delays.init])
  created h := absurd h (by simp [Delays.init])
  idle _ := rfl
  armed _ h := absurd h List.not_mem_nil
  forgotten _ _ := rfl
  owned _ h := absurd h (by simp [Delays.init])
  timely _ _ _ h := absurd h List.not_mem_nil

/-- Setting the timer for a tracee that is delayed, the first one unless a signal is on its
way. -/
theorem guarded_arm {v : Timespec} (htab : TabOk s.now s.tcbtab) (hcreated : s.timerCreated = true)
    (hown : ∃ tcp ∈ s.tcbtab, tcp.delayed = true ∧ tcp.delayExpirationTime = v)
    (hmin : keeps = true → s.pending = false → ∀ tcp ∈ s.tcbtab, tcp.delayed = true →
      v.nanos ≤ tcp.delayExpirationTime.nanos + lag) :
    Guarded keeps lag (armDelayTimer keeps s v) := by
  unfold armDelayTimer timerSettime
  split
  · next hpast =>
    -- the timer expires at once
    exact ⟨htab, fun w hw => absurd hw (by simp), fun _ => hcreated, fun _ => rfl,
      fun _ _ _ => ⟨rfl, .inl rfl⟩, fun _ _ => rfl, fun _ _ w hw => absurd hw (by simp),
      fun _ h => absurd h (by simp)⟩
  · next hahead =>
    obtain ⟨own, hmem, hd, rfl⟩ := hown
    refine ⟨htab, fun w hw => ?_, fun _ => hcreated, fun h => absurd h (by simp),
      fun _ _ _ => ⟨rfl, .inr ⟨_, rfl⟩⟩, fun hk hp => ?_, fun _ _ w hw => ?_,
      fun hk hp tcp htcp hdtcp w hw => ?_⟩
    · cases hw
      exact ⟨not_le.mp hahead, htab.soon own hmem hd⟩
    · rw [hk, Bool.and_false] at hp
      exact absurd hp Bool.false_ne_true
    · cases hw
      exact ⟨own, hmem, hd, rfl⟩
    · cases hw
      rw [hk, Bool.and_true] at hp
      exact hmin hk hp tcp htcp hdtcp

/-- A change of the tracees that delays none and ends no delay. -/
theorem Guarded.retab (h : Guarded keeps lag s) {f : DelayTcb → DelayTcb}
    (hpid : ∀ tcp ∈ s.tcbtab, (f tcp).pid = tcp.pid)
    (hdel : ∀ tcp ∈ s.tcbtab, (f tcp).delayed = tcp.delayed)
    (hexp : ∀ tcp ∈ s.tcbtab, (f tcp).delayExpirationTime = tcp.delayExpirationTime)
    (hrun : ∀ tcp ∈ s.tcbtab, tcp.delayed = true → (f tcp).running = false) :
    Guarded keeps lag { s with tcbtab := s.tcbtab.map f } := by
  have hmem : ∀ {P : DelayTcb → Prop}, (∀ tcp ∈ s.tcbtab, P (f tcp)) →
      ∀ tcp ∈ s.tcbtab.map f, P tcp := fun hP => List.forall_mem_map.mpr hP
  refine ⟨⟨hmem fun tcp ht hd => hrun tcp ht (by rwa [← hdel tcp ht]),
      hmem fun tcp ht hd => ?_, hmem fun a ha => hmem fun b hb ha0 hab => ?_⟩,
    h.ahead, h.created, h.idle, hmem fun tcp ht hd => h.armed tcp ht (by rwa [← hdel tcp ht]),
    h.forgotten, fun hk hp v hv => ?_, fun hk hp => hmem fun tcp ht hd v hv => ?_⟩
  · rw [hexp tcp ht]
    exact h.tab.soon tcp ht (by rwa [← hdel tcp ht])
  · rw [hpid a ha] at ha0 hab
    rw [hpid b hb] at hab
    rw [h.tab.unique a ha b hb ha0 hab]
  · obtain ⟨tcp, ht, hd, he⟩ := h.owned hk hp v hv
    exact ⟨f tcp, List.mem_map_of_mem ht, by rw [hdel tcp ht, hd], by rw [hexp tcp ht, he]⟩
  · rw [hexp tcp ht]
    exact h.timely hk hp tcp ht (by rwa [← hdel tcp ht]) v hv

theorem guarded_tick (h : Guarded keeps lag s) (later : Timespec) :
    Guarded keeps lag (s.tick later) := by
  have hnow : s.now.nanos ≤ (max s.now later).nanos := Timespec.le_iff.mp (le_max_left _ _)
  -- a delay that ends within a second of now does so after the clock has moved on
  have htab : TabOk (max s.now later) s.tcbtab :=
    ⟨h.tab.stopped, fun tcp ht hd => (h.tab.soon tcp ht hd).trans_le (by omega), h.tab.unique⟩
  unfold Delays.tick
  cases htimer : s.timer with
  | none =>
    refine ⟨htab, fun v hv => absurd hv (by simp), fun hc => ?_, fun _ => rfl,
      fun tcp ht hd => ?_, fun _ _ => rfl, fun _ _ v hv => absurd hv (by simp),
      fun _ _ _ _ _ v hv => absurd hv (by simp)⟩
    · exact h.created (by rwa [htimer])
    · have harmed := h.armed tcp ht hd
      rwa [htimer] at harmed
  | some v =>
    have hcreated := h.created (.inl (by rw [htimer]; rfl))
    dsimp only
    -- the timer expires at this tick, or it is still ahead
    split
    · exact ⟨htab, fun v hv => absurd hv (by simp), fun _ => hcreated, fun _ => rfl,
        fun tcp ht hd => ⟨(h.armed tcp ht hd).1, .inl rfl⟩, fun _ _ => rfl,
        fun _ _ v hv => absurd hv (by simp), fun _ hp => absurd hp (by simp)⟩
    · next hahead =>
      refine ⟨htab, fun w hw => ?_, fun _ => hcreated, fun hi => ?_, fun tcp ht hd => ?_,
        fun hk hp => ?_, fun hk hp w hw => ?_, fun hk hp tcp ht hd w hw => ?_⟩
      · cases hw
        have hv := (h.ahead v htimer).2
        exact ⟨not_le.mp hahead, by dsimp only; omega⟩
      · have hidle := h.idle hi
        rwa [htimer] at hidle
      · exact ⟨(h.armed tcp ht hd).1, .inr ⟨v, rfl⟩⟩
      · have hnone := h.forgotten hk hp
        rwa [htimer] at hnone
      · exact h.owned hk hp w (htimer.trans hw)
      · exact h.timely hk hp tcp ht hd w (htimer.trans hw)

/-- A tracee that runs, with its number: the one that a stop is about when it is delayed. -/
structure Underway (s : Delays) (pid : Nat) (tcp : DelayTcb) : Prop where
  mem : tcp ∈ s.tcbtab
  pid_eq : tcp.pid = pid
  ne_zero : pid ≠ 0
  running : tcp.running = true

/-- What happens to a tracee that runs does not concern those that are delayed. -/
theorem Underway.mem_update (h : Guarded keeps lag s) {pid : Nat} {tcp : DelayTcb}
    (hr : Underway s pid tcp)
    (f : DelayTcb → DelayTcb) {old : DelayTcb} (hold : old ∈ s.tcbtab)
    (hd : old.delayed = true) : old ∈ (s.update pid f).tcbtab := by
  have hne : old.pid ≠ pid := by
    intro heq
    have hsame := h.tab.unique old hold tcp hr.mem (by rw [heq]; exact hr.ne_zero)
      (heq.trans hr.pid_eq.symm)
    have hrun := hr.running
    rw [← hsame, h.tab.stopped old hold hd] at hrun
    exact absurd hrun (by decide)
  exact List.mem_map.mpr ⟨old, hold, if_neg hne⟩

theorem mem_stopFor {pid : Nat} {v : Timespec} {x : DelayTcb}
    (hx : x ∈ (s.update pid (·.stopFor v)).tcbtab) :
    x ∈ s.tcbtab ∨ x.pid = pid ∧ x.running = false ∧ x.delayExpirationTime = v := by
  obtain ⟨tcp, htcp, rfl⟩ := List.mem_map.mp hx
  split
  · next hp => exact .inr ⟨hp, rfl, rfl⟩
  · exact .inl htcp

theorem tabOk_stopFor (h : TabOk s.now s.tcbtab) (pid : Nat) {v : Timespec}
    (hv : v.nanos < s.now.nanos + 1000000000) :
    TabOk s.now (s.update pid (·.stopFor v)).tcbtab := by
  refine ⟨fun x hx hd => ?_, fun x hx hd => ?_, ?_⟩
  · rcases mem_stopFor hx with hx | ⟨-, hrun, -⟩
    · exact h.stopped x hx hd
    · exact hrun
  · rcases mem_stopFor hx with hx | ⟨-, -, he⟩
    · exact h.soon x hx hd
    · rw [he]
      exact hv
  · refine List.forall_mem_map.mpr fun a ha => List.forall_mem_map.mpr fun b hb ha0 hab => ?_
    have hpids : ∀ tcp : DelayTcb,
        (if tcp.pid = pid then tcp.stopFor v else tcp).pid = tcp.pid := by
      intro tcp
      split <;> rfl
    rw [hpids] at ha0 hab
    rw [hpids] at hab
    rw [h.unique a ha b hb ha0 hab]

/-- A tracee that goes on while the clock does. -/
theorem Underway.tick {pid : Nat} {tcp : DelayTcb} (hr : Underway s pid tcp) (later : Timespec) :
    Underway (s.tick later) pid tcp :=
  ⟨by rw [(tick_frame s later).2.1]; exact hr.mem, hr.pid_eq, hr.ne_zero, hr.running⟩

theorem Underway.mem_stopFor {pid : Nat} {tcp : DelayTcb} (hr : Underway s pid tcp)
    (v : Timespec) : ∃ x ∈ (s.update pid (·.stopFor v)).tcbtab, x.delayed = true ∧
      x.delayExpirationTime = v :=
  ⟨tcp.stopFor v, List.mem_map.mpr ⟨tcp, hr.mem, if_pos hr.pid_eq⟩,
    DelayTcb.delayed_delayUntil _ (by show tcp.pid ≠ 0; rw [hr.pid_eq]; exact hr.ne_zero), rfl⟩

/-- The test of `delay_tcb`: the timer is set, and what is left of it is less than the
delay. -/
theorem early_iff {w : Timespec} (h : Guarded keeps lag s) (hw : s.timer = some w) (d : DelayMs) :
    (s.timerCreated && tsNz (timerGettime s) && decide (0 < tsCmp d.ts (timerGettime s))) = true ↔
      w.nanos < s.now.nanos + d.ts.nanos := by
  have hahead := Timespec.lt_iff.mp (h.ahead w hw).1
  rw [h.created (.inl (by rw [hw]; rfl)), Bool.true_and, Bool.and_eq_true, decide_eq_true_eq,
    tsNz_iff, timerGettime, hw, tsCmp_pos_iff, Timespec.lt_iff, Timespec.nanos_ofNanos]
  omega

/-- At most `lag` nanoseconds pass between the two readings of the clock in `delay_tcb`,
`clock_gettime` and `timer_gettime`. -/
def Prompt (lag : Nat) (s : Delays) : DelayInput → Prop
  | .stop _ (some d) _ => d.getAt.nanos ≤ s.now.nanos + lag
  | _ => True

/-- `delay_tcb` leaves the timer to another tracee. The new delay may end before the timer
does, by no more than the clock moved between the two readings. -/
theorem guarded_early (h : Guarded keeps lag s) {pid : Nat} {tcp : DelayTcb}
    (hr : Underway s pid tcp) {v : Timespec} (hsoon : v.nanos < s.now.nanos + 1000000000)
    {w : Timespec} (htimer : s.timer = some w) (hw : w.nanos ≤ v.nanos + lag) :
    Guarded keeps lag (s.update pid (·.stopFor v)) := by
  have harmed : s.delayTimerIsArmed = true := by
    by_contra hno
    rw [Bool.not_eq_true] at hno
    rw [h.idle hno] at htimer
    exact absurd htimer (by simp)
  refine ⟨tabOk_stopFor h.tab pid hsoon, h.ahead, h.created, h.idle,
    fun x _ _ => ⟨harmed, .inr ⟨w, htimer⟩⟩, h.forgotten, fun hk hp v hv => ?_,
    fun hk hp x hx hd v hv => ?_⟩
  · -- the tracee the timer is set for is not the one that stops now
    obtain ⟨own, hown, hd, he⟩ := h.owned hk hp v hv
    exact ⟨own, hr.mem_update h _ hown hd, hd, he⟩
  · rcases mem_stopFor hx with hx | ⟨-, -, he⟩
    · exact h.timely hk hp x hx hd v hv
    · rw [show s.timer = some v from hv] at htimer
      cases htimer
      rw [he]
      exact hw

/-- What is on its way stays so, and the timer is still set unless it expired. -/
theorem tick_quiet {later : Timespec} (hp : (s.tick later).pending = false) :
    s.pending = false ∧ (s.tick later).timer = s.timer := by
  unfold Delays.tick at hp ⊢
  cases htimer : s.timer with
  | none =>
    rw [htimer] at hp
    exact ⟨hp, rfl⟩
  | some v =>
    rw [htimer] at hp
    dsimp only at hp ⊢
    split at hp
    · exact absurd hp Bool.noConfusion
    · next hahead => exact ⟨hp, by rw [if_neg hahead]⟩

/-- `delay_tcb` sets the timer for the new delay. What the others wait for comes later, but
for the time that passed between the two readings of the clock. -/
theorem guarded_late (h : Guarded keeps lag s) {pid : Nat} {tcp : DelayTcb}
    (hr : Underway s pid tcp) {delay : DelayMs} {v : Timespec}
    (hlate : ¬(s.timerCreated && tsNz (timerGettime s) &&
      decide (0 < tsCmp delay.ts (timerGettime s))) = true)
    (hsoon : v.nanos < s.now.nanos + 1000000000)
    (hv : v.nanos ≤ s.now.nanos + delay.ts.nanos) (setAt : Timespec) :
    Guarded keeps lag
      (armDelayTimer keeps { (s.tick setAt).update pid (·.stopFor v) with timerCreated := true }
        v) := by
  have hset := guarded_tick h setAt
  have hle := Timespec.le_iff.mp (now_le_tick s setAt)
  refine guarded_arm (tabOk_stopFor hset.tab pid (by omega)) rfl
    ((hr.tick setAt).mem_stopFor _) fun hk hp x hx hd => ?_
  rcases mem_stopFor hx with hx | ⟨-, -, he⟩
  · -- nothing is pending, so the timer was set for the others, and for no earlier time
    obtain ⟨hquiet, hsame⟩ := tick_quiet (show (s.tick setAt).pending = false from hp)
    rw [(tick_frame _ _).2.1] at hx
    obtain ⟨-, hpend | ⟨w, hw⟩⟩ := h.armed x hx hd
    · rw [hquiet] at hpend
      exact absurd hpend (by decide)
    have hothers := h.timely hk hquiet x hx hd w hw
    have hfirst := mt (early_iff h hw delay).mpr hlate
    omega
  · rw [he]
    omega

/-- `delay_tcb`: if it returns early, the timer is set and comes first, or not much later. -/
theorem guarded_delayTcb (h : Guarded keeps lag s) {pid : Nat} {tcp : DelayTcb}
    (hr : Underway s pid tcp) (d : DelayCall) (hlag : d.getAt.nanos ≤ s.now.nanos + lag) :
    Guarded keeps lag (delayTcb keeps (s.update pid DelayTcb.halt) pid d) := by
  unfold delayTcb
  dsimp only
  rw [show (s.update pid DelayTcb.halt).now = s.now from rfl, update_halt_delayUntil, update_tick]
  -- the end of the delay counts from the first reading, the rest from the second
  have hv : (tsAdd s.now d.delay.ts).nanos = s.now.nanos + d.delay.ts.nanos := nanos_tsAdd ..
  have hshort : d.delay.ts.nanos < 1000000000 := by
    have hlt := d.delay.lt
    rw [d.delay.nanos_ts]
    omega
  have hget := guarded_tick h d.getAt
  have hrget := hr.tick d.getAt
  have hge := Timespec.le_iff.mp (now_le_tick s d.getAt)
  have hle : (s.tick d.getAt).now.nanos ≤ s.now.nanos + lag := by
    rw [(tick_frame _ _).1]
    rcases max_choice s.now d.getAt with hmax | hmax <;> rw [hmax] <;> omega
  generalize s.tick d.getAt = r at hget hrget hge hle ⊢
  have htest : timerGettime (r.update pid (·.stopFor (tsAdd s.now d.delay.ts))) = timerGettime r :=
    rfl
  rw [htest, show (r.update pid (·.stopFor (tsAdd s.now d.delay.ts))).timerCreated =
    r.timerCreated from rfl]
  split
  · next hearly =>
    cases htimer : r.timer with
    | none =>
      rw [Bool.and_eq_true, Bool.and_eq_true, tsNz_iff, timerGettime, htimer,
        Timespec.nanos_ofNanos] at hearly
      exact absurd rfl hearly.1.2
    | some w =>
      have hw := (early_iff hget htimer d.delay).mp hearly
      exact guarded_early hget hrget (by omega) htimer (by omega)
  · next hlate =>
    rw [update_tick]
    exact guarded_late hget hrget hlate (by omega) (by omega) d.setAt

theorem Guarded.control (h : Guarded keeps lag s) (w : SignalWindow) (e : Bool) :
    Guarded keeps lag { s with window := w, ended := e } :=
  ⟨h.tab, h.ahead, h.created, h.idle, h.armed, h.forgotten, h.owned, h.timely⟩

theorem guarded_stop (h : Guarded keeps lag s) (pid : Nat) (delay : Option DelayCall) (ok : Bool)
    (hlag : Prompt lag s (.stop pid delay ok)) :
    Guarded keeps lag (dispatchStop keeps s pid delay ok) := by
  unfold dispatchStop
  split
  · exact h
  · refine Guarded.control (h.retab (fun tcp _ => ?_) (fun tcp _ => ?_) (fun tcp _ => ?_)
      fun tcp ht hd => ?_) s.window _
    · split
      · rw [DelayTcb.pid_dispatch, DelayTcb.pid_halt]
      · rfl
    · split
      · rw [DelayTcb.delayed_dispatch, DelayTcb.delayed_halt]
      · rfl
    · split
      · rw [DelayTcb.delayExpirationTime_dispatch]
        rfl
      · rfl
    · split
      · exact DelayTcb.running_dispatch ((DelayTcb.delayed_halt tcp).trans hd)
      · exact h.tab.stopped tcp ht hd
  -- a running tracee that is delayed now; the others are stopped and started
  · next tcp d hfind =>
    obtain ⟨hmem, hpid, h0⟩ := pid2tcb_some hfind
    split
    · next hrun =>
      have hdelay := guarded_delayTcb h ⟨hmem, hpid, h0, hrun⟩ d hlag
      refine hdelay.retab (fun tcp _ => ?_) (fun tcp _ => ?_) (fun tcp _ => ?_) fun tcp ht hd => ?_
      · split
        · rw [DelayTcb.pid_dispatch]
        · rfl
      · split
        · rw [DelayTcb.delayed_dispatch]
        · rfl
      · split
        · rw [DelayTcb.delayExpirationTime_dispatch]
        · rfl
      · split
        · rw [DelayTcb.running_dispatch hd]
          exact hdelay.tab.stopped tcp ht hd
        · exact hdelay.tab.stopped tcp ht hd
    · exact h

/-- The table with fewer delayed tracees. -/
theorem TabOk.mono {now : Timespec} {tab tab' : List DelayTcb} (h : TabOk now tab)
    (hold : ∀ x ∈ tab', x.delayed = true → x ∈ tab)
    (huniq : ∀ a ∈ tab', ∀ b ∈ tab', a.pid ≠ 0 → a.pid = b.pid → a = b) : TabOk now tab' :=
  ⟨fun x hx hd => h.stopped x (hold x hx hd) hd, fun x hx hd => h.soon x (hold x hx hd) hd, huniq⟩

theorem mem_exit {pid : Nat} {x : DelayTcb} (hx : x ∈ (s.update pid fun _ => .free).tcbtab) :
    x = .free ∨ x ∈ s.tcbtab ∧ x.pid ≠ pid := by
  obtain ⟨tcp, htcp, rfl⟩ := List.mem_map.mp hx
  split
  · exact .inl rfl
  · next hp => exact .inr ⟨htcp, hp⟩

/-- A thread is gone. The timer of a delayed one goes on. -/
theorem guarded_exit (h : Guarded keeps lag s) {pid : Nat}
    (horphan : keeps = true → s.pending = true → ∀ tcp ∈ s.tcbtab, tcp.delayed = true →
      tcp.pid ≠ pid) :
    Guarded keeps lag (s.update pid fun _ => .free) := by
  have hold : ∀ x ∈ (s.update pid fun _ => .free).tcbtab, x.delayed = true → x ∈ s.tcbtab := by
    intro x hx hd
    rcases mem_exit hx with rfl | ⟨hx, -⟩
    · exact absurd hd (by simp)
    · exact hx
  refine ⟨h.tab.mono hold fun a ha b hb ha0 hab => ?_, h.ahead, h.created, h.idle,
    fun x hx hd => h.armed x (hold x hx hd) hd, h.forgotten, fun hk hp v hv => ?_,
    fun hk hp x hx hd => h.timely hk hp x (hold x hx hd) hd⟩
  · rcases mem_exit ha with rfl | ⟨ha, -⟩
    · exact absurd rfl ha0
    · rcases mem_exit hb with rfl | ⟨hb, -⟩
      · exact absurd hab ha0
      · exact h.tab.unique a ha b hb ha0 hab
  · obtain ⟨own, hown, hd, he⟩ := h.owned hk hp v hv
    exact ⟨own, List.mem_map.mpr ⟨own, hown, if_neg (horphan hk hp own hown hd)⟩, hd, he⟩

theorem guarded_attach (h : Guarded keeps lag s) {tcp : DelayTcb} (hd : tcp.delayed = false)
    (hfresh : ∀ x ∈ s.tcbtab, x.pid ≠ tcp.pid) :
    Guarded keeps lag { s with tcbtab := alloctcb tcp s.tcbtab } := by
  -- the new tracee is not delayed, so every delayed one was there before
  have hold : ∀ x ∈ alloctcb tcp s.tcbtab, x.delayed = true → x ∈ s.tcbtab := by
    intro x hx hdx
    rcases mem_alloctcb hx with rfl | hx
    · rw [hd] at hdx
      exact absurd hdx (by decide)
    · exact hx
  refine ⟨h.tab.mono hold fun a ha b hb ha0 hab => ?_, h.ahead, h.created, h.idle,
    fun x hx hdx => h.armed x (hold x hx hdx) hdx, h.forgotten, fun hk hp v hv => ?_,
    fun hk hp x hx hdx => h.timely hk hp x (hold x hx hdx) hdx⟩
  · rcases mem_alloctcb ha with rfl | ha
    · rcases mem_alloctcb hb with rfl | hb
      · rfl
      · exact absurd hab.symm (hfresh b hb)
    · rcases mem_alloctcb hb with hb | hb
      · rw [hb] at hab
        exact absurd hab (hfresh a ha)
      · exact h.tab.unique a ha b hb ha0 hab
  · obtain ⟨own, hown, hdo, he⟩ := h.owned hk hp v hv
    exact ⟨own, mem_alloctcb_of_mem hown (DelayTcb.pid_ne_zero hdo), hdo, he⟩

/-- The handler, if every restart worked: either nobody is delayed any more and the timer
is off, or it is set for the first of them. -/
theorem guarded_handler (h : Guarded keeps lag s) (hp : s.pending = true) (ok : Nat → Bool)
    (hok : (restartLoop s.now ok none s.tcbtab).ok = true) :
    Guarded keeps lag (timerSighandler keeps { s with pending := false } ok) := by
  have hdone := restartLoop_done s.now ok s.tcbtab none hok
  have htab : TabOk s.now (s.tcbtab.map (·.served s.now)) := by
    refine h.tab.mono (List.forall_mem_map.mpr fun x hx hd => ?_)
      (List.forall_mem_map.mpr fun a ha => List.forall_mem_map.mpr fun b hb ha0 hab => ?_)
    · rw [(DelayTcb.delayed_served hd).1]
      exact hx
    · rw [DelayTcb.pid_served] at ha0 hab
      rw [DelayTcb.pid_served] at hab
      rw [h.tab.unique a ha b hb ha0 hab]
  have hcreated := h.created (.inr hp)
  unfold timerSighandler
  dsimp only
  rw [hok, hdone.tcbtab]
  cases hnext : (restartLoop s.now ok none s.tcbtab).next with
  | none =>
    have hnone : ∀ tcp ∈ s.tcbtab.map (·.served s.now), tcp.delayed ≠ true := by
      refine List.forall_mem_map.mpr fun tcp ht hd => ?_
      obtain ⟨v, hv, -⟩ := hdone.least tcp ht hd
      rw [hnext] at hv
      exact absurd hv (by simp)
    -- the timer belongs to nobody, so it is not set
    have htimer : s.timer = none := by
      cases hk : keeps with
      | false => exact h.forgotten hk hp
      | true =>
        by_contra hsome
        obtain ⟨v, hv⟩ := Option.ne_none_iff_exists'.mp hsome
        obtain ⟨own, hown, hd, rfl⟩ := h.owned hk hp v hv
        have hlater : ¬own.Due s.now := fun hdue => absurd hdue.2 (h.ahead _ hv).1.not_gt
        refine hnone own (List.mem_map.mpr ⟨own, hown, if_neg hlater⟩) hd
    exact ⟨htab, fun v hv => absurd (htimer.symm.trans hv) (by simp), fun _ => hcreated,
      fun _ => htimer, fun tcp ht hd => absurd hd (hnone tcp ht), fun _ _ => htimer,
      fun _ hp => absurd hp (by simp), fun _ _ tcp ht hd => absurd hd (hnone tcp ht)⟩
  | some v =>
    dsimp only
    obtain hv | ⟨own, hown, hd, he⟩ := hdone.first v hnext
    · exact absurd hv (by simp)
    refine guarded_arm htab hcreated ⟨own.served s.now, List.mem_map_of_mem hown, hd, ?_⟩
      fun _ _ => List.forall_mem_map.mpr fun tcp ht hdt => ?_
    · rw [(DelayTcb.delayed_served hd).1]
      exact he
    · obtain ⟨w, hw, hle⟩ := hdone.least tcp ht hdt
      rw [hnext] at hw
      cases hw
      rw [(DelayTcb.delayed_served hdt).1]
      have hnanos := Timespec.le_iff.mp hle
      omega

/-- A delayed tracee goes while a signal of the timer is pending, on a kernel that keeps the
signal when the timer is set anew. The handler may then leave the timer set without
knowing it. -/
def Orphans (keeps : Bool) (s : Delays) (input : DelayInput) : Prop :=
  keeps = true ∧ s.pending = true ∧ ∃ tcp ∈ s.tcbtab, tcp.delayed = true ∧ input = .exit tcp.pid

theorem not_orphans {input : DelayInput} (h : ∀ pid, input ≠ .exit pid) :
    ¬Orphans keeps s input := by
  rintro ⟨-, -, tcp, -, -, rfl⟩
  exact h tcp.pid rfl

/-- One input keeps the invariant, unless a restart fails. -/
theorem guarded_step {input : DelayInput} (h : Guarded keeps lag s) (hok : ¬Orphans keeps s input)
    (hlag : Prompt lag s input)
    (hend : (stepDelays keeps s input).ended = false) :
    Guarded keeps lag (stepDelays keeps s input) := by
  have hstep := delayStep keeps s input
  generalize stepDelays keeps s input = s' at hend hstep
  cases hstep with
  | idle => exact h
  | tick later => exact guarded_tick h later
  | attach pid h0 hnew =>
    refine guarded_attach h (DelayTcb.delayed_new pid) fun x hx hp => ?_
    rw [Delays.pid2tcb, if_neg h0, List.find?_eq_none] at hnew
    exact hnew x hx (decide_eq_true hp)
  | exit pid h0 =>
    exact guarded_exit h fun hk hp tcp ht hd heq => hok ⟨hk, hp, tcp, ht, hd, by rw [heq]⟩
  | stop pid delay ok => exact guarded_stop h pid delay ok hlag
  | window _ w => exact h.control w s.ended
  | deliver ok hp =>
    rw [ended_timerSighandler, Bool.not_eq_false'] at hend
    exact guarded_handler h hp ok hend

/-- Every run, as long as strace is in its main loop. -/
theorem guarded_run {now : Timespec} {ins : List DelayInput}
    (hok : Steps (stepDelays keeps) (fun s i => ¬Orphans keeps s i ∧ Prompt lag s i)
      (.init now) ins)
    (hend : (run (stepDelays keeps) (.init now) ins).ended = false) :
    Guarded keeps lag (run (stepDelays keeps) (.init now) ins) := by
  refine run_inv (fun s => s.ended = false → Guarded keeps lag s) (fun s i h hok hend => ?_)
    (fun _ => guarded_init keeps lag now) hok hend
  refine guarded_step (h ?_) hok.1 hok.2 hend
  cases hs : s.ended with
  | false => rfl
  | true =>
    rw [ended_step hs, hs] at hend
    exact absurd hend (by decide)

end Steps

/-! ## No wake-up is lost -/

/-- The tracee runs. -/
structure Resumed (s : Delays) (pid : Nat) : Prop where
  there : ∃ tcp ∈ s.tcbtab, tcp.pid = pid
  running : ∀ tcp ∈ s.tcbtab, tcp.pid = pid → tcp.delayed = false ∧ tcp.running = true

section Liveness

variable {keeps : Bool} {lag : Nat} {s : Delays}

/-- When the clock has passed the time of a delayed tracee, the signal is pending: as soon
as the lag is over where the kernel keeps it, after a second everywhere. -/
theorem pending_tick (h : Guarded keeps lag s) {pid : Nat} {t later : Timespec} (hw : Waits s pid t)
    (hlate : keeps = true ∧ t.nanos + lag ≤ later.nanos ∨
      s.now.nanos + 1000000000 ≤ later.nanos) :
    (s.tick later).pending = true ∧ (s.tick later).delayTimerIsArmed = true := by
  obtain ⟨tcp, hmem, hpid⟩ := hw.there
  obtain ⟨hd, -, rfl⟩ := hw.waits tcp hmem hpid
  obtain ⟨harmed, hguard⟩ := h.armed tcp hmem hd
  unfold Delays.tick
  cases htimer : s.timer with
  | none =>
    obtain hp | ⟨v, hv⟩ := hguard
    · exact ⟨hp, harmed⟩
    · exact absurd (htimer.symm.trans hv) (by simp)
  | some v =>
    dsimp only
    split
    · exact ⟨rfl, harmed⟩
    · next hahead =>
      have hlater := (lt_of_le_of_lt (le_max_right s.now later) (not_le.mp hahead))
      refine ⟨?_, harmed⟩
      by_contra hp
      rw [Bool.not_eq_true] at hp
      rw [Timespec.lt_iff] at hlater
      -- the timer would be set for a time after `later`, which is too late for the tracee
      rcases hlate with ⟨hk, hlag⟩ | hsec
      · have hv := h.timely hk hp tcp hmem hd v htimer
        omega
      · have hv := (h.ahead v htimer).2
        omega

/-- The handler restarts a tracee whose time has passed. -/
theorem resumed_handler {pid : Nat} {t : Timespec} (hw : Waits s pid t) (ht : t < s.now) :
    Resumed (timerSighandler keeps s fun _ => true) pid := by
  have hdone := restartLoop_done s.now _ s.tcbtab none (restartLoop_ok s.now s.tcbtab none)
  have hserved : ∀ tcp ∈ s.tcbtab, tcp.pid = pid → tcp.served s.now = tcp.restart true := by
    intro tcp hmem hpid
    obtain ⟨hd, -, rfl⟩ := hw.waits tcp hmem hpid
    exact if_pos ⟨hd, ht⟩
  obtain ⟨tcp, hmem, hpid⟩ := hw.there
  refine ⟨⟨tcp.served s.now, ?_, ?_⟩, fun x hx hxp => ?_⟩
  · rw [tcbtab_timerSighandler, hdone.tcbtab]
    exact List.mem_map_of_mem hmem
  · rw [DelayTcb.pid_served, hpid]
  · rw [tcbtab_timerSighandler, hdone.tcbtab] at hx
    obtain ⟨y, hy, rfl⟩ := List.mem_map.mp hx
    rw [DelayTcb.pid_served] at hxp
    rw [hserved y hy hxp]
    exact ⟨DelayTcb.delayed_restart true y, rfl⟩

/-- Once the signal is pending and strace knows of the timer, a wait delivers it. -/
theorem wait_delivers (hend : s.ended = false) (hclosed : s.window = .closed)
    (hp : s.pending = true) (harmed : s.delayTimerIsArmed = true) (ok : Nat → Bool) :
    run (stepDelays keeps) s [.openWindow, .deliver ok] =
      timerSighandler keeps { s with window := .unblocked, pending := false } ok := by
  have hopen : stepDelays keeps s .openWindow = { s with window := .unblocked } := by
    unfold stepDelays
    rw [hend, hclosed, harmed]
    rfl
  rw [run_cons, run_cons, run_nil, hopen]
  unfold stepDelays
  rw [hend]
  dsimp only
  rw [if_neg (by decide), if_pos hp]

end Liveness

/-- **No wake-up is lost.** After any run, with stops, exits, ticks and waits in any order:
a tracee that is delayed is restarted in the next wait after its time. On a kernel that
keeps a pending signal when the timer is set anew, this is once its time has passed and,
after it, the longest time that ever lay between the two readings of the clock in
`delay_tcb`; on one that forgets the signal, at the latest a second from now. -/
theorem delayed_restarted (keeps : Bool) (lag : Nat) (now : Timespec) (ins : List DelayInput)
    (hok : Steps (stepDelays keeps) (fun s i => ¬Orphans keeps s i ∧ Prompt lag s i)
      (.init now) ins)
    {s : Delays} (hs : s = run (stepDelays keeps) (.init now) ins) (hend : s.ended = false)
    (hclosed : s.window = .closed) {pid : Nat} {t later : Timespec} (hw : Waits s pid t)
    (ht : t < later) (hlate : keeps = true ∧ t.nanos + lag ≤ later.nanos ∨
      s.now.nanos + 1000000000 ≤ later.nanos) :
    Resumed (run (stepDelays keeps) s [.tick later, .openWindow, .deliver fun _ => true]) pid := by
  have h : Guarded keeps lag s := hs ▸ guarded_run hok (hs ▸ hend)
  obtain ⟨hp, harmed⟩ := pending_tick h hw hlate
  obtain ⟨hnow, htab, hwindow, hended⟩ := tick_frame s later
  have htick : stepDelays keeps s (.tick later) = s.tick later := by
    unfold stepDelays
    rw [if_neg (by rw [hend]; decide)]
  rw [run_cons, htick,
    wait_delivers (hended.trans hend) (hwindow.trans hclosed) hp harmed]
  refine resumed_handler (t := t) (hw.of_tab htab) ?_
  show t < (s.tick later).now
  rw [hnow]
  exact lt_max_of_lt_right ht

/-- Two threads. The first is delayed for five milliseconds; one millisecond later the second
is for four, and finds the timer of the first: between its two readings of the clock what is
left of it has become less than the four, though the first ends two nanoseconds after the
second. -/
def delayedThreads : List DelayInput :=
  [.attach 7, .attach 8, .tick (.ofNanos 3), .stop 7 (some fiveMs) true,
    .tick (.ofNanos 1000001),
    .stop 8 (some ⟨⟨4, by decide⟩, .ofNanos 1000005, .ofNanos 1000005⟩) true]

theorem delayed_restarted_threads :
    Resumed (run (stepDelays true) (run (stepDelays true) (.init (.ofNanos 0)) delayedThreads)
      [.tick (.ofNanos 5000005), .openWindow, .deliver fun _ => true]) 8 :=
  delayed_restarted true 4 (.ofNanos 0) delayedThreads
    ⟨⟨not_orphans (by simp), trivial⟩, ⟨not_orphans (by simp), trivial⟩,
      ⟨not_orphans (by simp), trivial⟩,
      ⟨not_orphans (by simp), show fiveMs.getAt.nanos ≤ (Timespec.ofNanos 3).nanos + 4 by decide⟩,
      ⟨not_orphans (by simp), trivial⟩,
      ⟨not_orphans (by simp),
        show (Timespec.ofNanos 1000005).nanos ≤ (Timespec.ofNanos 1000001).nanos + 4 by decide⟩,
      trivial⟩
    rfl (by decide) (by decide) (t := .ofNanos 5000001)
    ⟨by decide, by decide, by decide⟩ (by decide) (.inl ⟨rfl, by decide⟩)

end DistFuzz.Injector
