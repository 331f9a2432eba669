import DistFuzz.Bpf.Injector
import DistFuzz.Lib.Runs

/-!
# The descriptors the BPF injector targets

The threads of the traced process share one descriptor table. A call that makes a
descriptor is three steps here, between which other threads run: the probe at its
entry (`open` only), the kernel's work, which picks an unused number, and the probe
at its return. `close` has no probe.

- `Descriptor`, `Targetable`: what a descriptor refers to, and whether faults are
  meant for it.
- `System`, `Event`, `step`: the table, what each thread is in, and the probes;
  `StepTo`: all that a step can do.
- `TargetsLive`: whatever transfer comes next, fault bits are taken only on a socket
  or on a file that is not excluded.
- `targets_live_iff`: so it stays exactly as long as no noted descriptor is closed
  and no return notes the slot of anything else.
- `runs_alone`: it stays so for a process of one thread with short paths and small
  descriptors whose sockets do not fail and that closes nothing noted.
-/

namespace DistFuzz.Bpf

open DistFuzz.Lib

/-- What a descriptor refers to. -/
inductive Descriptor where
  | socket
  | file (path : List UInt8)
  /-- A pipe, a terminal and so on, inherited from the injector. -/
  | other

/-- An open descriptor of a socket or of a file that is not excluded. -/
def Targetable : Option Descriptor → Prop
  | none => False
  | some .socket => True
  | some (.file path) => PathOk path
  | some .other => False

instance : DecidablePred Targetable
  | none => inferInstanceAs (Decidable False)
  | some .socket => inferInstanceAs (Decidable True)
  | some (.file path) => inferInstanceAs (Decidable (PathOk path))
  | some .other => inferInstanceAs (Decidable False)

/-- A path as the kernel reads it, up to its NUL. -/
abbrev Path := { l : List UInt8 // 0 ∉ l }

/-- `bpf_probe_read` of 256 bytes at the path: zeros if they cannot all be read. -/
def probeRead (path : Path) (rest : List UInt8) (readable : Bool) : Memory :=
  if readable then cString path.val rest else fun _ => 0

/-- What a thread is in. -/
inductive Phase where
  | running
  /-- Inside an `open`, its entry probe run. -/
  | opening (path : Path)
  /-- The kernel's part of an `open` is done, the return probe still to run. -/
  | opened (ret : Int64)
  /-- The same for `socket`. -/
  | socketed (ret : Int64)

/-- A thread of the traced process, which is `tgid` to the kernel. -/
abbrev Thread (cfg : Config) (tgid : UInt32) :=
  { task : Task // task.tgid = tgid ∧ isCurrentPidOrTgid cfg.pid task = true }

/-- One step of a thread. -/
inductive Event (cfg : Config) (tgid : UInt32) where
  /-- `open`, `openat` or `openat2` is entered; `rest` and `readable` say what lies
  behind the path in memory. -/
  | enterOpen (t : Thread cfg tgid) (path : Path) (rest : List UInt8) (readable : Bool)
  | doOpen (t : Thread cfg tgid) (ret : Int64)
  | exitOpen (t : Thread cfg tgid)
  | doSocket (t : Thread cfg tgid) (ret : Int64)
  | exitSocket (t : Thread cfg tgid)
  | close (t : Thread cfg tgid) (fd : UInt32)
  | transfer (t : Thread cfg tgid) (call : TransferCall) (length : Int32) (fd : UInt32)

/-- The thread that makes the step. -/
def Event.thread {cfg : Config} {tgid : UInt32} : Event cfg tgid → Thread cfg tgid
  | .enterOpen t _ _ _ | .doOpen t _ | .exitOpen t | .doSocket t _ | .exitSocket t
  | .close t _ | .transfer t _ _ _ => t

/-- The traced process and the injector. -/
structure System (cfg : Config) (tgid : UInt32) where
  bss : Bss
  /-- The descriptor table. -/
  table : Nat → Option Descriptor
  phase : Thread cfg tgid → Phase

variable {cfg : Config} {tgid : UInt32}

/-- The kernel may return `ret`: an error, or an unused descriptor. -/
def MayReturn (table : Nat → Option Descriptor) (ret : Int64) : Prop :=
  ret < 0 ∨ (table ret.toUInt64.toNat).isNone = true

instance (table : Nat → Option Descriptor) (ret : Int64) : Decidable (MayReturn table ret) :=
  inferInstanceAs (Decidable (_ ∨ _))

/-- The table once a call has returned `ret` for `d`. -/
def install (table : Nat → Option Descriptor) (ret : Int64) (d : Descriptor) :
    Nat → Option Descriptor :=
  if ret < 0 then table else Function.update table ret.toUInt64.toNat (some d)

/-- One step. An event its thread is in no position to make changes nothing. -/
def step (s : System cfg tgid) : Event cfg tgid → System cfg tgid
  | .enterOpen t path rest readable =>
    match s.phase t with
    | .running =>
      { s with
        bss := sysOpen cfg s.bss t.val (probeRead path rest readable)
        phase := Function.update s.phase t (.opening path) }
    | _ => s
  | .doOpen t ret =>
    match s.phase t with
    | .opening path =>
      if MayReturn s.table ret then
        { s with
          table := install s.table ret (.file path.val)
          phase := Function.update s.phase t (.opened ret) }
      else s
    | _ => s
  | .exitOpen t =>
    match s.phase t with
    | .opened ret =>
      { s with
        bss := sysOpenExit cfg s.bss t.val ret
        phase := Function.update s.phase t .running }
    | _ => s
  | .doSocket t ret =>
    match s.phase t with
    | .running =>
      if MayReturn s.table ret then
        { s with
          table := install s.table ret .socket
          phase := Function.update s.phase t (.socketed ret) }
      else s
    | _ => s
  | .exitSocket t =>
    match s.phase t with
    | .socketed ret =>
      { s with
        bss := sysSocketExit cfg s.bss t.val ret
        phase := Function.update s.phase t .running }
    | _ => s
  | .close t fd =>
    match s.phase t with
    | .running => { s with table := Function.update s.table fd.toNat none }
    | _ => s
  | .transfer t call length fd =>
    match s.phase t with
    | .running => { s with bss := (sysTransfer cfg s.bss t.val call length fd).2 }
    | _ => s

/-- The injector has just been loaded; the table and the threads may be in any
state. -/
def start (table : Nat → Option Descriptor) (phase : Thread cfg tgid → Phase) :
    System cfg tgid where
  bss := .init
  table := table
  phase := phase

/-! ### What a step can do -/

/-- The steps with their effect. The probes run for every thread of the process, so
only what they do is left. -/
inductive StepTo (s : System cfg tgid) : Event cfg tgid → System cfg tgid → Prop where
  | stays (e : Event cfg tgid) : StepTo s e s
  | enterOpen {t : Thread cfg tgid} (path : Path) (rest : List UInt8) (readable : Bool)
      (hphase : s.phase t = .running) :
      StepTo s (.enterOpen t path rest readable)
        { s with
          bss := filterByFilename s.bss tgid (probeRead path rest readable)
          phase := Function.update s.phase t (.opening path) }
  | doOpen {t : Thread cfg tgid} {path : Path} {ret : Int64} (hphase : s.phase t = .opening path)
      (hret : MayReturn s.table ret) :
      StepTo s (.doOpen t ret)
        { s with
          table := install s.table ret (.file path.val)
          phase := Function.update s.phase t (.opened ret) }
  | exitOpen {t : Thread cfg tgid} {ret : Int64} (hphase : s.phase t = .opened ret) :
      StepTo s (.exitOpen t)
        { s with
          bss := recordFd s.bss tgid ret
          phase := Function.update s.phase t .running }
  | doSocket {t : Thread cfg tgid} {ret : Int64} (hphase : s.phase t = .running)
      (hret : MayReturn s.table ret) :
      StepTo s (.doSocket t ret)
        { s with
          table := install s.table ret .socket
          phase := Function.update s.phase t (.socketed ret) }
  | exitSocket {t : Thread cfg tgid} {ret : Int64} (hphase : s.phase t = .socketed ret) :
      StepTo s (.exitSocket t)
        { s with
          bss := { s.bss with recordFds := Function.update s.bss.recordFds (fdSlot ret) 1 }
          phase := Function.update s.phase t .running }
  | close {t : Thread cfg tgid} (fd : UInt32) (hphase : s.phase t = .running) :
      StepTo s (.close t fd) { s with table := Function.update s.table fd.toNat none }
  | transfer {t : Thread cfg tgid} (call : TransferCall) (length : Int32) (fd : UInt32)
      (hphase : s.phase t = .running) :
      StepTo s (.transfer t call length fd)
        { s with bss := (handleEvents cfg s.bss call.isSend length fd).2 }

theorem sysTransfer_eq (b : Bss) (t : Thread cfg tgid) (call : TransferCall) (length : Int32)
    (fd : UInt32) :
    sysTransfer cfg b t.val call length fd = handleEvents cfg b call.isSend length fd := by
  rw [sysTransfer, if_pos t.property.2]

theorem stepTo_step (s : System cfg tgid) (e : Event cfg tgid) : StepTo s e (step s e) := by
  -- one case for each event: it happens in its phase, and in any other phase nothing does
  cases e with
  | enterOpen t path rest readable =>
    rw [step]
    split
    · next hphase =>
      rw [sysOpen, if_pos t.property.2, t.property.1]
      exact .enterOpen path rest readable hphase
    · exact .stays _
  | doOpen t ret =>
    rw [step]
    split
    · next hphase =>
      split_ifs with hret
      · exact .doOpen hphase hret
      · exact .stays _
    · exact .stays _
  | exitOpen t =>
    rw [step]
    split
    · next hphase =>
      rw [sysOpenExit, if_pos t.property.2, t.property.1]
      exact .exitOpen hphase
    · exact .stays _
  | doSocket t ret =>
    rw [step]
    split
    · next hphase =>
      split_ifs with hret
      · exact .doSocket hphase hret
      · exact .stays _
    · exact .stays _
  | exitSocket t =>
    rw [step]
    split
    · next hphase =>
      rw [sysSocketExit, if_pos t.property.2]
      exact .exitSocket hphase
    · exact .stays _
  | close t fd =>
    rw [step]
    split
    · next hphase => exact .close fd hphase
    · exact .stays _
  | transfer t call length fd =>
    rw [step]
    split
    · next hphase =>
      rw [sysTransfer_eq]
      exact .transfer call length fd hphase
    · exact .stays _

/-! ### What is noted is targetable -/

/-- Whatever transfer comes next, it takes fault bits, or is tampered with, only if
its descriptor now is a socket or a file that is not excluded. -/
def TargetsLive (s : System cfg tgid) : Prop :=
  ∀ (t : Thread cfg tgid) (call : TransferCall) (length : Int32) (fd : UInt32),
    ((sysTransfer cfg s.bss t.val call length fd).2.fuzzBitIndex ≠ s.bss.fuzzBitIndex
        ∨ (sysTransfer cfg s.bss t.val call length fd).1 ≠ .none)
      → Targetable (s.table fd.toNat)

/-- Every noted descriptor is targetable: it is open, and it is of the kind that the injector is
meant to hit. -/
def NotedLive (s : System cfg tgid) : Prop :=
  ∀ i, s.bss.recordFds i ≠ 0 → Targetable (s.table i.val)

/-- The step leaves every note right: it closes no noted descriptor, and a return
that notes a slot does so for the number of a descriptor to target. -/
def KeepsNotes (s : System cfg tgid) : Event cfg tgid → Prop
  | .close t fd => s.phase t = .running → recorded s.bss fd = false
  | .exitOpen t => ∀ ret, s.phase t = .opened ret →
      s.bss.shouldRecord (recordSlot tgid) ≠ 0 → 0 < ret → Targetable (s.table (fdSlot ret).val)
  | .exitSocket t => ∀ ret, s.phase t = .socketed ret → Targetable (s.table (fdSlot ret).val)
  | _ => True

theorem recorded_iff {b : Bss} {fd : UInt32} :
    recorded b fd = true ↔ ∃ h : fd.toNat < fdSize, b.recordFds ⟨fd.toNat, h⟩ ≠ 0 := by
  unfold recorded
  split_ifs with h
  · simp [h]
  · simp [h]

/-- Transfers probe the table of notes and nothing else. -/
theorem targetsLive_of_notedLive {s : System cfg tgid} (h : NotedLive s) : TargetsLive s := by
  intro t call length fd htakes
  rw [sysTransfer_eq, handleEvents_takes_iff, recorded_iff] at htakes
  obtain ⟨hfd, hnoted⟩ := htakes
  exact h ⟨fd.toNat, hfd⟩ hnoted

theorem notedLive_of_targetsLive {s : System cfg tgid} (t : Thread cfg tgid)
    (h : TargetsLive s) : NotedLive s := by
  intro i hi
  have hlt : i.val < 2 ^ 32 := lt_trans i.isLt (by decide)
  have hto : (UInt32.ofNat i.val).toNat = i.val := by
    rw [UInt32.toNat_ofNat', Nat.mod_eq_of_lt hlt]
  have htarget := h t .read 0 (UInt32.ofNat i.val)
  rw [sysTransfer_eq, handleEvents_takes_iff, recorded_iff, hto] at htarget
  exact htarget ⟨i.isLt, hi⟩

theorem notedLive_start (table : Nat → Option Descriptor) (phase : Thread cfg tgid → Phase) :
    NotedLive (start table phase) := by
  intro i hi
  exact absurd rfl hi

/-! ### One step -/

/-- An unused number is no noted one, so the kernel's work keeps the notes right. -/
theorem notedLive_install {b : Bss} {table : Nat → Option Descriptor} {ret : Int64}
    {d : Descriptor} (h : ∀ i, b.recordFds i ≠ 0 → Targetable (table i.val))
    (hret : MayReturn table ret) :
    ∀ i, b.recordFds i ≠ 0 → Targetable (install table ret d i.val) := by
  intro i hi
  unfold install
  split_ifs with hneg
  · exact h i hi
  · have hfree : table ret.toUInt64.toNat = none :=
      Option.isNone_iff_eq_none.mp (hret.resolve_left hneg)
    rw [Function.update_of_ne]
    · exact h i hi
    · intro heq
      have hi' := h i hi
      rw [heq, hfree] at hi'
      exact hi'

/-- Noting a targetable slot keeps the notes right. -/
theorem notedLive_note {recordFds : Fin fdSize → UInt64} {table : Nat → Option Descriptor}
    (h : ∀ i, recordFds i ≠ 0 → Targetable (table i.val)) {j : Fin fdSize}
    (hj : Targetable (table j.val)) :
    ∀ i, Function.update recordFds j 1 i ≠ 0 → Targetable (table i.val) := by
  intro i hi
  by_cases hij : i = j
  · rw [hij]
    exact hj
  · rw [Function.update_of_ne hij] at hi
    exact h i hi

theorem notedLive_step {s : System cfg tgid} {e : Event cfg tgid} (h : NotedLive s)
    (he : KeepsNotes s e) : NotedLive (step s e) := by
  have hto := stepTo_step s e
  generalize step s e = s' at hto
  cases hto with
  | stays => exact h
  | enterOpen path rest readable hphase =>
    intro i hi
    dsimp only at hi
    rw [filterByFilename_recordFds] at hi
    exact h i hi
  | doOpen hphase hret => exact notedLive_install h hret
  | exitOpen hphase =>
    intro i hi
    dsimp only at hi
    rw [recordFd_recordFds] at hi
    split_ifs at hi with hnote
    · exact notedLive_note h (he _ hphase hnote.1 hnote.2) i hi
    · exact h i hi
  | doSocket hphase hret => exact notedLive_install h hret
  | exitSocket hphase => exact notedLive_note h (he _ hphase)
  | close fd hphase =>
    intro i hi
    -- the closed number is not noted, so it is not `i`
    have hne : i.val ≠ fd.toNat := by
      intro heq
      have hrec : recorded s.bss fd = true :=
        recorded_iff.mpr ⟨heq ▸ i.isLt, by simpa only [← heq] using hi⟩
      rw [he hphase] at hrec
      exact Bool.false_ne_true hrec
    dsimp only
    rw [Function.update_of_ne hne]
    exact h i hi
  | transfer call length fd hphase =>
    intro i hi
    dsimp only at hi
    rw [(handleEvents_keeps ..).1] at hi
    exact h i hi

/-- A step that does not leave the notes right leaves one that is wrong. -/
theorem not_notedLive_step {s : System cfg tgid} {e : Event cfg tgid}
    (he : ¬KeepsNotes s e) : ¬NotedLive (step s e) := by
  intro hlive
  apply he
  cases e with
  | close t fd =>
    intro hphase
    by_contra hrec
    -- the note is still there, but the descriptor is not
    obtain ⟨hfd, hnoted⟩ := recorded_iff.mp (Bool.eq_true_of_not_eq_false hrec)
    rw [step, hphase] at hlive
    have hclosed := hlive ⟨fd.toNat, hfd⟩ hnoted
    dsimp only at hclosed
    rw [Function.update_self] at hclosed
    exact hclosed
  | exitOpen t =>
    intro ret hphase hflag hret
    rw [step, hphase] at hlive
    -- the step notes the descriptor, so it must be live after it
    refine hlive (fdSlot ret) ?_
    dsimp only
    rw [sysOpenExit, if_pos t.property.2, recordFd_recordFds, t.property.1,
      if_pos ⟨hflag, hret⟩, Function.update_self]
    decide
  | exitSocket t =>
    intro ret hphase
    rw [step, hphase] at hlive
    refine hlive (fdSlot ret) ?_
    dsimp only
    rw [sysSocketExit, if_pos t.property.2]
    exact (Function.update_self ..).trans_ne (by decide)
  | _ => trivial

/-- For every interleaving of the threads of the traced process: faults stay aimed
at sockets and files that are not excluded exactly as long as no noted descriptor is
closed and no return of `open` or `socket` notes the slot of anything else. -/
theorem targets_live_iff (table : Nat → Option Descriptor) (phase : Thread cfg tgid → Phase)
    (events : List (Event cfg tgid)) :
    Always step TargetsLive (start table phase) events
      ↔ Steps step KeepsNotes (start table phase) events := by
  refine always_iff_steps NotedLive (fun s => targetsLive_of_notedLive) ?_ ?_
    (notedLive_start table phase)
  · intro s e hs he
    exact notedLive_step hs he
  · intro s e _ he hlive
    exact not_notedLive_step he (notedLive_of_targetsLive e.thread hlive)

/-- A configuration whose first two fault bits ask for a fault. -/
def faultyConfig : Config where
  pid := 1000
  fuzzBytes := fun _ => 3
  nodeId := 1

/-- The one thread of process 1000. -/
def mainThread : Thread faultyConfig 1000 := ⟨⟨none, 1000, 1000⟩, rfl, rfl⟩

/-- A socket gets descriptor 3 and is closed; then `/proc/self/stat` is opened and
gets the number again. -/
def reusedDescriptor : List (Event faultyConfig 1000) :=
  [.doSocket mainThread 3, .exitSocket mainThread, .close mainThread 3,
    .enterOpen mainThread ⟨bytes "/proc/self/stat", by decide⟩ [] true,
    .doOpen mainThread 3, .exitOpen mainThread]

/-- The note outlives the socket: the next read of the excluded file is failed. -/
theorem reusedDescriptor_faulted :
    (sysTransfer faultyConfig
        (run step (start (fun _ => none) fun _ => .running) reusedDescriptor).bss mainThread.val
        .read 16 3).1 = .fault
      ∧ ¬Targetable ((run step (start (fun _ => none) fun _ => .running) reusedDescriptor).table 3)
      ∧ ¬Always step TargetsLive (start (fun _ => none) fun _ => .running) reusedDescriptor := by
  have hfault : (sysTransfer faultyConfig
      (run step (start (fun _ => none) fun _ => .running) reusedDescriptor).bss mainThread.val
      .read 16 3).1 = .fault := by decide
  have htarget : ¬Targetable
      ((run step (start (fun _ => none) fun _ => .running) reusedDescriptor).table 3) := by
    decide
  refine ⟨hfault, htarget, fun h => htarget ?_⟩
  refine always_iff.mp h reusedDescriptor [] (List.append_nil _).symm mainThread .read 16 3 ?_
  rw [hfault]
  exact Or.inr (by decide)

/-! ### A process of one thread -/

/-- The step is `t`'s, its path fits the buffer with the NUL, its descriptor is below
`FD_SIZE`, its `socket` succeeds, and it closes no noted descriptor. -/
def Alone (t : Thread cfg tgid) (s : System cfg tgid) (e : Event cfg tgid) : Prop :=
  e.thread = t ∧
  match e with
  | .enterOpen _ path _ _ => path.val.length < 256
  | .doOpen _ ret => 0 < ret → ret.toUInt64.toNat < fdSize
  | .doSocket _ ret => 0 ≤ ret ∧ ret.toUInt64.toNat < fdSize
  | .close _ fd => recorded s.bss fd = false
  | _ => True

/-- The flag is up only during an `open` of a path that is not excluded, and a
return to come is that of a descriptor to target. -/
def FlagRight (t : Thread cfg tgid) (s : System cfg tgid) : Prop :=
  match s.phase t with
  | .running => s.bss.shouldRecord (recordSlot tgid) = 0
  | .opening path => s.bss.shouldRecord (recordSlot tgid) ≠ 0 → PathOk path.val
  | .opened ret => s.bss.shouldRecord (recordSlot tgid) ≠ 0 → 0 < ret →
      Targetable (s.table (fdSlot ret).val)
  | .socketed ret => s.bss.shouldRecord (recordSlot tgid) = 0
      ∧ Targetable (s.table (fdSlot ret).val)

theorem install_fdSlot {table : Nat → Option Descriptor} {ret : Int64} {d : Descriptor}
    (hret : ¬ret < 0) (hlt : ret.toUInt64.toNat < fdSize) :
    install table ret d (fdSlot ret).val = some d := by
  have hslot : (fdSlot ret).val = ret.toUInt64.toNat := Nat.mod_eq_of_lt hlt
  rw [install, if_neg hret, hslot, Function.update_self]

theorem flagRight_step {t : Thread cfg tgid} {s : System cfg tgid} {e : Event cfg tgid}
    (h : FlagRight t s) (he : Alone t s e) : FlagRight t (step s e) := by
  obtain ⟨rfl, he⟩ := he
  have hto := stepTo_step s e
  generalize step s e = s' at hto
  cases hto with
  | stays => exact h
  | enterOpen path rest readable hphase =>
    simp only [FlagRight, Event.thread, hphase] at h
    simp only [FlagRight, Event.thread, Function.update_self]
    intro hflag
    cases readable with
    | true =>
      rcases filterByFilename_flag path.property he hflag with hup | hok
      · exact absurd h hup
      · exact hok
    | false =>
      -- nothing could be read, and an empty name raises no flag
      rw [filterByFilename_empty rfl] at hflag
      exact absurd h hflag
  | doOpen hphase hret =>
    simp only [FlagRight, Event.thread, hphase] at h
    simp only [FlagRight, Event.thread, Function.update_self]
    intro hflag hpos
    rw [install_fdSlot (Int64.not_lt.mpr (Int64.le_of_lt hpos)) (he hpos)]
    exact h hflag
  | exitOpen hphase =>
    simp only [FlagRight, Event.thread, Function.update_self]
    exact recordFd_flag ..
  | doSocket hphase hret =>
    simp only [FlagRight, Event.thread, hphase] at h
    simp only [FlagRight, Event.thread, Function.update_self]
    rw [install_fdSlot (Int64.not_lt.mpr he.1) he.2]
    exact ⟨h, trivial⟩
  | exitSocket hphase =>
    simp only [FlagRight, Event.thread, hphase] at h
    simp only [FlagRight, Event.thread, Function.update_self]
    exact h.1
  | close fd hphase =>
    simp only [FlagRight, Event.thread, hphase] at h ⊢
    exact h
  | transfer call length fd hphase =>
    simp only [FlagRight, Event.thread, hphase] at h ⊢
    rw [(handleEvents_keeps ..).2]
    exact h

/-- Alone, a thread notes only what it opened itself. -/
theorem keepsNotes_of_alone {t : Thread cfg tgid} {s : System cfg tgid} {e : Event cfg tgid}
    (h : FlagRight t s) (he : Alone t s e) : KeepsNotes s e := by
  obtain ⟨rfl, he⟩ := he
  cases e with
  | exitOpen t =>
    intro ret hphase
    simp only [FlagRight, Event.thread, hphase] at h
    exact h
  | exitSocket t =>
    intro ret hphase
    simp only [FlagRight, Event.thread, hphase] at h
    exact h.2
  | close t fd => exact fun _ => he
  | _ => trivial

/-- In a process of one thread the filter and the notes do their work. -/
theorem runs_alone {t : Thread cfg tgid} {table : Nat → Option Descriptor}
    {phase : Thread cfg tgid → Phase} (hphase : phase t = .running)
    {events : List (Event cfg tgid)} (h : Steps step (Alone t) (start table phase) events) :
    Always step TargetsLive (start table phase) events := by
  refine always_of_inv (fun s => NotedLive s ∧ FlagRight t s) ?_ ?_
    ⟨notedLive_start table phase, ?_⟩ h
  · rintro s e ⟨hnoted, hflag⟩ he
    exact ⟨notedLive_step hnoted (keepsNotes_of_alone hflag he), flagRight_step hflag he⟩
  · rintro s ⟨hnoted, -⟩
    exact targetsLive_of_notedLive hnoted
  · simp only [FlagRight, start, hphase]
    rfl

end DistFuzz.Bpf
