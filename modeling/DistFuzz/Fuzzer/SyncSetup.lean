import DistFuzz.Fuzzer.Campaign
import Mathlib.Data.List.Count

/-!
# Who synchronises (Main.cpp:233–427, 471–490, TestRunning.cpp:891–922)

`main` attaches the shared maps and creates the lock file only for a fuzzer with a
`sync_id`; `FuzzUnit` merges with them every fifth or tenth call of any fuzzer, because
`sync_cov` is `1` and nothing assigns it. What lies between the two is a static counter.

- `getopts`, `applyOption`, `init`: the command line.
- `setUp`, `start`: the pointers and the lock file, with the outcome of the system calls.
- `unitSync`, `stepSync`: the part of `FuzzUnit` before the execution, while other
  processes create and remove the lock file.
- `PartnerOk`: the maps are merged only through attached pointers, and a fuzzer without
  partners does not get there; `partner_iff`: for how many calls that holds.
- `sameTurn_start`, `sameTurn_run`: the campaigns of `DistFuzz.Fuzzer.Campaign` take the
  same turns, and without a role they end at the first.
-/

namespace DistFuzz.Fuzzer

open DistFuzz.Lib

/-! ### The command line -/

/-- An argument of the program. -/
abbrev Word := List Char

/-- What `getopt` returns: a letter, a letter with its `optarg`, or `'?'`. -/
inductive Opt where
  | flag (c : Char)
  | arg (c : Char) (optarg : Word)
  | unknown
deriving DecidableEq

/-- The letters of `"+f:i:o:M:S:p:bl:"`, and whether they take an argument. -/
def takesArg (c : Char) : Option Bool :=
  if c ∈ ['f', 'i', 'o', 'M', 'S', 'p', 'l'] then some true
  else if c = 'b' then some false
  else none

/-- The letters of one word, and the one whose argument is the next word. -/
def letters : Word → List Opt × Option Char
  | [] => ([], none)
  | c :: cs =>
    match takesArg c with
    | none => ([.unknown], none)
    | some true => if cs = [] then ([], some c) else ([.arg c cs], none)
    | some false => (.flag c :: (letters cs).1, (letters cs).2)

/-- The calls of `getopt`: the options, and the words from `optind` on. The first word that
is none ends them. -/
def getopts : Option Char → List Word → List Opt × List Word
  | none, [] => ([], [])
  | some _, [] => ([.unknown], [])
  | some c, w :: ws => (.arg c w :: (getopts none ws).1, (getopts none ws).2)
  | none, w :: ws =>
    match w with
    | ['-', '-'] => ([], ws)
    | '-' :: c :: cs =>
      ((letters (c :: cs)).1 ++ (getopts (letters (c :: cs)).2 ws).1,
        (getopts (letters (c :: cs)).2 ws).2)
    | _ => ([], w :: ws)

/-- The globals `Init` sets. -/
structure Settings where
  testfile : Word
  inputDir : Word
  outputDir : Word
  syncId : Word
  syncState : SyncState
  isBranchCoverage : Bool
  targetPath : Word
deriving DecidableEq

/-- Before `Init`. -/
def Settings.unset : Settings := ⟨[], [], [], [], .alone, false, []⟩

/-- The name with a slash at its end. -/
def withSlash (dir : Word) : Word := if dir.getLast? = some '/' then dir else dir ++ ['/']

/-- The switch of `Init`; none is `exit(-1)`. -/
def applyOption (s : Settings) : Opt → Option Settings
  | .flag _ => some { s with isBranchCoverage := true }
  | .unknown => none
  | .arg c w =>
    if c = 'f' then
      if s.testfile ≠ [] then none else some { s with testfile := w }
    else if c = 'i' then
      if s.inputDir ≠ [] then none else some { s with inputDir := withSlash w }
    else if c = 'o' then
      if s.outputDir ≠ [] then none else some { s with outputDir := withSlash w }
    else if c = 'M' then
      if s.syncId ≠ [] then none else some { s with syncId := w, syncState := .master }
    else if c = 'S' then
      if s.syncId ≠ [] then none else some { s with syncId := w, syncState := .slave }
    -- `-p` and `-l` are read by builds with a password or a license only
    else some s

/-- `fix_up_sync`, as far as the output directory goes. -/
def fixUpSync (s : Settings) : Settings :=
  if s.syncId = [] then s
  else { s with outputDir := withSlash s.outputDir ++ s.syncId ++ ['/'] }

/-- `Init`. -/
def init (argv : List Word) : Option Settings := do
  if argv.length < 8 then none
  let parsed := getopts none argv.tail
  let s ← parsed.1.foldlM applyOption .unset
  let target ← parsed.2.head?
  return fixUpSync { s with targetPath := target }

/-- A fuzzer without a role has no `sync_id`. -/
def NoRole (s : Settings) : Prop := s.syncState = .alone → s.syncId = []

theorem noRole_applyOption {s s' : Settings} (h : NoRole s) {o : Opt}
    (happly : applyOption s o = some s') : NoRole s' := by
  cases o with
  | flag c =>
    cases happly
    exact h
  | unknown => cases happly
  | arg c w =>
    rw [applyOption] at happly
    split_ifs at happly
    -- `-f`, `-i` and `-o` leave both fields, `-M` and `-S` set a role
    all_goals cases happly
    all_goals first
      | exact h
      | exact fun halone => nomatch halone

theorem noRole_foldlM {opts : List Opt} {s s' : Settings} (h : NoRole s)
    (hfold : opts.foldlM applyOption s = some s') : NoRole s' := by
  induction opts generalizing s with
  | nil =>
    cases hfold
    exact h
  | cons o opts ih =>
    rw [List.foldlM_cons] at hfold
    obtain ⟨t, ht, hrest⟩ := Option.bind_eq_some_iff.mp hfold
    exact ih (noRole_applyOption h ht) hrest

theorem noRole_init {argv : List Word} {s : Settings} (h : init argv = some s) : NoRole s := by
  rw [init] at h
  split at h
  · cases h
  · obtain ⟨t, ht, hrest⟩ := Option.bind_eq_some_iff.mp h
    obtain ⟨target, -, heq⟩ := Option.bind_eq_some_iff.mp hrest
    cases heq
    have hrole := noRole_foldlM (fun _ => rfl) ht
    rw [fixUpSync]
    split
    · exact hrole
    · exact hrole

/-! ### The set-up -/

/-- `sync_cov_ptr`: `NULL`, what a failed `shmat` returns, or an attached map. -/
inductive Pointer where
  | null
  | failed
  | attached
deriving DecidableEq

/-- How the system calls for one of the maps end: `shmget` and `shmat` succeed, and the file
a slave reads holds a number. -/
structure SegmentEnv where
  shmget : Bool
  shmat : Bool
  stoi : Bool

/-- The two maps, whether the lock file is there before, and whether it can be created. -/
structure SetupEnv where
  cov : SegmentEnv
  branch : SegmentEnv
  lockFile : Bool
  lockCreates : Bool

/-- The variables of the synchronisation, and the lock file. -/
structure SyncVars where
  syncId : Word
  syncState : SyncState
  syncCovPtr : Pointer
  syncBranchCovPtr : Pointer
  lockFile : Bool
  fuzzTime : Nat
  halted : Bool
deriving DecidableEq

/-- `multi_proc_shm_create`; none if the process ends. `shmat` does not return `NULL` when it
fails, so the check lets its value through to the `memset`. -/
def multiProcShmCreate (e : SegmentEnv) : Option Pointer :=
  if e.shmget && e.shmat then some .attached else none

/-- `multi_proc_shm_get`: `stoi` throws without a number, the value of `shmat` is not
checked. -/
def multiProcShmGet (e : SegmentEnv) : Option Pointer :=
  if e.stoi then some (if e.shmat then .attached else .failed) else none

/-- Main.cpp:471–490. -/
def setUp (s : Settings) (e : SetupEnv) : Option SyncVars :=
  if s.syncId = [] then
    some ⟨s.syncId, s.syncState, .null, .null, e.lockFile, 0, false⟩
  else do
    let attach := if s.syncState = .master then multiProcShmCreate else multiProcShmGet
    let cov ← attach e.cov
    let branch ← attach e.branch
    return ⟨s.syncId, s.syncState, cov, branch, e.lockFile || e.lockCreates, 0, false⟩

/-- `main` up to the dry run. -/
def start (argv : List Word) (e : SetupEnv) : Option SyncVars := do
  setUp (← init argv) e

/-! ### `FuzzUnit` -/

/-- The beginning of a call of `FuzzUnit`: it is not its turn, the lock file cannot be
opened, or `sync_coverage` is called. -/
inductive UnitSync where
  | skipped
  | noLock
  | merges
deriving DecidableEq

def unitSync (v : SyncVars) : UnitSync :=
  if v.halted = true ∨ (v.fuzzTime + 1) % syncCycle v.syncState ≠ 0 then .skipped
  else if v.lockFile then .merges
  else .noLock

/-- Both pointers can be stored through. -/
def SyncVars.Attached (v : SyncVars) : Prop :=
  v.syncCovPtr = .attached ∧ v.syncBranchCovPtr = .attached

instance (v : SyncVars) : Decidable v.Attached :=
  inferInstanceAs (Decidable (_ ∧ _))

/-- What happens: a call of `FuzzUnit`, or the lock file comes or goes. -/
inductive SyncEvent where
  | unit
  | lockFile (present : Bool)
deriving DecidableEq

/-- One event. Without the lock file the process exits, and without a map behind both
pointers it faults. -/
def stepSync (v : SyncVars) : SyncEvent → SyncVars
  | .lockFile present => { v with lockFile := present }
  | .unit =>
    if v.halted then v
    else
      { v with
        fuzzTime := (v.fuzzTime + 1) % syncCycle v.syncState
        halted :=
          match unitSync v with
          | .skipped => false
          | .noLock => true
          | .merges => !decide v.Attached }

/-- What the set-up is for: whoever calls `sync_coverage` has its maps and the lock file,
and a fuzzer of its own does not get there. -/
structure PartnerOk (v : SyncVars) (e : SyncEvent) : Prop where
  attached : e = .unit → unitSync v = .merges → v.Attached ∧ v.lockFile = true
  standAlone : e = .unit → v.syncId = [] → unitSync v = .skipped

/-! ### Runs -/

/-- Whoever creates a map has it attached. -/
theorem attached_of_create {e : SegmentEnv} {p : Pointer} (h : multiProcShmCreate e = some p) :
    p = .attached := by
  rw [multiProcShmCreate] at h
  split at h
  · exact (Option.some.inj h).symm
  · cases h

/-- Whoever looks for one may go on without. -/
theorem attached_of_get {e : SegmentEnv} {p : Pointer} (h : multiProcShmGet e = some p) :
    p = .attached ↔ e.shmat = true := by
  rw [multiProcShmGet] at h
  split at h
  · obtain rfl := Option.some.inj h
    cases e.shmat <;> decide
  · cases h

/-- Which maps are attached is settled in the set-up. -/
theorem setUp_attached_iff {s : Settings} {e : SetupEnv} {v : SyncVars}
    (h : setUp s e = some v) :
    v.Attached ↔ v.syncId ≠ [] ∧
      (v.syncState = .master ∨ e.cov.shmat = true ∧ e.branch.shmat = true) := by
  rw [setUp] at h
  split at h
  · next hid =>
    cases h
    exact ⟨fun hatt => (nomatch hatt.1), fun hsync => absurd hid hsync.1⟩
  · next hid =>
    obtain ⟨cov, hcov, hrest⟩ := Option.bind_eq_some_iff.mp h
    obtain ⟨branch, hbranch, heq⟩ := Option.bind_eq_some_iff.mp hrest
    cases heq
    show cov = .attached ∧ branch = .attached ↔ s.syncId ≠ [] ∧
      (s.syncState = .master ∨ e.cov.shmat = true ∧ e.branch.shmat = true)
    -- a master ends if a map cannot be attached, a slave goes on without it
    by_cases hmaster : s.syncState = .master
    · rw [if_pos hmaster] at hcov hbranch
      exact iff_of_true ⟨attached_of_create hcov, attached_of_create hbranch⟩
        ⟨hid, .inl hmaster⟩
    · rw [if_neg hmaster] at hcov hbranch
      rw [attached_of_get hcov, attached_of_get hbranch]
      exact ⟨fun hshmat => ⟨hid, .inr hshmat⟩, fun hsync => hsync.2.resolve_left hmaster⟩

theorem setUp_fresh {s : Settings} {e : SetupEnv} {v : SyncVars} (h : setUp s e = some v) :
    v.fuzzTime = 0 ∧ v.halted = false ∧ v.syncId = s.syncId ∧ v.syncState = s.syncState ∧
      (s.syncId ≠ [] → v.lockFile = (e.lockFile || e.lockCreates)) := by
  rw [setUp] at h
  split at h
  · next hid =>
    cases h
    exact ⟨rfl, rfl, rfl, rfl, fun hne => absurd hid hne⟩
  · obtain ⟨cov, -, hrest⟩ := Option.bind_eq_some_iff.mp h
    obtain ⟨branch, -, heq⟩ := Option.bind_eq_some_iff.mp hrest
    cases heq
    exact ⟨rfl, rfl, rfl, rfl, fun _ => rfl⟩

/-- What no event changes: the role, the name, and whether both pointers can be stored through.
They are settled before the first call. -/
structure SameSetup (v w : SyncVars) : Prop where
  syncId : w.syncId = v.syncId
  syncState : w.syncState = v.syncState
  attached : w.Attached ↔ v.Attached

theorem sameSetup_step {v w : SyncVars} (h : SameSetup v w) (e : SyncEvent) :
    SameSetup v (stepSync w e) := by
  cases e with
  | lockFile present => exact ⟨h.syncId, h.syncState, h.attached⟩
  | unit =>
    rw [stepSync]
    split
    · exact h
    · exact ⟨h.syncId, h.syncState, h.attached⟩

theorem sameSetup_run (v : SyncVars) (events : List SyncEvent) :
    SameSetup v (run stepSync v events) :=
  run_inv' (SameSetup v) (fun _ e h => sameSetup_step h e) ⟨rfl, rfl, Iff.rfl⟩ events

theorem syncCycle_pos (s : SyncState) : 0 < syncCycle s := by
  cases s <;> decide

/-- Until the first turn the static counter is the number of calls. -/
theorem before_turn {v : SyncVars} (halive : v.halted = false) (htime : v.fuzzTime = 0)
    (events : List SyncEvent) (h : events.count .unit < syncCycle v.syncState) :
    (run stepSync v events).halted = false ∧
      (run stepSync v events).fuzzTime = events.count .unit := by
  -- over the events from the last one on; the lock file does not matter yet
  induction events using List.reverseRecOn with
  | nil => exact ⟨halive, htime⟩
  | append_singleton events e ih =>
    rw [List.count_append] at h ⊢
    obtain ⟨hal, hcount⟩ := ih (by omega)
    have hrole := (sameSetup_run v events).syncState
    rw [run_concat]
    cases e with
    | lockFile present => exact ⟨hal, hcount⟩
    | unit =>
      rw [List.count_singleton_self] at h ⊢
      have hmod : (events.count .unit + 1) % syncCycle v.syncState = events.count .unit + 1 :=
        Nat.mod_eq_of_lt h
      -- one more call is still short of a turn
      have hskip : unitSync (run stepSync v events) = .skipped := by
        rw [unitSync, hcount, hrole, hmod]
        exact if_pos (.inr (Nat.succ_ne_zero _))
      rw [stepSync, if_neg (by rw [hal]; decide), hskip, hcount, hrole, hmod]
      exact ⟨rfl, rfl⟩

/-- And the lock file stays while nobody removes it. -/
theorem lockFile_run (v : SyncVars) (hlock : v.lockFile = true) (k : Nat) :
    (run stepSync v (List.replicate k .unit)).lockFile = true := by
  induction k with
  | zero => exact hlock
  | succ k ih =>
    rw [List.replicate_succ', run_concat, stepSync]
    split
    · exact ih
    · exact ih

/-- At the turn of a fuzzer with the lock file at hand, the maps are merged. -/
theorem merges_at_turn {v : SyncVars} (halive : v.halted = false) (htime : v.fuzzTime = 0) :
    unitSync (run stepSync v
      (.lockFile true :: List.replicate (syncCycle v.syncState - 1) .unit)) = .merges := by
  have hpos := syncCycle_pos v.syncState
  -- the lock file is there, and then all calls but one of a cycle are made
  have hcount : (SyncEvent.lockFile true ::
      List.replicate (syncCycle v.syncState - 1) .unit).count .unit
        = syncCycle v.syncState - 1 := by
    rw [List.count_cons_of_ne (by decide), List.count_replicate_self]
  obtain ⟨hal, hturn⟩ := before_turn halive htime
    (.lockFile true :: List.replicate (syncCycle v.syncState - 1) .unit) (by omega)
  have hrole := (sameSetup_run v
    (.lockFile true :: List.replicate (syncCycle v.syncState - 1) .unit)).syncState
  have hlock := lockFile_run { v with lockFile := true } rfl (syncCycle v.syncState - 1)
  rw [unitSync, hal, hturn, hcount, hrole, Nat.sub_add_cancel hpos, Nat.mod_self]
  rw [if_neg (by simp)]
  exact if_pos hlock

/-- Before the first turn nothing can go wrong. -/
theorem partnerOk_before {v : SyncVars} (halive : v.halted = false) (htime : v.fuzzTime = 0)
    {pre : List SyncEvent} (hpre : pre.count .unit + 1 < syncCycle v.syncState) (e : SyncEvent) :
    PartnerOk (run stepSync v pre) e := by
  have hskip : unitSync (run stepSync v pre) = .skipped := by
    obtain ⟨-, hcount⟩ := before_turn halive htime pre (by omega)
    rw [unitSync, hcount, (sameSetup_run v pre).syncState, Nat.mod_eq_of_lt hpre]
    exact if_pos (.inr (Nat.succ_ne_zero _))
  exact ⟨fun _ hmerges => absurd (hskip.symm.trans hmerges) (by decide), fun _ _ => hskip⟩

/-- Nor with a name and maps. -/
theorem partnerOk_of_attached {v : SyncVars} (hid : v.syncId ≠ []) (hatt : v.Attached)
    (e : SyncEvent) : PartnerOk v e := by
  refine ⟨fun _ hmerges => ⟨hatt, ?_⟩, fun _ hno => absurd hno hid⟩
  rw [unitSync] at hmerges
  split_ifs at hmerges
  assumption

/-- **Partners.** For a fuzzer that was started, up to `n` calls of `FuzzUnit` go well,
whatever happens to the lock file, exactly if they are fewer than it takes to the first
turn, or if there is a `sync_id` and the maps were attached, which a master makes sure of
and a slave does not. -/
theorem partner_iff {argv : List Word} {e : SetupEnv} {v : SyncVars}
    (h : start argv e = some v) (n : Nat) :
    (∀ events : List SyncEvent, events.count .unit ≤ n → Steps stepSync PartnerOk v events)
      ↔ n < syncCycle v.syncState ∨
        v.syncId ≠ [] ∧
          (v.syncState = .master ∨ e.cov.shmat = true ∧ e.branch.shmat = true) := by
  obtain ⟨s, -, hsetUp⟩ := Option.bind_eq_some_iff.mp h
  obtain ⟨htime, halive, -⟩ := setUp_fresh hsetUp
  have hattached := setUp_attached_iff hsetUp
  rw [← hattached]
  constructor
  · intro hall
    by_contra hno
    obtain ⟨hn, hnot⟩ := not_or.mp hno
    have hpos := syncCycle_pos v.syncState
    -- a run with the lock file at hand and one call at the turn, which merges
    have hsteps := hall
      (.lockFile true :: List.replicate (syncCycle v.syncState - 1) .unit ++ [.unit]) (by
        rw [List.count_append, List.count_cons_of_ne (by decide), List.count_replicate_self,
          List.count_singleton_self]
        omega)
    have hok := steps_iff.mp hsteps _ _ [] rfl
    have hatt := (hok.attached rfl (merges_at_turn halive htime)).1
    exact hnot ((sameSetup_run v _).attached.mp hatt)
  · intro hcase events hcount
    refine steps_iff.mpr fun pre ev post heq => ?_
    -- before the first turn nothing is asked of the maps; afterwards they are attached
    rcases hcase with hn | hatt
    · cases ev with
      | lockFile present => exact ⟨fun hev => (nomatch hev), fun hev => (nomatch hev)⟩
      | unit =>
        rw [heq, List.count_append, List.count_cons_self] at hcount
        exact partnerOk_before halive htime (by omega) .unit
    · have hsame := sameSetup_run v pre
      refine partnerOk_of_attached ?_ (hsame.attached.mpr hatt) ev
      rw [hsame.syncId]
      exact (hattached.mp hatt).1

/-- Every system call succeeds, and no lock file is there. -/
def goodEnv : SetupEnv := ⟨⟨true, true, true⟩, ⟨true, true, true⟩, false, true⟩

/-- `fuzzer -i in -o out -f t -M m target`. -/
def masterLine : List Word :=
  ["fuzzer", "-i", "in", "-o", "out", "-f", "t", "-M", "m", "target"].map String.toList

/-- A master merges as often as it likes. -/
theorem partner_master :
    start masterLine goodEnv = some ⟨['m'], .master, .attached, .attached, true, 0, false⟩ ∧
      ∀ events : List SyncEvent, events.count .unit ≤ 1000 →
        Steps stepSync PartnerOk ⟨['m'], .master, .attached, .attached, true, 0, false⟩ events :=
  ⟨rfl, (partner_iff (show start masterLine goodEnv = some _ from rfl) 1000).mpr
    (.inr ⟨by decide, .inl rfl⟩)⟩

/-- `fuzzer -i in -o out -f t target`. -/
def standAloneLine : List Word :=
  ["fuzzer", "-i", "in", "-o", "out", "-f", "t", "target"].map String.toList

/-- Without `-M` and `-S`, the tenth call of `FuzzUnit` looks for a lock file, and if an
earlier fuzzer left one, it merges through `NULL`. -/
theorem standAlone_synchronises :
    start standAloneLine goodEnv = some ⟨[], .alone, .null, .null, false, 0, false⟩ ∧
      ¬Steps stepSync PartnerOk ⟨[], .alone, .null, .null, false, 0, false⟩
        (List.replicate 10 .unit) ∧
      ¬Steps stepSync PartnerOk ⟨[], .alone, .null, .null, true, 0, false⟩
        (List.replicate 10 .unit) := by
  refine ⟨rfl, fun h => ?_, fun h => ?_⟩
  · have hok := steps_iff.mp h (List.replicate 9 .unit) .unit [] (by decide)
    exact absurd (hok.standAlone rfl (by decide)) (by decide)
  · have hok := steps_iff.mp h (List.replicate 9 .unit) .unit [] (by decide)
    exact absurd (hok.attached rfl (by decide)).1 (by decide)

/-! ### The campaign -/

/-- A call of `fuzzUnit`, as far as the turns go: a fuzzer without a role ends at its own. -/
theorem fuzzUnit_turn (cfg : Config) {f : FuzzerState} (halive : f.halted = false)
    (u : UnitInput) :
    (fuzzUnit cfg f u).fuzzTime = (f.fuzzTime + 1) % syncCycle cfg.syncState ∧
      ((fuzzUnit cfg f u).halted = true ↔
        (f.fuzzTime + 1) % syncCycle cfg.syncState = 0 ∧ cfg.syncState = .alone) := by
  have hbefore : (beforeExecution cfg f u).fuzzTime = (f.fuzzTime + 1) % syncCycle cfg.syncState ∧
      ((beforeExecution cfg f u).halted = true ↔
        (f.fuzzTime + 1) % syncCycle cfg.syncState = 0 ∧ cfg.syncState = .alone) := by
    -- a fuzzer without a role has no maps and ends at its turn
    rw [beforeExecution]
    dsimp only
    split
    · next hturn =>
      rw [syncMaps]
      split
      · next halone => exact ⟨rfl, iff_of_true rfl ⟨hturn, halone⟩⟩
      · next hrole => exact ⟨rfl, by simp [halive, hrole]⟩
    · next hturn => exact ⟨rfl, by simp [halive, hturn]⟩
  by_cases hends : (beforeExecution cfg f u).halted = true
  · have hunit : fuzzUnit cfg f u = beforeExecution cfg f u := by
      rw [fuzzUnit, if_neg (by simp [halive])]
      exact if_pos hends
    rw [hunit]
    exact hbefore
  · rw [fuzzUnit_of_executes ⟨halive, by simpa using hends⟩]
    exact hbefore

/-- A fuzzer of the campaign and its variables here. The campaign takes for granted that a
role comes with maps and a lock file. -/
structure SameTurn (cfg : Config) (v : SyncVars) (f : FuzzerState) : Prop where
  role : v.syncState = cfg.syncState
  time : v.fuzzTime = f.fuzzTime
  halted : v.halted = f.halted
  partner : v.Attached ↔ cfg.syncState ≠ .alone
  lock : v.Attached → v.lockFile = true

theorem unitSync_of_alive {v : SyncVars} (halive : v.halted = false) :
    unitSync v = if (v.fuzzTime + 1) % syncCycle v.syncState ≠ 0 then .skipped
      else if v.lockFile then .merges else .noLock := by
  simp [unitSync, halive]

theorem sameTurn_fuzzUnit {cfg : Config} {v : SyncVars} {f : FuzzerState}
    (h : SameTurn cfg v f) (u : UnitInput) :
    SameTurn cfg (stepSync v .unit) (fuzzUnit cfg f u) := by
  cases hf : f.halted with
  | true =>
    have hv : v.halted = true := h.halted.trans hf
    rw [stepSync, if_pos hv, fuzzUnit, if_pos hf]
    exact h
  | false =>
    have hv : v.halted = false := h.halted.trans hf
    obtain ⟨htime, hhalts⟩ := fuzzUnit_turn cfg hf u
    rw [stepSync, if_neg (by rw [hv]; decide)]
    refine ⟨h.role, ?_, ?_, h.partner, h.lock⟩
    · rw [htime, h.role, h.time]
    · dsimp only
      rw [Bool.eq_iff_iff, hhalts, unitSync_of_alive hv, h.role, h.time]
      by_cases hturn : (f.fuzzTime + 1) % syncCycle cfg.syncState = 0
      · rw [if_neg (not_not.mpr hturn)]
        -- at the turn of a fuzzer with a role the lock file is there, so it goes on
        by_cases hatt : v.Attached
        · simp [h.lock hatt, hatt, h.partner.mp hatt]
        · have halone : cfg.syncState = .alone := by
            by_contra hrole
            exact hatt (h.partner.mpr hrole)
          refine iff_of_true ?_ ⟨hturn, halone⟩
          cases v.lockFile <;> simp [hatt]
      · simp [hturn]

/-- **Whole campaigns** take the same turns, and end at the same call. -/
theorem sameTurn_run {cfg : Config} {v : SyncVars} {f : FuzzerState} (h : SameTurn cfg v f)
    (us : List UnitInput) :
    SameTurn cfg (run stepSync v (us.map fun _ => .unit)) (run (fuzzUnit cfg) f us) := by
  induction us generalizing v f with
  | nil => exact h
  | cons u us ih => exact ih (sameTurn_fuzzUnit h u)

/-- The fuzzer after its dry run, and the variables after `main` has set them up for a role
given with a name, or for none. -/
theorem sameTurn_start {argv : List Word} {e : SetupEnv} {s : Settings} {v : SyncVars}
    (hinit : init argv = some s) (hsetUp : setUp s e = some v)
    (hname : s.syncState ≠ .alone → s.syncId ≠ [])
    (hshmat : e.cov.shmat = true ∧ e.branch.shmat = true)
    (hlock : e.lockFile = true ∨ e.lockCreates = true) (cfg : Config)
    (hcfg : cfg.syncState = s.syncState) (cases : List InitialCase) (maps : CovMap × CovMap) :
    SameTurn cfg v (afterDryRun cases maps) := by
  obtain ⟨htime, halive, hid, hrole, hfile⟩ := setUp_fresh hsetUp
  have hpartner : v.Attached ↔ s.syncState ≠ .alone := by
    rw [setUp_attached_iff hsetUp, hid]
    exact ⟨fun h halone => h.1 (noRole_init hinit halone), fun h => ⟨hname h, .inr hshmat⟩⟩
  refine ⟨hrole.trans hcfg.symm, ?_, ?_, hcfg ▸ hpartner, fun hatt => ?_⟩
  · rw [afterDryRun_frame]
    exact htime
  · rw [afterDryRun_frame]
    exact halive
  · rw [hfile (hname (hpartner.mp hatt))]
    exact Bool.or_eq_true_iff.mpr hlock

end DistFuzz.Fuzzer
