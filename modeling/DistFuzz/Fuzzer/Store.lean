import DistFuzz.Lib.CreateOnly
import DistFuzz.Fuzzer.Exchange
import DistFuzz.Fuzzer.Scheduler

/-!
# The queue and its files (TestRunning.cpp:45–62, 503–682, 766–857, FuzzOne.cpp:1276–1297)

The queue of a fuzzer holds names and lengths; the cases are in files. `WriteMem2File`
creates a file for every case that is kept and ends the process if the name exists.
`FuzzMain` opens the file of a seed again, much later, and maps as many bytes of it as the
seed is long. In between the queue is culled, seeds are marked, and other cases are kept,
crash and hang.

The output directory is made anew when the fuzzer starts. The file that the target reads
is not in it. Time stamps at the end of names are left out.

- `FileKey`: what a file is for, with its number; `FileKey.name_injective`: different keys
  have different names.
- `writeFiles`, `readSeed`: the disk.
- `Filed`: the files written so far have keys of their own, below the counters;
  `filed_unit`: a case keeps that, for as long as no counter wraps.
- `kept`: the cases that were kept, in order: the queue without its files.
- `queue_files`: no write fails, and what `FuzzMain` reads from the files of the queue is
  the initial cases and then the kept ones.
-/

namespace DistFuzz.Fuzzer

open DistFuzz.Lib

/-! ## Names -/

/-- The files of the output directory. -/
inductive FileKey where
  | queue (n : UInt32) (cov : Bool)
  | totalCrash (n : UInt32)
  | crash (n total : UInt32)
  | hang (n : UInt32)
deriving DecidableEq, Repr

/-- The directory of a file. -/
def FileKey.dir : FileKey → String
  | .queue _ _ => "queue/"
  | .totalCrash _ => "total_crash/"
  | .crash _ _ => "crash/"
  | .hang _ => "hang/"

/-- The name in that directory. -/
def FileKey.base : FileKey → String
  | .queue n cov => num2strKeep6bit n ++ (if cov then "+cov" else "+tup")
  | .totalCrash n => num2strKeep6bit n
  | .crash n total => num2strKeep6bit n ++ "-" ++ num2strKeep6bit total
  | .hang n => num2strKeep6bit n

/-- The whole name. -/
def FileKey.name (cfg : Config) (k : FileKey) : String := cfg.outputDir ++ k.dir ++ k.base

theorem num2strKeep6bit_injective {n m : UInt32}
    (h : (num2strKeep6bit n).toList = (num2strKeep6bit m).toList) : n = m := by
  rw [toList_num2strKeep6bit, toList_num2strKeep6bit] at h
  have hval := congrArg (fun ds => Nat.ofDigitChars 10 ds 0) h
  rw [ofDigitChars_sixPadded, ofDigitChars_sixPadded] at hval
  exact UInt32.toNat_inj.mp hval

theorem dash_notMem_num2strKeep6bit (n : UInt32) : '-' ∉ (num2strKeep6bit n).toList := by
  rw [toList_num2strKeep6bit]
  exact fun h => absurd (isDigit_of_mem_sixPadded h) (by decide)

/-- The first letter of the directory tells the kind of a file. -/
def FileKey.initial : FileKey → Char
  | .queue _ _ => 'q'
  | .totalCrash _ => 't'
  | .crash _ _ => 'c'
  | .hang _ => 'h'

theorem FileKey.head?_dir (k : FileKey) (rest : List Char) :
    (k.dir.toList ++ rest).head? = some k.initial := by
  cases k <;> simp [dir, initial]

/-- The numbers tell the files of one kind apart. -/
theorem FileKey.base_injective {k k' : FileKey} (hkind : k.initial = k'.initial)
    (h : k.base.toList = k'.base.toList) : k = k' := by
  cases k with
  | queue n cov =>
    cases k' with
    | queue n' cov' =>
      -- the mark at the end has four characters, which says where the number ends
      rw [base, base, String.toList_append, String.toList_append] at h
      have hlen : ∀ b : Bool, (if b then "+cov" else "+tup").toList.length = 4 := by decide
      obtain ⟨hn, hs⟩ := List.append_inj' h ((hlen cov).trans (hlen cov').symm)
      have hcov : ∀ b b' : Bool, (if b then "+cov" else "+tup").toList
          = (if b' then "+cov" else "+tup").toList → b = b' := by decide
      rw [num2strKeep6bit_injective hn, hcov _ _ hs]
    | _ => exact absurd hkind (by simp [initial])
  | totalCrash n =>
    cases k' with
    | totalCrash n' => rw [num2strKeep6bit_injective h]
    | _ => exact absurd hkind (by simp [initial])
  | crash n total =>
    cases k' with
    | crash n' total' =>
      -- a dash is no digit, so the first number ends at the first dash
      rw [base, base, String.toList_append, String.toList_append, String.toList_append,
        String.toList_append, List.append_assoc, List.append_assoc] at h
      obtain ⟨hn, -, ht⟩ := (List.append_cons_inj_of_notMem (dash_notMem_num2strKeep6bit _)
        (dash_notMem_num2strKeep6bit _)).mp h
      rw [num2strKeep6bit_injective hn, num2strKeep6bit_injective ht]
    | _ => exact absurd hkind (by simp [initial])
  | hang n =>
    cases k' with
    | hang n' => rw [num2strKeep6bit_injective h]
    | _ => exact absurd hkind (by simp [initial])

theorem FileKey.dir_eq_of_initial {k k' : FileKey} (h : k.initial = k'.initial) :
    k.dir = k'.dir := by
  cases k <;> cases k' <;> first | rfl | exact absurd h (by simp [initial])

theorem FileKey.toList_name (cfg : Config) (k : FileKey) :
    (k.name cfg).toList = cfg.outputDir.toList ++ (k.dir.toList ++ k.base.toList) := by
  rw [name, String.toList_append, String.toList_append, List.append_assoc]

theorem FileKey.name_injective (cfg : Config) : Function.Injective (FileKey.name cfg) := by
  intro k k' h
  have hlist := congrArg String.toList h
  rw [toList_name, toList_name] at hlist
  have hrest := List.append_cancel_left hlist
  -- after the output directory the next character tells the kind
  have hkind : k.initial = k'.initial := by
    have hhead := congrArg List.head? hrest
    rw [head?_dir, head?_dir] at hhead
    exact Option.some.inj hhead
  rw [dir_eq_of_initial hkind] at hrest
  exact base_injective hkind (List.append_cancel_left hrest)

/-- Every file of the fuzzer is in the output directory. -/
theorem FileKey.prefix_name (cfg : Config) (k : FileKey) :
    cfg.outputDir.toList <+: (k.name cfg).toList := by
  rw [toList_name]
  exact List.prefix_append _ _

/-! ## The disk -/

/-- The files of the system, by name. -/
abbrev Disk := String → Option (List UInt8)

/-- The calls of `WriteMem2File`, in order; `none` if one of them ended the process. -/
def writeFiles (d : Disk) (files : List SavedFile) : Option Disk :=
  createAll d (files.map fun f => (f.fileName, f.mem))

/-- The name and the length of a seed, which is all that `FuzzMain` goes by. -/
def Seed.file (s : Seed) : String × UInt64 := (s.fileName, s.fileLen)

/-- What `FuzzMain` reads for a seed: it ends the process if there is no such file, and also
if the seed is empty, since `mmap` maps no zero bytes. -/
def readSeed (d : Disk) (file : String × UInt64) : Option (List UInt8) :=
  if file.2 = 0 then none else (d file.1).map (·.take file.2.toNat)

/-! ## What is filed for a case -/

/-- The number of a file is one that was given out. -/
def FileKey.Below (fs : Findings) (queued : Nat) : FileKey → Prop
  | .queue n _ => n.toNat < queued
  | .totalCrash n => n.toNat ≤ fs.totalCrashCount.toNat
  | .crash n _ => n.toNat ≤ fs.uniqueCrashCount.toNat
  | .hang n => n.toNat ≤ fs.uniqueHangCount.toNat

/-- The files written so far, with a queue of `queued` seeds. Their names come from different keys
with numbers that were given out, so the next number has a name of its own. -/
structure Filed (cfg : Config) (fs : Findings) (queued : Nat) (keys : List FileKey) : Prop where
  names : fs.files.map SavedFile.fileName = keys.map (FileKey.name cfg)
  nodup : keys.Nodup
  below : ∀ k ∈ keys, k.Below fs queued

/-- No counter is above `n`. -/
structure CountsLe (n : Nat) (fs : Findings) : Prop where
  totalCrash : fs.totalCrashCount.toNat ≤ n
  crash : fs.uniqueCrashCount.toNat ≤ n
  hang : fs.uniqueHangCount.toNat ≤ n

section Filing

variable {cfg : Config} {fs fs' : Findings} {queued : Nat} {keys : List FileKey}

/-- One more file, with the next number of its kind. -/
theorem Filed.add (h : Filed cfg fs queued keys) {queued' : Nat} (k : FileKey)
    (hnew : ¬k.Below fs queued) (hk : k.Below fs' queued')
    (hmono : ∀ k' : FileKey, k'.Below fs queued → k'.Below fs' queued')
    (hfiles : fs'.files.map SavedFile.fileName
      = fs.files.map SavedFile.fileName ++ [k.name cfg]) :
    Filed cfg fs' queued' (keys ++ [k]) := by
  refine ⟨?_, ?_, fun k' hk' => ?_⟩
  · rw [hfiles, h.names, List.map_append, List.map_singleton]
  -- the number of `k` had not been given out
  · rw [List.nodup_append]
    refine ⟨h.nodup, List.nodup_singleton k, fun a ha b hb heq => ?_⟩
    rw [List.mem_singleton] at hb
    exact hnew (hb ▸ heq ▸ h.below a ha)
  · rcases List.mem_append.mp hk' with hold | hlast
    · exact hmono k' (h.below k' hold)
    · rwa [List.mem_singleton.mp hlast]

theorem toNat_add_one {n : UInt32} (h : n.toNat + 1 < 2 ^ 32) : (n + 1).toNat = n.toNat + 1 := by
  rw [UInt32.toNat_add]
  exact Nat.mod_eq_of_lt h

/-- A case is put into the queue. -/
theorem filed_queue (h : Filed cfg fs queued keys) (hlt : queued < 2 ^ 32) (cov : Bool)
    (hcounts : fs'.totalCrashCount = fs.totalCrashCount ∧
      fs'.uniqueCrashCount = fs.uniqueCrashCount ∧ fs'.uniqueHangCount = fs.uniqueHangCount)
    (hfiles : fs'.files.map SavedFile.fileName = fs.files.map SavedFile.fileName
      ++ [(FileKey.queue (UInt32.ofNat queued) cov).name cfg]) :
    Filed cfg fs' (queued + 1) (keys ++ [.queue (UInt32.ofNat queued) cov]) := by
  have hnum : (UInt32.ofNat queued).toNat = queued := UInt32.toNat_ofNat_of_lt' hlt
  obtain ⟨htotal, hcrash, hhang⟩ := hcounts
  refine h.add _ ?_ ?_ (fun k' hk' => ?_) hfiles
  · rw [FileKey.Below, hnum]
    exact lt_irrefl _
  · rw [FileKey.Below, hnum]
    exact Nat.lt_succ_self _
  -- what was given out stays below the counters, of which only the queue's goes up
  · cases k' with
    | queue n cov => exact Nat.lt_succ_of_lt hk'
    | totalCrash n => exact le_of_le_of_eq hk' (congrArg _ htotal.symm)
    | crash n total => exact le_of_le_of_eq hk' (congrArg _ hcrash.symm)
    | hang n => exact le_of_le_of_eq hk' (congrArg _ hhang.symm)

/-- What a handler leaves behind: files with keys of their own, after those that were there,
and counters that went up by one at most. -/
structure FiledOn (cfg : Config) (n queued : Nat) (fs fs' : Findings) : Prop where
  keys : ∃ keys, Filed cfg fs' queued keys
  counts : CountsLe n fs'
  files : fs.files <+: fs'.files

theorem CountsLe.mono {n m : Nat} (h : CountsLe n fs) (hnm : n ≤ m) : CountsLe m fs :=
  ⟨h.totalCrash.trans hnm, h.crash.trans hnm, h.hang.trans hnm⟩

/-- `total_crash/`. -/
theorem filed_totalCrash (h : Filed cfg fs queued keys) {n : Nat} (hc : CountsLe n fs)
    (hn : n + 1 < 2 ^ 32) (mem : List UInt8) {name : String}
    (hname : name = (FileKey.totalCrash (fs.totalCrashCount + 1)).name cfg) :
    FiledOn cfg (n + 1) queued fs
      { fs with
        totalCrashCount := fs.totalCrashCount + 1
        files := fs.files ++ [⟨name, mem⟩] } := by
  -- the counter does not wrap, so the next number is a new one
  have hnext : (fs.totalCrashCount + 1).toNat = fs.totalCrashCount.toNat + 1 :=
    toNat_add_one (by have := hc.totalCrash; omega)
  refine ⟨⟨_, h.add (.totalCrash (fs.totalCrashCount + 1)) ?_ ?_ (fun k' hk' => ?_) ?_⟩,
    ⟨?_, (hc.mono (Nat.le_succ n)).crash, (hc.mono (Nat.le_succ n)).hang⟩, List.prefix_append _ _⟩
  · rw [FileKey.Below, hnext]
    omega
  · exact le_rfl
  · cases k' with
    | totalCrash m =>
      show m.toNat ≤ (fs.totalCrashCount + 1).toNat
      rw [hnext]
      exact Nat.le_succ_of_le hk'
    | _ => exact hk'
  · rw [List.map_append, List.map_singleton, hname]
  · show (fs.totalCrashCount + 1).toNat ≤ n + 1
    rw [hnext]
    exact Nat.succ_le_succ hc.totalCrash

/-- `crash/`. -/
theorem filed_crash (h : Filed cfg fs queued keys) {n : Nat} (hc : CountsLe (n + 1) fs)
    (hn : n + 1 < 2 ^ 32) (hle : fs.uniqueCrashCount.toNat ≤ n) (mem : List UInt8)
    (trace : TraceBits) (useful : UInt64) {name : String}
    (hname : name = (FileKey.crash (fs.uniqueCrashCount + 1) fs.totalCrashCount).name cfg) :
    FiledOn cfg (n + 1) queued fs
      { fs with
        crashTrace := trace
        uniqueCrashCount := fs.uniqueCrashCount + 1
        files := fs.files ++ [⟨name, mem⟩]
        usefuleInput := useful } := by
  have hnext : (fs.uniqueCrashCount + 1).toNat = fs.uniqueCrashCount.toNat + 1 :=
    toNat_add_one (by omega)
  refine ⟨⟨_, h.add (.crash (fs.uniqueCrashCount + 1) fs.totalCrashCount) ?_ ?_
    (fun k' hk' => ?_) ?_⟩, ⟨hc.totalCrash, ?_, hc.hang⟩, List.prefix_append _ _⟩
  · rw [FileKey.Below, hnext]
    omega
  · exact le_rfl
  · cases k' with
    | crash m total =>
      show m.toNat ≤ (fs.uniqueCrashCount + 1).toNat
      rw [hnext]
      exact Nat.le_succ_of_le hk'
    | _ => exact hk'
  · rw [List.map_append, List.map_singleton, hname]
  · show (fs.uniqueCrashCount + 1).toNat ≤ n + 1
    rw [hnext]
    exact Nat.succ_le_succ hle

/-- `hang/`. -/
theorem filed_hang (h : Filed cfg fs queued keys) {n : Nat} (hc : CountsLe n fs)
    (hn : n + 1 < 2 ^ 32) (mem : List UInt8) (trace : TraceBits) (total : UInt32)
    (useful : UInt64) {name : String}
    (hname : name = (FileKey.hang (fs.uniqueHangCount + 1)).name cfg) :
    FiledOn cfg (n + 1) queued fs
      { fs with
        timeoutTrace := trace
        totalTimeoutCount := total
        uniqueHangCount := fs.uniqueHangCount + 1
        files := fs.files ++ [⟨name, mem⟩]
        usefuleInput := useful } := by
  have hnext : (fs.uniqueHangCount + 1).toNat = fs.uniqueHangCount.toNat + 1 :=
    toNat_add_one (by have := hc.hang; omega)
  refine ⟨⟨_, h.add (.hang (fs.uniqueHangCount + 1)) ?_ ?_ (fun k' hk' => ?_) ?_⟩,
    ⟨(hc.mono (Nat.le_succ n)).totalCrash, (hc.mono (Nat.le_succ n)).crash, ?_⟩,
    List.prefix_append _ _⟩
  · rw [FileKey.Below, hnext]
    omega
  · exact le_rfl
  · cases k' with
    | hang m =>
      show m.toNat ≤ (fs.uniqueHangCount + 1).toNat
      rw [hnext]
      exact Nat.le_succ_of_le hk'
    | _ => exact hk'
  · rw [List.map_append, List.map_singleton, hname]
  · show (fs.uniqueHangCount + 1).toNat ≤ n + 1
    rw [hnext]
    exact Nat.succ_le_succ hc.hang

theorem name_totalCrash (cfg : Config) (n : UInt32) :
    cfg.outputDir ++ "total_crash/" ++ num2strKeep6bit n = (FileKey.totalCrash n).name cfg := by
  simp only [FileKey.name, FileKey.dir, FileKey.base]

theorem name_crash (cfg : Config) (n total : UInt32) :
    cfg.outputDir ++ "crash/" ++ num2strKeep6bit n ++ "-" ++ num2strKeep6bit total
      = (FileKey.crash n total).name cfg := by
  simp only [FileKey.name, FileKey.dir, FileKey.base, String.append_assoc]

theorem name_hang (cfg : Config) (n : UInt32) :
    cfg.outputDir ++ "hang/" ++ num2strKeep6bit n = (FileKey.hang n).name cfg := by
  simp only [FileKey.name, FileKey.dir, FileKey.base]

theorem filed_crashHandler (h : Filed cfg fs queued keys) {n : Nat} (hc : CountsLe n fs)
    (hn : n + 1 < 2 ^ 32) (keeping : Bool) (e : Execution) :
    FiledOn cfg (n + 1) queued fs (crashHandler cfg keeping fs e).2 := by
  have htotal := filed_totalCrash h hc hn e.mem (name_totalCrash cfg _)
  obtain ⟨keys', hfiled⟩ := htotal.keys
  generalize hres : crashHandler cfg keeping fs e = res
  unfold crashHandler at hres
  dsimp only at hres
  split at hres
  -- a new trace goes to `crash/` as well, under the count that `total_crash/` has just got
  · have hcrash := filed_crash hfiled htotal.counts hn hc.crash e.mem
      (fun i => fs.crashTrace i || minimizeBit e.globalTraceBit i)
      (if keeping then fs.usefuleInput else fs.usefuleInput + 1) (name_crash cfg _ _)
    rw [← hres]
    exact ⟨hcrash.keys, hcrash.counts, htotal.files.trans hcrash.files⟩
  · rw [← hres]
    exact htotal

/-- A hang that is known already. -/
theorem filed_timeout (h : Filed cfg fs queued keys) {n : Nat} (hc : CountsLe n fs)
    (total : UInt32) : FiledOn cfg n queued fs { fs with totalTimeoutCount := total } := by
  refine ⟨⟨keys, h.names, h.nodup, fun k hk => ?_⟩, ⟨hc.totalCrash, hc.crash, hc.hang⟩,
    List.prefix_rfl⟩
  have hbelow := h.below k hk
  cases k with
  | queue n cov => exact hbelow
  | totalCrash n => exact hbelow
  | crash n total => exact hbelow
  | hang n => exact hbelow

theorem filed_hangHandler (h : Filed cfg fs queued keys) {n : Nat} (hc : CountsLe n fs)
    (hn : n + 1 < 2 ^ 32) (keeping : Bool) (e rerun : Execution) :
    FiledOn cfg (n + 1) queued fs (hangHandler cfg keeping fs e rerun).2 := by
  -- the limit of an execution is not below that of a hang, so nothing is run a second time
  have hno : ¬execTmout < hangTmout := by decide
  generalize hres : hangHandler cfg keeping fs e rerun = res
  unfold hangHandler at hres
  dsimp only at hres
  split at hres
  · rw [← hres]
    exact filed_timeout h (hc.mono (Nat.le_succ n)) _
  · rw [if_neg fun hlt => hno hlt.1, if_neg fun hlt => hno hlt.1] at hres
    rw [← hres]
    exact filed_hang h hc hn e.mem _ _ _ (name_hang cfg _)

theorem filed_fileExecution (h : Filed cfg fs queued keys) {n : Nat} (hc : CountsLe n fs)
    (hn : n + 1 < 2 ^ 32) (keeping : Bool) (e rerun : Execution) :
    FiledOn cfg (n + 1) queued fs (fileExecution cfg keeping fs e rerun).2 := by
  unfold fileExecution
  cases e.status with
  | none => exact ⟨⟨keys, h⟩, hc.mono (Nat.le_succ n), List.prefix_rfl⟩
  | tmout => exact filed_hangHandler h hc hn keeping e rerun
  | crash => exact filed_crashHandler h hc hn keeping e

end Filing

/-! ## A case -/

theorem name_queue (cfg : Config) (f : FuzzerState) (flag : UInt8) :
    queueFileName cfg f flag = (FileKey.queue (UInt32.ofNat f.seeds.queue.length)
      (decide (flag = 2))).name cfg := by
  simp only [queueFileName, FileKey.name, FileKey.dir, FileKey.base, String.append_assoc,
    decide_eq_true_eq]

/-- The case was put at the end of the queue and its file is there, or the queue is as it
was. -/
inductive Queued (mem : List UInt8) (q q' : List Seed) (files : List SavedFile) : Prop where
  | same (seeds : q' = q)
  | added (s : Seed) (seeds : q' = q ++ [s]) (len : s.fileLen = (UInt32.ofNat mem.length).toUInt64)
      (file : ⟨s.fileName, mem⟩ ∈ files)

/-- **`AddInterestingSeed`** creates files with new names, one of them for the seed it adds. -/
theorem filed_addInterestingSeed {cfg : Config} {f : FuzzerState} {keys : List FileKey} {n : Nat}
    (h : Filed cfg f.findings f.seeds.queue.length keys) (hc : CountsLe n f.findings)
    (hn : n + 1 < 2 ^ 32) (hq : f.seeds.queue.length < 2 ^ 32) (e rerun : Execution) :
    FiledOn cfg (n + 1) (addInterestingSeed cfg f e rerun).2.seeds.queue.length f.findings
        (addInterestingSeed cfg f e rerun).2.findings ∧
      Queued e.mem f.seeds.queue (addInterestingSeed cfg f e rerun).2.seeds.queue
        (addInterestingSeed cfg f e rerun).2.findings.files := by
  have hfindings : (addInterestingSeed cfg f e rerun).2.findings
      = (fileExecution cfg (newBitFlag cfg f e != 0)
          (if newBitFlag cfg f e != 0 then fileInteresting cfg f e (newBitFlag cfg f e)
            else f.findings) e rerun).2 := rfl
  by_cases hint : Interesting cfg f e
  · have hflag : (newBitFlag cfg f e != 0) = true := by
      simpa using newBitFlag_ne_zero_iff.mpr hint
    rw [hflag, if_pos rfl] at hfindings
    have hseeds : (addInterestingSeed cfg f e rerun).2.seeds.queue
        = f.seeds.queue ++ [interestingSeed cfg f e (newBitFlag cfg f e)] := by
      rw [addInterestingSeed_of_interesting hint, addToQueue]
    -- the file of the seed is written before the handlers write theirs
    obtain ⟨keys', hqueue⟩ : ∃ keys', Filed cfg (fileInteresting cfg f e (newBitFlag cfg f e))
        (f.seeds.queue.length + 1) keys' := by
      refine ⟨_, filed_queue h hq (decide (newBitFlag cfg f e = 2)) ⟨rfl, rfl, rfl⟩ ?_⟩
      rw [fileInteresting, List.map_append, List.map_singleton, name_queue]
    have hfiled := filed_fileExecution hqueue ⟨hc.totalCrash, hc.crash, hc.hang⟩ hn true e rerun
    rw [hseeds, hfindings, List.length_append, List.length_singleton]
    refine ⟨⟨hfiled.keys, hfiled.counts, (List.prefix_append _ _).trans hfiled.files⟩,
      .added _ rfl rfl (hfiled.files.subset ?_)⟩
    exact List.mem_append_right _ (List.mem_singleton_self _)
  · have hflag : (newBitFlag cfg f e != 0) = false := by
      simpa using fun hne => hint (newBitFlag_ne_zero_iff.mp hne)
    rw [hflag, if_neg Bool.false_ne_true] at hfindings
    have hseeds : (addInterestingSeed cfg f e rerun).2.seeds.queue = f.seeds.queue := by
      rw [addInterestingSeed_of_not_interesting hint]
    rw [hseeds, hfindings]
    exact ⟨filed_fileExecution h hc hn false e rerun, .same rfl⟩

/-! ## The main loop -/

/-- A change of one seed that is not about its file. -/
theorem map_file_modify (q : List Seed) (i : Nat) {g : Seed → Seed}
    (hg : ∀ s, (g s).file = s.file) :
    (q.modify i g).map Seed.file = q.map Seed.file := by
  refine List.ext_getElem? fun j => ?_
  rw [List.getElem?_map, List.getElem?_map, List.getElem?_modify]
  cases q[j]? with
  | none => rfl
  | some s =>
    show some _ = some _
    split
    · exact congrArg some (hg s)
    · rfl

theorem map_file_cullQueue (q : SeedQueue) :
    q.cullQueue.queue.map Seed.file = q.queue.map Seed.file := by
  have hmap := congrArg (List.map Seed.file) q.cullQueue_seeds
  rwa [List.map_map, List.map_map] at hmap

theorem map_file_updateQueueTop (q : SeedQueue) (s : Nat) (tr : CovMap) :
    (q.updateQueueTop s tr).queue.map Seed.file = q.queue.map Seed.file := by
  have hmap := congrArg (List.map Seed.file) (q.updateQueueTop_spec s tr).seeds
  rwa [List.map_map, List.map_map] at hmap

theorem map_file_calibrateCase (f : FuzzerState) (i : Nat) (c : InitialCase) :
    (calibrateCase f i c).seeds.queue.map Seed.file = f.seeds.queue.map Seed.file := by
  unfold calibrateCase
  split
  · rfl
  · dsimp only
    rw [map_file_updateQueueTop]
    exact map_file_modify _ _ fun _ => rfl

/-- The dry run leaves the seeds with the files of the input directory. -/
theorem map_file_afterDryRun (cases : List InitialCase) (attached : CovMap × CovMap) :
    (afterDryRun cases attached).seeds.queue.map Seed.file
      = cases.map fun c => (c.fileName, c.fileLen) := by
  -- no calibration of the dry run changes a name or a length
  have hfold : ∀ (l : List (InitialCase × Nat)) (f : FuzzerState),
      (l.foldl (fun f cq => calibrateCase f cq.2 cq.1) f).seeds.queue.map Seed.file
        = f.seeds.queue.map Seed.file := by
    intro l
    induction l with
    | nil => exact fun _ => rfl
    | cons cq l ih =>
      intro f
      rw [List.foldl_cons, ih, map_file_calibrateCase]
  rw [afterDryRun, dryRunning, hfold]
  show (readTestcases cases).map Seed.file = _
  rw [readTestcases, List.map_map]
  rfl

/-- What a step of the loop does to the queue and the findings: nothing that concerns
files, or an execution. -/
inductive LoopStep (cfg : Config) (f : FuzzerState) (input : MainInput) (f' : FuzzerState) :
    Prop where
  | same (queue : f'.seeds.queue.map Seed.file = f.seeds.queue.map Seed.file)
      (findings : f'.findings = f.findings)
  | executed (u : UnitInput) (isUnit : input = .unit u) (g : FuzzerState)
      (seeds : g.seeds = f.seeds) (findings : g.findings = f.findings)
      (next : f' = (addInterestingSeed cfg g u.exec u.rerun).2)

theorem beforeExecution_findings (cfg : Config) (f : FuzzerState) (u : UnitInput) :
    (beforeExecution cfg f u).findings = f.findings := by
  rw [beforeExecution]
  dsimp only
  split
  · rw [syncMaps]
    split <;> rfl
  · rfl

theorem loopStep_fuzzUnit (cfg : Config) (f : FuzzerState) (u : UnitInput) :
    LoopStep cfg f (.unit u) (fuzzUnit cfg f u) := by
  by_cases hex : Executes cfg f u
  · rw [fuzzUnit_of_executes hex]
    refine .executed u rfl _ ?_ ?_ rfl
    · exact beforeExecution_seeds cfg f u
    · exact beforeExecution_findings cfg f u
  · refine .same (by rw [(fuzzUnit_of_not_executes hex).2]) ?_
    rw [fuzzUnit]
    split
    · rfl
    · dsimp only
      split
      · exact beforeExecution_findings cfg f u
      · next hf hb => exact absurd ⟨by simpa using hf, by simpa using hb⟩ hex

theorem loopStep_callFuzzMain (cfg : Config) (s : MainState) (rand : Nat) :
    LoopStep cfg s.fuzzer (.fuzzMain rand) (callFuzzMain (atFuzzMain s) rand).fuzzer := by
  have hat : (atFuzzMain s).fuzzer.findings = s.fuzzer.findings := by
    rw [atFuzzMain]
    dsimp only
    split <;> rfl
  -- neither a skip nor the start of a pass touches the seeds or the files
  have hseeds : (callFuzzMain (atFuzzMain s) rand).fuzzer.seeds = (atFuzzMain s).fuzzer.seeds ∧
      (callFuzzMain (atFuzzMain s) rand).fuzzer.findings = (atFuzzMain s).fuzzer.findings := by
    unfold callFuzzMain
    split
    · exact ⟨rfl, rfl⟩
    · split <;> exact ⟨rfl, rfl⟩
  refine .same ?_ (hseeds.2.trans hat)
  rw [hseeds.1, atFuzzMain_seeds]
  exact map_file_cullQueue _

theorem loopStep_returnFuzzMain (cfg : Config) (s : MainState) (error : Bool) :
    LoopStep cfg s.fuzzer (.ret error) (returnFuzzMain s error).fuzzer := by
  refine .same ?_ rfl
  cases error with
  | true => rfl
  | false => exact map_file_modify _ _ fun _ => rfl

theorem loopStep_stepMain (cfg : Config) (s : MainState) (input : MainInput) :
    LoopStep cfg s.fuzzer input (stepMain cfg s input).fuzzer := by
  unfold stepMain
  split
  · exact .same rfl rfl
  · split
    · exact loopStep_callFuzzMain cfg s _
    · exact loopStep_fuzzUnit cfg s.fuzzer _
    · exact loopStep_returnFuzzMain cfg s _
    · exact .same rfl rfl
    · exact .same rfl rfl
    · exact .same rfl rfl

/-! ## Runs -/

/-- The case that a step of the loop puts into the queue, if it does. -/
def keptBy (cfg : Config) (s : MainState) : MainInput → Option (List UInt8)
  | .unit u =>
    if s.fuzzer.seeds.queue.length < (stepMain cfg s (.unit u)).fuzzer.seeds.queue.length then
      some u.exec.mem
    else none
  | _ => none

/-- The cases that were kept along a run, in order. -/
def kept (cfg : Config) (s : MainState) (ins : List MainInput) : List (List UInt8) :=
  (outputs (stepMain cfg) (keptBy cfg) s ins).reduceOption

/-- A case can be read back: its bytes can be counted in 32 bits, and there are some. -/
def MainInput.Sized : MainInput → Prop
  | .unit u => 0 < u.exec.mem.length ∧ u.exec.mem.length < 2 ^ 32
  | _ => True

/-- A seed of the queue and the case it stands for: the file it names holds the case, and it is as
long as the seed says. -/
structure FileOf (files : List SavedFile) (file : String × UInt64) (mem : List UInt8) : Prop where
  len : file.2.toNat = mem.length
  nonempty : mem ≠ []
  found : ⟨file.1, mem⟩ ∈ files

/-- The queue after `n` steps: the initial seeds, and one for each case that was kept. -/
structure StoreInv (cfg : Config) (initial : List (String × UInt64)) (n : Nat)
    (mems : List (List UInt8)) (f : FuzzerState) : Prop where
  filed : ∃ keys, Filed cfg f.findings f.seeds.queue.length keys
  counts : CountsLe n f.findings
  length_le : mems.length ≤ n
  queue : ∃ added, f.seeds.queue.map Seed.file = initial ++ added ∧
    List.Forall₂ (FileOf f.findings.files) added mems

theorem StoreInv.queue_length {cfg : Config} {initial : List (String × UInt64)} {n : Nat}
    {mems : List (List UInt8)} {f : FuzzerState} (h : StoreInv cfg initial n mems f) :
    f.seeds.queue.length = initial.length + mems.length := by
  obtain ⟨added, hqueue, hfiles⟩ := h.queue
  have hlen := congrArg List.length hqueue
  rwa [List.length_map, List.length_append, hfiles.length_eq] at hlen

theorem FileOf.mono {files files' : List SavedFile} (hsub : files ⊆ files')
    {file : String × UInt64} {mem : List UInt8} (h : FileOf files file mem) :
    FileOf files' file mem :=
  ⟨h.len, h.nonempty, hsub h.found⟩

/-- **One step of the loop**. -/
theorem storeInv_step {cfg : Config} {initial : List (String × UInt64)} {n : Nat}
    {mems : List (List UInt8)} {s : MainState} (h : StoreInv cfg initial n mems s.fuzzer)
    (hn : initial.length + n + 1 < 2 ^ 32) (input : MainInput) (hsized : input.Sized) :
    StoreInv cfg initial (n + 1) (mems ++ (keptBy cfg s input).toList)
      (stepMain cfg s input).fuzzer := by
  have hlen := h.queue_length
  obtain ⟨added, hqueue, hfiles⟩ := h.queue
  cases loopStep_stepMain cfg s input with
  | same queue findings =>
    -- nothing was put into the queue, so nothing was kept
    have hsame :
        (stepMain cfg s input).fuzzer.seeds.queue.length = s.fuzzer.seeds.queue.length := by
      have hlen' := congrArg List.length queue
      rwa [List.length_map, List.length_map] at hlen'
    have hkept : keptBy cfg s input = none := by
      cases input with
      | unit u => exact if_neg (by rw [hsame]; exact lt_irrefl _)
      | _ => rfl
    rw [hkept, Option.toList_none, List.append_nil]
    refine ⟨?_, ?_, h.length_le.trans (Nat.le_succ n), added, queue.trans hqueue, ?_⟩
    · rw [hsame, findings]
      exact h.filed
    · rw [findings]
      exact h.counts.mono (Nat.le_succ n)
    · rw [findings]
      exact hfiles
  | executed u isUnit g seeds findings next =>
    subst isUnit
    obtain ⟨keys, hfiled⟩ := h.filed
    rw [← seeds, ← findings] at hfiled
    have hcase := filed_addInterestingSeed hfiled (by rw [findings]; exact h.counts) (by omega)
      (by rw [seeds, hlen]; have := h.length_le; omega) u.exec u.rerun
    rw [← next, seeds, findings] at hcase
    obtain ⟨hon, hqueued⟩ := hcase
    -- files are only added: what the older seeds name is still there
    have hold : List.Forall₂ (FileOf (stepMain cfg s (.unit u)).fuzzer.findings.files) added mems :=
      hfiles.imp fun _ _ hf => hf.mono hon.files.subset
    cases hqueued with
    | same hseeds =>
      have hkept : keptBy cfg s (.unit u) = none := if_neg (by rw [hseeds]; exact lt_irrefl _)
      rw [hkept, Option.toList_none, List.append_nil]
      refine ⟨hon.keys, hon.counts, h.length_le.trans (Nat.le_succ n), added, ?_, hold⟩
      rw [hseeds, hqueue]
    | added t hseeds tlen found =>
      have hkept : keptBy cfg s (.unit u) = some u.exec.mem :=
        if_pos (by rw [hseeds, List.length_append]; exact Nat.lt_succ_self _)
      rw [hkept, Option.toList_some]
      refine ⟨hon.keys, hon.counts, ?_, added ++ [t.file], ?_, ?_⟩
      · rw [List.length_append]
        exact Nat.succ_le_succ h.length_le
      · rw [hseeds, List.map_append, hqueue, List.map_singleton, List.append_assoc]
      -- the length of the new seed went through a `u32`, where the case fits
      · refine List.rel_append hold (List.Forall₂.cons ⟨?_, ?_, found⟩ List.Forall₂.nil)
        · show t.fileLen.toNat = _
          rw [tlen, UInt32.toNat_toUInt64, UInt32.toNat_ofNat_of_lt' hsized.2]
        · exact List.ne_nil_of_length_pos hsized.1

theorem kept_concat (cfg : Config) (s : MainState) (ins : List MainInput) (input : MainInput) :
    kept cfg s (ins ++ [input])
      = kept cfg s ins ++ (keptBy cfg (run (stepMain cfg) s ins) input).toList := by
  unfold kept
  rw [outputs_concat]
  cases keptBy cfg (run (stepMain cfg) s ins) input with
  | none => rw [reduceOption_concat_none, Option.toList_none, List.append_nil]
  | some mem => rw [reduceOption_concat_some, Option.toList_some]

theorem storeInv_start (cfg : Config) (cases : List InitialCase) (attached : CovMap × CovMap) :
    StoreInv cfg (cases.map fun c => (c.fileName, c.fileLen)) 0 []
      (mainStart cases attached).fuzzer := by
  have hfindings : (mainStart cases attached).fuzzer.findings
      = (FuzzerState.init (readTestcases cases) attached).findings := by
    show (afterDryRun cases attached).findings = _
    rw [afterDryRun_frame]
  refine ⟨⟨[], ?_⟩, ?_, le_rfl, [], ?_, .nil⟩
  · rw [hfindings]
    exact ⟨rfl, List.nodup_nil, fun k hk => absurd hk List.not_mem_nil⟩
  · rw [hfindings]
    exact ⟨le_rfl, le_rfl, le_rfl⟩
  · rw [List.append_nil, ← map_file_afterDryRun cases attached]
    exact map_file_cullQueue _

theorem storeInv_run (cfg : Config) (cases : List InitialCase) (attached : CovMap × CovMap)
    (ins : List MainInput) (hsized : ∀ input ∈ ins, input.Sized)
    (hcount : cases.length + ins.length < 2 ^ 32) :
    StoreInv cfg (cases.map fun c => (c.fileName, c.fileLen)) ins.length
      (kept cfg (mainStart cases attached) ins)
      (run (stepMain cfg) (mainStart cases attached) ins).fuzzer := by
  -- over the steps from the last one on, since `kept` grows at its end
  induction ins using List.reverseRecOn with
  | nil => exact storeInv_start cfg cases attached
  | append_singleton ins input ih =>
    rw [List.length_append, List.length_singleton] at hcount
    have hrec := ih (fun i hi => hsized i (List.mem_append_left _ hi)) (by omega)
    rw [run_concat, kept_concat, List.length_append, List.length_singleton]
    refine storeInv_step hrec ?_ input (hsized input (by simp))
    rw [List.length_map]
    omega

/-- What the seeds stand for is read back from the files. -/
theorem readSeed_of_fileOf {d : Disk} {files : List SavedFile}
    (hd : ∀ f ∈ files, d f.fileName = some f.mem) {added : List (String × UInt64)}
    {mems : List (List UInt8)} (h : List.Forall₂ (FileOf files) added mems) :
    added.map (readSeed d) = mems.map some := by
  induction h with
  | nil => rfl
  | @cons file mem added mems hf _ ih =>
    have hpos : 0 < mem.length := List.length_pos_iff.mpr hf.nonempty
    -- a seed of length zero would have no bytes to map
    have hne : file.2 ≠ 0 := by
      intro hzero
      have hlen := hf.len
      rw [hzero] at hlen
      exact absurd hlen (by rw [UInt64.toNat_zero]; omega)
    rw [List.map_cons, List.map_cons, ih, readSeed, if_neg hne, hd _ hf.found, Option.map_some,
      hf.len, List.take_length]

/-- **The queue and its files**: whatever the campaign does, as long as its steps can be
counted in 32 bits, no file that it writes exists already, and the files of the queue, as
`FuzzMain` reads them, are the initial cases and after them the cases that were kept, byte
for byte and in order. -/
theorem queue_files (cfg : Config) (cases : List InitialCase) (attached : CovMap × CovMap)
    (d : Disk) (ins : List MainInput)
    (hout : ∀ name, cfg.outputDir.toList <+: name.toList → d name = none)
    (hin : ∀ c ∈ cases, c.fileLen ≠ 0 ∧
      ∃ content, d c.fileName = some content ∧ content.length = c.fileLen.toNat)
    (hsized : ∀ input ∈ ins, input.Sized) (hcount : cases.length + ins.length < 2 ^ 32) :
    ∃ d', writeFiles d (run (stepMain cfg) (mainStart cases attached) ins).fuzzer.findings.files
        = some d' ∧
      (run (stepMain cfg) (mainStart cases attached) ins).fuzzer.seeds.queue.map
          (fun s => readSeed d' s.file)
        = cases.map (fun c => d c.fileName)
          ++ (kept cfg (mainStart cases attached) ins).map some := by
  have hinv := storeInv_run cfg cases attached ins hsized hcount
  generalize run (stepMain cfg) (mainStart cases attached) ins = s at hinv
  obtain ⟨keys, hfiled⟩ := hinv.filed
  obtain ⟨added, hqueue, hfiles⟩ := hinv.queue
  let entries := s.fuzzer.findings.files.map fun f => (f.fileName, f.mem)
  have hnames : entries.map Prod.fst = keys.map (FileKey.name cfg) := by
    rw [← hfiled.names, List.map_map]
    rfl
  have hnodup : (entries.map Prod.fst).Nodup := by
    rw [hnames]
    exact hfiled.nodup.map (FileKey.name_injective cfg)
  have hnew : ∀ name ∈ entries.map Prod.fst, d name = none := by
    intro name hname
    rw [hnames] at hname
    obtain ⟨k, -, rfl⟩ := List.mem_map.mp hname
    exact hout _ (k.prefix_name cfg)
  refine ⟨filled d entries, createAll_eq_filled hnodup fun e he =>
    hnew _ (List.mem_map_of_mem he), ?_⟩
  have hold : (cases.map fun c => (c.fileName, c.fileLen)).map (readSeed (filled d entries))
      = cases.map fun c => d c.fileName := by
    rw [List.map_map]
    refine List.map_congr_left fun c hc => ?_
    obtain ⟨hne, content, hcontent, hlen⟩ := hin c hc
    have hnot : c.fileName ∉ entries.map Prod.fst := fun hmem =>
      absurd (hnew _ hmem) (by rw [hcontent]; exact Option.some_ne_none content)
    show readSeed (filled d entries) (c.fileName, c.fileLen) = d c.fileName
    rw [readSeed, if_neg hne, filled_of_notMem d hnot, hcontent, Option.map_some, ← hlen,
      List.take_length]
  have hadded := readSeed_of_fileOf (fun f hf => filled_of_mem d hnodup
    (List.mem_map_of_mem (f := fun f : SavedFile => (f.fileName, f.mem)) hf)) hfiles
  rw [← hold, ← hadded, ← List.map_append, ← hqueue, List.map_map]
  rfl

/-- An execution that hits index `0`. -/
def hitsFirst (mem : List UInt8) (status : RunStatus) : Execution :=
  ⟨mem, status, fun i => if i.val = 0 then 1 else 0, fun _ => 0⟩

/-- One initial case in the directory `in`. -/
def oneSeed : List InitialCase := [⟨"in/a", 1, hitsFirst [7] .none, 5⟩]

/-- The disk it is on. -/
def oneSeedDisk : Disk := fun name => if name = "in/a" then some [7] else none

/-- The seed is fuzzed, and a case with two bytes crashes. -/
def oneCrash : List MainInput :=
  [.fuzzMain 0, .unit ⟨hitsFirst [1, 2] .crash, hitsFirst [1, 2] .none, virgin, virgin⟩, .ret false]

theorem queue_files_oneSeed :
    ∃ d', writeFiles oneSeedDisk (run (stepMain ⟨false, "out/", .master⟩)
        (mainStart oneSeed (virgin, virgin)) oneCrash).fuzzer.findings.files = some d' ∧
      (run (stepMain ⟨false, "out/", .master⟩) (mainStart oneSeed (virgin, virgin))
          oneCrash).fuzzer.seeds.queue.map (fun s => readSeed d' s.file)
        = oneSeed.map (fun c => oneSeedDisk c.fileName)
          ++ (kept ⟨false, "out/", .master⟩ (mainStart oneSeed (virgin, virgin)) oneCrash).map
            some := by
  refine queue_files ⟨false, "out/", .master⟩ oneSeed (virgin, virgin) oneSeedDisk oneCrash ?_ ?_ ?_
    (by decide)
  · intro name hpre
    refine if_neg fun hname => ?_
    rw [hname] at hpre
    exact absurd hpre (by decide)
  · intro c hc
    rw [oneSeed, List.mem_singleton] at hc
    rw [hc]
    exact ⟨by decide, [7], rfl, rfl⟩
  · intro input hi
    rcases List.mem_cons.mp hi with rfl | hi
    · trivial
    rcases List.mem_cons.mp hi with rfl | hi
    · exact ⟨by decide, by decide⟩
    · rw [List.mem_singleton.mp hi]
      trivial

end DistFuzz.Fuzzer
