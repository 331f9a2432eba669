import DistFuzz.Fuzzer.Interesting

/-!
# Keeping crashes (`crash_handler`, TestRunning.cpp:503–551)

A crashing case is saved under `crash/` if its trace has an index that no crash
saved before has. `crash_handler` takes the trace from the global map also under
`-b`, where the branch map guides the campaign: `AddInterestingSeed` decides on
the branch map alone, and injectors that report branches leave the global map
empty.

- `savedCrashes`: the crashes saved along a sequence of calls, told by
  `unique_crash_count`.
- `CrashInv`: `crashTrace` is the union of their global traces, and the counter
  counts them. Each has an index of its own, so it cannot wrap.
- `CrashesKept`: what the user of a campaign expects of the directory `crash/`.
- `crashes_kept_iff`: it is so exactly if every crash that should be saved, going
  by the map that guides the campaign, has an index of its own in the global map.
-/

namespace DistFuzz.Fuzzer

open DistFuzz.Lib

/-! ## Saved crashes -/

/-- The name `crash_handler` gives to a saved crash, without the time stamp. -/
def crashFileName (cfg : Config) (fs : Findings) : String :=
  cfg.outputDir ++ "crash/" ++ num2strKeep6bit fs.uniqueCrashCount ++ "-"
    ++ num2strKeep6bit fs.totalCrashCount

/-- The call saves its case as a unique crash. -/
def SavesCrash (cfg : Config) (f : FuzzerState) (u : Execution × Execution) : Prop :=
  (stepInteresting cfg f u).findings.uniqueCrashCount = f.findings.uniqueCrashCount + 1 ∧
    ⟨crashFileName cfg (stepInteresting cfg f u).findings, u.1.mem⟩
      ∈ (stepInteresting cfg f u).findings.files

/-- What a call adds to the saved crashes. -/
def savedBy (cfg : Config) (f : FuzzerState) (u : Execution × Execution) : List Execution :=
  if (stepInteresting cfg f u).findings.uniqueCrashCount = f.findings.uniqueCrashCount then []
  else [u.1]

/-- The crashes saved along a sequence of calls. -/
def savedCrashes (cfg : Config) (f : FuzzerState) (us : List (Execution × Execution)) :
    List Execution :=
  (outputs (stepInteresting cfg) (savedBy cfg) f us).flatten

theorem savedCrashes_concat (cfg : Config) (f : FuzzerState) (us : List (Execution × Execution))
    (u : Execution × Execution) :
    savedCrashes cfg f (us ++ [u])
      = savedCrashes cfg f us ++ savedBy cfg (run (stepInteresting cfg) f us) u := by
  unfold savedCrashes
  rw [outputs_concat, List.flatten_append, List.flatten_singleton]

/-! ## What a call does to the findings -/

/-- The trace has an index that none of the saved crashes has. -/
def HasOwnIndex (trace : Execution → CovMap) (saved : List Execution) (e : Execution) : Prop :=
  ∃ i, trace e i ≠ 0 ∧ ∀ c ∈ saved, trace c i = 0

theorem hasNewTraceBit_iff (trace seen : TraceBits) :
    hasNewTraceBit trace seen = true ↔ ∃ i, trace i = true ∧ seen i = false := by
  unfold hasNewTraceBit
  rw [List.any_eq_true]
  constructor
  · rintro ⟨i, -, hi⟩
    rw [Bool.and_eq_true, Bool.not_eq_true'] at hi
    exact ⟨i, hi⟩
  · rintro ⟨i, htrace, hseen⟩
    refine ⟨i, List.mem_finRange i, ?_⟩
    rw [htrace, hseen]
    rfl

/-- The case was saved as a unique crash. -/
structure CrashSaved (cfg : Config) (e : Execution) (fs fs' : Findings) : Prop where
  count : fs'.uniqueCrashCount = fs.uniqueCrashCount + 1
  trace : ∀ i, fs'.crashTrace i = (fs.crashTrace i || minimizeBit e.globalTraceBit i)
  file : ⟨crashFileName cfg fs', e.mem⟩ ∈ fs'.files

/-- The saved crashes are as before: neither `crashTrace` nor the number of unique crashes has
changed. -/
structure CrashesSame (fs fs' : Findings) : Prop where
  count : fs'.uniqueCrashCount = fs.uniqueCrashCount
  trace : fs'.crashTrace = fs.crashTrace

/-- A crash with an index in its global trace that is not in `crashTrace`. -/
def NewCrash (fs : Findings) (e : Execution) : Prop :=
  e.status = .crash ∧ hasNewTraceBit (minimizeBit e.globalTraceBit) fs.crashTrace = true

theorem crashHandler_cases (cfg : Config) (keeping : Bool) (fs : Findings) (e : Execution) :
    ∃ b fs', crashHandler cfg keeping fs e = (b, fs') ∧
      (hasNewTraceBit (minimizeBit e.globalTraceBit) fs.crashTrace = true ∧
          CrashSaved cfg e fs fs' ∨
        ¬hasNewTraceBit (minimizeBit e.globalTraceBit) fs.crashTrace = true ∧
          CrashesSame fs fs') := by
  unfold crashHandler
  dsimp only
  split
  · next hnew =>
    refine ⟨_, _, rfl, .inl ⟨hnew, rfl, fun _ => rfl, ?_⟩⟩
    exact List.mem_append_right _ (List.mem_singleton_self _)
  · next hnew => exact ⟨_, _, rfl, .inr ⟨hnew, rfl, rfl⟩⟩

/-- There is no second run after a hang, so no crash either. -/
theorem hangHandler_cases (cfg : Config) (keeping : Bool) (fs : Findings) (e rerun : Execution) :
    ∃ b fs', hangHandler cfg keeping fs e rerun = (b, fs') ∧ CrashesSame fs fs' := by
  have hno : ¬execTmout < hangTmout := by decide
  unfold hangHandler
  dsimp only
  split
  · exact ⟨_, _, rfl, rfl, rfl⟩
  · rw [if_neg fun h => hno h.1, if_neg fun h => hno h.1]
    exact ⟨_, _, rfl, rfl, rfl⟩

theorem fileExecution_cases (cfg : Config) (keeping : Bool) (fs : Findings) (e rerun : Execution) :
    ∃ b fs', fileExecution cfg keeping fs e rerun = (b, fs') ∧
      (NewCrash fs e ∧ CrashSaved cfg e fs fs' ∨ ¬NewCrash fs e ∧ CrashesSame fs fs') := by
  unfold fileExecution NewCrash
  cases hst : e.status with
  | none => exact ⟨_, _, rfl, .inr ⟨by simp, rfl, rfl⟩⟩
  | tmout =>
    obtain ⟨b, fs', heq, hsame⟩ := hangHandler_cases cfg keeping fs e rerun
    exact ⟨b, fs', heq, .inr ⟨by simp, hsame⟩⟩
  | crash =>
    obtain ⟨b, fs', heq, h⟩ := crashHandler_cases cfg keeping fs e
    refine ⟨b, fs', heq, ?_⟩
    rwa [and_iff_right rfl]

/-- **One call**: a crash whose global trace has a new index is saved, anything
else leaves the saved crashes alone. -/
theorem stepInteresting_crash (cfg : Config) (f : FuzzerState) (u : Execution × Execution) :
    NewCrash f.findings u.1 ∧ CrashSaved cfg u.1 f.findings (stepInteresting cfg f u).findings ∨
      ¬NewCrash f.findings u.1 ∧ CrashesSame f.findings (stepInteresting cfg f u).findings := by
  have hstep : (stepInteresting cfg f u).findings
      = (fileExecution cfg (newBitFlag cfg f u.1 != 0)
          (if newBitFlag cfg f u.1 != 0 then fileInteresting cfg f u.1 (newBitFlag cfg f u.1)
            else f.findings) u.1 u.2).2 := rfl
  -- putting the case into the queue first does not touch the crashes
  have hstart : CrashesSame f.findings
      (if newBitFlag cfg f u.1 != 0 then fileInteresting cfg f u.1 (newBitFlag cfg f u.1)
        else f.findings) := by
    split
    · exact ⟨rfl, rfl⟩
    · exact ⟨rfl, rfl⟩
  revert hstep hstart
  generalize (if newBitFlag cfg f u.1 != 0 then fileInteresting cfg f u.1 (newBitFlag cfg f u.1)
    else f.findings) = fs
  intro hstep hstart
  obtain ⟨b, fs', heq, h⟩ := fileExecution_cases cfg (newBitFlag cfg f u.1 != 0) fs u.1 u.2
  rw [heq] at hstep
  rw [hstep]
  unfold NewCrash at h ⊢
  rw [hstart.trace] at h
  rcases h with ⟨hnew, hsaved⟩ | ⟨hnew, hsame⟩
  · refine .inl ⟨hnew, ?_, ?_, hsaved.file⟩
    · rw [hsaved.count, hstart.count]
    · intro i
      rw [hsaved.trace, hstart.trace]
  · exact .inr ⟨hnew, hsame.count.trans hstart.count, hsame.trace.trans hstart.trace⟩

/-! ## Along a sequence of calls -/

/-- `crashTrace` is the union of the global traces of the saved crashes, each of
which brought an index of its own, and the counter counts them. -/
structure CrashInv (fs : Findings) (saved : List Execution) : Prop where
  trace : ∀ i, fs.crashTrace i = true ↔ ∃ c ∈ saved, c.globalTraceBit i ≠ 0
  count : fs.uniqueCrashCount = UInt32.ofNat saved.length
  length_le : saved.length ≤ (Finset.univ.filter fun i => fs.crashTrace i = true).card

theorem CrashInv.toNat_count {fs : Findings} {saved : List Execution} (h : CrashInv fs saved) :
    fs.uniqueCrashCount.toNat = saved.length := by
  have hcard := h.length_le.trans (Finset.card_le_univ _)
  rw [Fintype.card_fin] at hcard
  have hlt : saved.length < 2 ^ 32 := hcard.trans_lt (by rw [mapSize]; omega)
  rw [h.count, UInt32.toNat_ofNat', Nat.mod_eq_of_lt hlt]

/-- In terms of the saved crashes, a new crash is one with an index of its own in
the global map. -/
theorem CrashInv.newCrash_iff {fs : Findings} {saved : List Execution} (h : CrashInv fs saved)
    (e : Execution) :
    NewCrash fs e ↔ e.status = .crash ∧ HasOwnIndex Execution.globalTraceBit saved e := by
  unfold NewCrash HasOwnIndex
  rw [hasNewTraceBit_iff]
  refine and_congr_right fun _ => exists_congr fun i => ?_
  rw [← Bool.not_eq_true, h.trace]
  unfold minimizeBit
  rw [bne_iff_ne]
  push Not
  rfl

theorem crashInv_saved {cfg : Config} {fs fs' : Findings} {saved : List Execution} {e : Execution}
    (h : CrashInv fs saved) (hnew : NewCrash fs e) (hsaved : CrashSaved cfg e fs fs') :
    CrashInv fs' (saved ++ [e]) where
  trace i := by
    rw [hsaved.trace, Bool.or_eq_true, h.trace]
    unfold minimizeBit
    rw [bne_iff_ne]
    constructor
    · rintro (⟨c, hc, hi⟩ | hi)
      · exact ⟨c, List.mem_append_left _ hc, hi⟩
      · exact ⟨e, List.mem_append_right _ (List.mem_singleton_self e), hi⟩
    · rintro ⟨c, hc, hi⟩
      rcases List.mem_append.mp hc with hc | hc
      · exact .inl ⟨c, hc, hi⟩
      · obtain rfl := List.mem_singleton.mp hc
        exact .inr hi
  count := by
    rw [hsaved.count, h.count, List.length_append, List.length_singleton, UInt32.ofNat_add]
    rfl
  length_le := by
    obtain ⟨i, hi, hseen⟩ := (hasNewTraceBit_iff ..).mp hnew.2
    rw [List.length_append, List.length_singleton]
    refine (Nat.succ_le_succ h.length_le).trans (Finset.card_lt_card ?_)
    refine Finset.ssubset_iff_of_subset (fun j hj => ?_) |>.mpr ⟨i, ?_, ?_⟩
    · rw [Finset.mem_filter] at hj ⊢
      refine ⟨hj.1, ?_⟩
      rw [hsaved.trace, hj.2, Bool.true_or]
    · rw [Finset.mem_filter]
      refine ⟨Finset.mem_univ i, ?_⟩
      rw [hsaved.trace, hi, Bool.or_true]
    · rw [Finset.mem_filter, hseen]
      exact fun h => absurd h.2 (by decide)

theorem add_one_ne_self (x : UInt32) : x + 1 ≠ x := by simp

theorem savedBy_of_count {cfg : Config} {f : FuzzerState} {u : Execution × Execution}
    (h : (stepInteresting cfg f u).findings.uniqueCrashCount = f.findings.uniqueCrashCount + 1) :
    savedBy cfg f u = [u.1] := by
  unfold savedBy
  rw [if_neg (by rw [h]; exact add_one_ne_self _)]

/-- A call that adds a crash saves it. -/
theorem savesCrash_of_savedBy {cfg : Config} {f : FuzzerState} {u : Execution × Execution}
    (h : savedBy cfg f u ≠ []) : SavesCrash cfg f u := by
  rcases stepInteresting_crash cfg f u with ⟨-, hsaved⟩ | ⟨-, hsame⟩
  · exact ⟨hsaved.count, hsaved.file⟩
  · refine absurd ?_ h
    unfold savedBy
    rw [if_pos hsame.count]

theorem crashInv_step {cfg : Config} {f : FuzzerState} {saved : List Execution}
    (h : CrashInv f.findings saved) (u : Execution × Execution) :
    CrashInv (stepInteresting cfg f u).findings (saved ++ savedBy cfg f u) := by
  rcases stepInteresting_crash cfg f u with ⟨hnew, hsaved⟩ | ⟨-, hsame⟩
  · rw [savedBy_of_count hsaved.count]
    exact crashInv_saved h hnew hsaved
  · unfold savedBy
    rw [if_pos hsame.count, List.append_nil]
    refine ⟨fun i => ?_, hsame.count.trans h.count, ?_⟩
    · rw [hsame.trace]
      exact h.trace i
    · rw [hsame.trace]
      exact h.length_le

/-- **Along any sequence of calls**. -/
theorem crashInv_run (cfg : Config) (seeds : List Seed) (attached : CovMap × CovMap)
    (us : List (Execution × Execution)) :
    CrashInv (run (stepInteresting cfg) (.init seeds attached) us).findings
      (savedCrashes cfg (.init seeds attached) us) := by
  have hstart : CrashInv (FuzzerState.init seeds attached).findings (List.flatten []) := by
    refine ⟨fun i => ?_, rfl, Nat.zero_le _⟩
    exact ⟨fun h => absurd h Bool.false_ne_true, fun ⟨c, hc, _⟩ => absurd hc List.not_mem_nil⟩
  refine outputs_inv (fun saved (f : FuzzerState) => CrashInv f.findings saved.flatten) ?_
    hstart us
  intro saved f u h
  rw [List.flatten_append, List.flatten_singleton]
  exact crashInv_step h u

/-- The counter tells whether something is saved. -/
theorem one_le_count_iff (cfg : Config) (seeds : List Seed) (attached : CovMap × CovMap)
    (us : List (Execution × Execution)) :
    1 ≤ (run (stepInteresting cfg) (.init seeds attached) us).findings.uniqueCrashCount
      ↔ 1 ≤ (savedCrashes cfg (.init seeds attached) us).length := by
  rw [UInt32.le_iff_toNat_le, (crashInv_run cfg seeds attached us).toNat_count]
  rfl

/-! ## What should be kept -/

/-- The map that guides the campaign. -/
def guide (cfg : Config) (e : Execution) : CovMap :=
  if cfg.isBranchCoverage then e.branchTraceBit else e.globalTraceBit

/-- After every call that there was a crash at all, one is saved; and a crash is
saved if in the map that guides the campaign it hits an index that no earlier
saved crash hits. -/
structure CrashesKept (cfg : Config) (f : FuzzerState) (us : List (Execution × Execution)) :
    Prop where
  some_saved : ∀ pre post, us = pre ++ post → (∃ u ∈ pre, u.1.status = .crash) →
    1 ≤ (run (stepInteresting cfg) f pre).findings.uniqueCrashCount
  new_saved : ∀ pre u post, us = pre ++ u :: post → u.1.status = .crash →
    HasOwnIndex (guide cfg) (savedCrashes cfg f pre) u.1 →
    SavesCrash cfg (run (stepInteresting cfg) f pre) u

/-- A crash is saved exactly if it has an index of its own in the global map. -/
theorem savesCrash_iff (cfg : Config) (seeds : List Seed) (attached : CovMap × CovMap)
    (pre : List (Execution × Execution)) {u : Execution × Execution} (hu : u.1.status = .crash) :
    SavesCrash cfg (run (stepInteresting cfg) (.init seeds attached) pre) u ↔
      HasOwnIndex Execution.globalTraceBit (savedCrashes cfg (.init seeds attached) pre) u.1 := by
  have hnewCrash := (crashInv_run cfg seeds attached pre).newCrash_iff u.1
  rw [and_iff_right hu] at hnewCrash
  rw [← hnewCrash]
  unfold SavesCrash
  rcases stepInteresting_crash cfg (run (stepInteresting cfg) (.init seeds attached) pre) u with
    ⟨hnew, hsaved⟩ | ⟨hnew, hsame⟩
  · exact iff_of_true ⟨hsaved.count, hsaved.file⟩ hnew
  · refine iff_of_false (fun h => ?_) hnew
    exact add_one_ne_self _ (h.1.symm.trans hsame.count)

theorem savedCrashes_length_le (cfg : Config) (f : FuzzerState)
    (us vs : List (Execution × Execution)) :
    (savedCrashes cfg f us).length ≤ (savedCrashes cfg f (us ++ vs)).length := by
  induction vs using List.reverseRecOn with
  | nil => rw [List.append_nil]
  | append_singleton vs v ih =>
    rw [← List.append_assoc, savedCrashes_concat, List.length_append]
    exact ih.trans (Nat.le_add_right _ _)

/-- **Crashes are kept** along a sequence of calls if and only if each crash that
comes while nothing is saved, or that has an index of its own in the map that
guides the campaign, has an index of its own in the global map. -/
theorem crashes_kept_iff (cfg : Config) (seeds : List Seed) (attached : CovMap × CovMap)
    (us : List (Execution × Execution)) :
    CrashesKept cfg (.init seeds attached) us ↔
      ∀ pre u post, us = pre ++ u :: post → u.1.status = .crash →
        savedCrashes cfg (.init seeds attached) pre = [] ∨
          HasOwnIndex (guide cfg) (savedCrashes cfg (.init seeds attached) pre) u.1 →
        HasOwnIndex Execution.globalTraceBit (savedCrashes cfg (.init seeds attached) pre) u.1 := by
  constructor
  · intro h pre u post heq hu hshould
    rw [← savesCrash_iff cfg seeds attached pre hu]
    rcases hshould with hnil | hown
    · -- the counter was `0` and is at least `1` after the call
      have hsome := h.some_saved (pre ++ [u]) post (by rw [heq, List.append_assoc]; rfl)
        ⟨u, List.mem_append_right _ (List.mem_singleton_self u), hu⟩
      rw [one_le_count_iff, savedCrashes_concat, hnil, List.nil_append] at hsome
      exact savesCrash_of_savedBy (List.ne_nil_of_length_pos hsome)
    · exact h.new_saved pre u post heq hu hown
  · intro h
    refine ⟨fun pre post heq hcrash => ?_, fun pre u post heq hu hown => ?_⟩
    · obtain ⟨u, hmem, hu⟩ := hcrash
      obtain ⟨a, b, rfl⟩ := List.append_of_mem hmem
      rw [one_le_count_iff]
      -- before the crash something is saved, or the crash is
      by_cases hnil : savedCrashes cfg (.init seeds attached) a = []
      · have hown := h a u (b ++ post) (by rw [heq, List.append_assoc]; rfl) hu (.inl hnil)
        have hsaves := (savesCrash_iff cfg seeds attached a hu).mpr hown
        have hone : 1 ≤ (savedCrashes cfg (.init seeds attached) (a ++ [u])).length := by
          rw [savedCrashes_concat, hnil, List.nil_append, savedBy_of_count hsaves.1]
          exact le_rfl
        rw [List.append_cons]
        exact hone.trans (savedCrashes_length_le ..)
      · exact (List.length_pos_of_ne_nil hnil).trans_le (savedCrashes_length_le ..)
    · exact (savesCrash_iff cfg seeds attached pre hu).mpr (h pre u post heq hu (.inr hown))

/-- A crash that hits one branch and records nothing in the global map. -/
def branchCrash (i : Fin mapSize) : Execution := ⟨[0], .crash, fun _ => 0, oneHit i⟩

/-- Under `-b`, the first crash of a campaign is not saved although it hits a
branch. -/
theorem branchCrash_lost :
    ¬CrashesKept ⟨true, "out/", .alone⟩ (.init [] (virgin, virgin))
      [(branchCrash ⟨0, mapSize_pos⟩, branchCrash ⟨0, mapSize_pos⟩)] := by
  intro h
  have hsaves := h.new_saved [] _ [] rfl rfl
    ⟨⟨0, mapSize_pos⟩, by simp [guide, branchCrash, oneHit], fun c hc => absurd hc List.not_mem_nil⟩
  obtain ⟨i, hi, -⟩ := (savesCrash_iff ⟨true, "out/", .alone⟩ [] (virgin, virgin) [] rfl).mp hsaves
  exact hi rfl

end DistFuzz.Fuzzer
