import DistFuzz.Fuzzer.Injection

/-!
# Pruning fault sets (FaultInjectionEngin.cpp:24–104)

`ErrorListMutate` turns one error site after the other on or off and executes the target
with the list. A list is left out when it contains a set of fault points that crashed the
target before: that crash is known. Which sets these are is up to `ex_crash_handler`.

- `errorListMutate`; `errorListMutate_unchanged`: it gives the list back as it was;
  `errorListMutate_run`: it is a sequence of calls of `FuzzUnit`.
- `crashedFaults`: the fault points of the crashes so far, whatever was done with them.
- `Prunes`: a list is left out for an earlier crash that had a fault point, and for no other
  reason.
- `fault_pruning_iff`: the runs in which that holds throughout. A crash that a control matrix
  has part in is saved with the error list that is there, and with fault injection at rest
  that is the empty set, which every list contains.
-/

namespace DistFuzz.Fuzzer

open DistFuzz.Lib

/-! ## `ErrorListMutate` -/

/-- `flip_bit`: `mem[bit_loc] = 1 - mem[bit_loc]`. -/
def flipErrorBit (errorList : ErrorList) (loc : Fin maxListSize) : ErrorList :=
  Function.update errorList loc (1 - errorList loc)

theorem flipErrorBit_flipErrorBit (errorList : ErrorList) (loc : Fin maxListSize) :
    flipErrorBit (flipErrorBit errorList loc) loc = errorList := by
  rw [flipErrorBit, flipErrorBit, Function.update_self, Function.update_idem, sub_sub_self,
    Function.update_eq_self]

/-- A call of `FuzzUnit` with an error list. -/
def Outcome.withErrors (o : Outcome) (errorList : ErrorList) : InjectedInput :=
  { o with errorList := some errorList, controlMatrix := none }

section Mutate

-- what becomes of the first execution, and of the one for site `i` at `i + 1`
variable (build : Build) (cfg : Config) (outcome : Nat → Outcome)

/-- The loop of `ErrorListMutate` at site `i`. -/
def errorTurn (tmpTrace : ErrorList) (ls : ErrorList × InjectionState) (i : Fin maxListSize) :
    ErrorList × InjectionState :=
  if tmpTrace i = 0 then ls
  else
    let flipped := flipErrorBit ls.1 i
    (flipErrorBit flipped i,
     if isUniqueFault ls.2.fuList flipped then
       fuzzUnitIn build cfg ls.2 ((outcome (i + 1)).withErrors flipped)
     else ls.2)

/-- `ErrorListMutate`: the list and the globals after it. `FuzzUnit` always returns 0. -/
def errorListMutate (errorList : ErrorList) (s : InjectionState) : ErrorList × InjectionState :=
  let s := fuzzUnitIn build cfg s ((outcome 0).withErrors errorList)
  (List.finRange maxListSize).foldl (errorTurn build cfg outcome s.errorTraced) (errorList, s)

variable {build cfg outcome}

theorem errorTurn_unchanged (tmpTrace : ErrorList) (ls : ErrorList × InjectionState)
    (i : Fin maxListSize) : (errorTurn build cfg outcome tmpTrace ls i).1 = ls.1 := by
  rw [errorTurn]
  split
  · rfl
  · exact flipErrorBit_flipErrorBit ls.1 i

/-- Every bit that is flipped is flipped back. -/
theorem errorListMutate_unchanged (errorList : ErrorList) (s : InjectionState) :
    (errorListMutate build cfg outcome errorList s).1 = errorList := by
  refine run_inv' (fun ls : ErrorList × InjectionState => ls.1 = errorList) (fun ls i hls => ?_)
    rfl (List.finRange maxListSize)
  rw [errorTurn_unchanged, hls]

/-- What holds of sequences of `FuzzUnit` calls holds of `ErrorListMutate`. -/
theorem errorListMutate_run (errorList : ErrorList) (s : InjectionState) :
    ∃ us, (errorListMutate build cfg outcome errorList s).2 = run (fuzzUnitIn build cfg) s us := by
  refine run_inv' (fun ls : ErrorList × InjectionState =>
    ∃ us, ls.2 = run (fuzzUnitIn build cfg) s us) ?_ ⟨[_], rfl⟩ (List.finRange maxListSize)
  rintro ls i ⟨us, hus⟩
  rw [errorTurn]
  split
  · exact ⟨us, hus⟩
  · dsimp only
    split
    · exact ⟨us ++ [_], by rw [run_concat, hus]⟩
    · exact ⟨us, hus⟩

end Mutate

/-! ## Crashes and what is left out -/

instance (cfg : Config) (f : FuzzerState) (u : UnitInput) : Decidable (Executes cfg f u) :=
  inferInstanceAs (Decidable (_ ∧ _))

section Runs

variable (build : Build) (cfg : Config)

/-- The fault points of a call that crashed the target. -/
def crashedFault (s : InjectionState) (u : InjectedInput) : Option FaultUnit :=
  if Executes cfg s.toFuzzerState u.toUnitInput ∧ u.exec.status = .crash then
    some (faultUnit (atExecution build cfg s u).errorList)
  else none

/-- The fault points of the crashes of a run. -/
def crashedFaults (s : InjectionState) (us : List InjectedInput) : List FaultUnit :=
  (outputs (fuzzUnitIn build cfg) (crashedFault build cfg) s us).reduceOption

/-- After a run, `is_unique_fault` rejects for crashes with a fault point only, every list that
contains a saved set is rejected, and `ErrorListMutate` leaves the list as it was. -/
structure Prunes (s : InjectionState) (us : List InjectedInput) : Prop where
  sound : ∀ errorList, isUniqueFault (run (fuzzUnitIn build cfg) s us).fuList errorList = false →
    ∃ fu ∈ crashedFaults build cfg s us, fu.Nonempty ∧ fu ⊆ faultUnit errorList
  complete : ∀ fu ∈ (run (fuzzUnitIn build cfg) s us).fuList, ∀ errorList,
    fu ⊆ faultUnit errorList →
      isUniqueFault (run (fuzzUnitIn build cfg) s us).fuList errorList = false
  unchanged : ∀ outcome errorList,
    (errorListMutate build cfg outcome errorList (run (fuzzUnitIn build cfg) s us)).1 = errorList

/-- If the call gets to `ex_crash_handler`, its error list has a fault point. -/
def CrashHasFault (s : InjectionState) (u : InjectedInput) : Prop :=
  ReachesExCrash build cfg s u → (faultUnit (atExecution build cfg s u).errorList).Nonempty

variable {build cfg}

/-- **One call**: the saved sets stay, and what is added is the fault set of the crash. -/
theorem mem_fuzzUnitIn_fuList {s : InjectionState} {u : InjectedInput} {fu : FaultUnit}
    (h : fu ∈ (fuzzUnitIn build cfg s u).fuList) :
    fu ∈ s.fuList ∨ ReachesExCrash build cfg s u ∧
      fu = faultUnit (atExecution build cfg s u).errorList := by
  by_cases hreach : ReachesExCrash build cfg s u
  · rw [fuzzUnitIn_fuList_of_reaches hreach] at h
    split at h
    · rw [saveCrashedFu, List.mem_append, List.mem_singleton] at h
      exact h.imp_right fun heq => ⟨hreach, heq⟩
    · exact .inl h
  · rw [fuzzUnitIn_fuList_of_not_reaches hreach] at h
    exact .inl h

/-- Every saved set is the fault set of a crash. -/
theorem fuList_subset_crashedFaults (f : FuzzerState) (us : List InjectedInput) :
    (run (fuzzUnitIn build cfg) (.start f) us).fuList
      ⊆ crashedFaults build cfg (.start f) us := by
  have hstep : ∀ (os : List (Option FaultUnit)) (s : InjectionState) (u : InjectedInput),
      s.fuList ⊆ os.reduceOption → (fuzzUnitIn build cfg s u).fuList
        ⊆ (os ++ [crashedFault build cfg s u]).reduceOption := by
    intro os s u hs fu hfu
    rw [List.reduceOption_append]
    rcases mem_fuzzUnitIn_fuList hfu with hold | ⟨hreach, rfl⟩
    · exact List.mem_append_left _ (hs hold)
    · rw [crashedFault, if_pos ⟨hreach.1, hreach.2.1⟩]
      exact List.mem_append_right _ (List.mem_singleton_self _)
  have hinit : (InjectionState.start f).fuList ⊆ ([] : List (Option FaultUnit)).reduceOption :=
    List.nil_subset _
  exact outputs_inv (fun os (s : InjectionState) => s.fuList ⊆ os.reduceOption) hstep hinit us

/-- Crashes with a fault point save sets that are not empty. -/
theorem nonempty_of_mem_fuList {f : FuzzerState} {us : List InjectedInput}
    (h : Steps (fuzzUnitIn build cfg) (CrashHasFault build cfg) (.start f) us) :
    ∀ fu ∈ (run (fuzzUnitIn build cfg) (.start f) us).fuList, fu.Nonempty := by
  refine run_inv (fun s => ∀ fu ∈ s.fuList, fu.Nonempty) (fun s u hs hok fu hfu => ?_)
    (fun fu hfu => absurd hfu List.not_mem_nil) h
  rcases mem_fuzzUnitIn_fuList hfu with hold | ⟨hreach, rfl⟩
  · exact hs fu hold
  · exact hok hreach

/-- A crash without a fault point leaves the empty set among the saved ones. -/
theorem empty_mem_fuList {s : InjectionState} {u : InjectedInput}
    (hreach : ReachesExCrash build cfg s u)
    (hempty : faultUnit (atExecution build cfg s u).errorList = ∅) :
    ∅ ∈ (fuzzUnitIn build cfg s u).fuList := by
  rw [fuzzUnitIn_fuList_of_reaches hreach]
  split
  · rw [saveCrashedFu, hempty]
    exact List.mem_append_right _ (List.mem_singleton_self _)
  · next hknown =>
    -- what is known already is contained in the empty set
    obtain ⟨fu, hfu, hsub⟩ := isUniqueFault_eq_false_iff.mp (Bool.eq_false_iff.mpr hknown)
    rw [hempty, Finset.subset_empty] at hsub
    rwa [← hsub]

theorem isUniqueFault_of_empty_mem {fuList : List FaultUnit} (h : ∅ ∈ fuList)
    (errorList : ErrorList) : isUniqueFault fuList errorList = false :=
  isUniqueFault_eq_false_iff.mpr ⟨∅, h, Finset.empty_subset _⟩

theorem faultUnit_zero : faultUnit (fun _ => 0) = ∅ := by
  refine Finset.eq_empty_of_forall_notMem fun i hi => ?_
  rw [mem_faultUnit] at hi
  exact absurd hi (by decide)

end Runs

/-- **Fault-set pruning**: in every build, pruning is right throughout a run if and only if no
call of the run gets to `ex_crash_handler` with an error list without fault point. -/
theorem fault_pruning_iff (build : Build) (cfg : Config) (f : FuzzerState)
    (us : List InjectedInput) :
    (∀ pre post, us = pre ++ post → Prunes build cfg (.start f) pre)
      ↔ Steps (fuzzUnitIn build cfg) (CrashHasFault build cfg) (.start f) us := by
  constructor
  · intro h
    refine steps_iff.mpr fun pre u post hus hreach => ?_
    by_contra hnone
    have hempty := empty_mem_fuList hreach (Finset.not_nonempty_iff_eq_empty.mp hnone)
    have hprunes := h (pre ++ [u]) post (by rw [hus, List.append_assoc, List.singleton_append])
    rw [← run_concat (fuzzUnitIn build cfg)] at hempty
    -- then a list without fault point is rejected, and no set with one is contained in it
    obtain ⟨fu, -, hfu, hsub⟩ :=
      hprunes.sound (fun _ => 0) (isUniqueFault_of_empty_mem hempty _)
    rw [faultUnit_zero, Finset.subset_empty] at hsub
    exact hfu.ne_empty hsub
  · rintro h pre post rfl
    have hsteps := (steps_append.mp h).1
    refine ⟨fun errorList hreject => ?_, fun fu hfu errorList hsub => ?_, fun outcome errorList =>
      errorListMutate_unchanged errorList _⟩
    · obtain ⟨fu, hfu, hsub⟩ := isUniqueFault_eq_false_iff.mp hreject
      exact ⟨fu, fuList_subset_crashedFaults f pre hfu, nonempty_of_mem_fuList hsteps fu hfu, hsub⟩
    · exact isUniqueFault_eq_false_iff.mpr ⟨fu, hfu, hsub⟩

/-! ## A crash under a control matrix -/

def travelOne : TravelMatrix := .ofFront [⟨1, 2⟩] (by decide)

/-- The target crashes after it travelled the one pair. -/
def delayCrash : InjectedExecution :=
  { mem := [0], status := .crash, globalTraceBit := fun _ => 0, branchTraceBit := fun _ => 0
    errorTraced := fun _ => 0, travelMatrix := travelOne }

def delayCrashInput : InjectedInput :=
  { exec := delayCrash, rerun := delayCrash, peers := (virgin, virgin), errorList := none
    controlMatrix := some onePair }

def bothBuild : Build := ⟨true, true⟩

def aloneConfig : Config := ⟨false, "out/", .alone⟩

def freshState : InjectionState := .start (.init [] (virgin, virgin))

theorem isControlMatrixTriggered_one : isControlMatrixTriggered onePair travelOne = true := by
  have hreached : ∃ rest, reached onePair travelOne = ⟨1, 2⟩ :: rest := ⟨_, rfl⟩
  obtain ⟨rest, hreached⟩ := hreached
  have hused : travelOne.used = [⟨1, 2⟩] := used_ofFront _ (by decide)
  rw [isControlMatrixTriggered, hreached, hused]
  rfl

theorem reachesExCrash_delayCrash : ReachesExCrash bothBuild aloneConfig freshState
    delayCrashInput := by
  refine ⟨⟨rfl, rfl⟩, rfl, ?_⟩
  have hcflag : cflag bothBuild (atExecution bothBuild aloneConfig freshState delayCrashInput)
      delayCrash = true := isControlMatrixTriggered_one
  show (_ || cflag bothBuild (atExecution bothBuild aloneConfig freshState delayCrashInput)
    delayCrash) = true
  rw [hcflag, Bool.or_true]

/-- One crash under a control matrix, with the error list all zeros: from then on every error
list is rejected, though no crash had a fault point. -/
theorem delay_crash_rejects_all :
    (∀ errorList, isUniqueFault
      (run (fuzzUnitIn bothBuild aloneConfig) freshState [delayCrashInput]).fuList errorList
        = false) ∧
    ∀ fu ∈ crashedFaults bothBuild aloneConfig freshState [delayCrashInput], fu = ∅ := by
  have hzero : (atExecution bothBuild aloneConfig freshState delayCrashInput).errorList
      = fun _ => 0 := rfl
  have hempty : faultUnit (atExecution bothBuild aloneConfig freshState delayCrashInput).errorList
      = ∅ := by rw [hzero, faultUnit_zero]
  have hreach := reachesExCrash_delayCrash
  rw [run_cons, run_nil]
  refine ⟨isUniqueFault_of_empty_mem (empty_mem_fuList hreach hempty), fun fu hfu => ?_⟩
  rw [crashedFaults, outputs, outputs, crashedFault, if_pos ⟨hreach.1, hreach.2.1⟩, hempty] at hfu
  exact List.mem_singleton.mp hfu

end DistFuzz.Fuzzer
