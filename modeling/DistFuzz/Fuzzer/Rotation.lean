import DistFuzz.Fuzzer.Favored

/-!
# Turns of the main loop (Main.cpp:505–518, FuzzOne.cpp:1255–1274)

`main` walks over the queue in rounds. The queue grows at its end while it is walked, so a
seed that is found in a round has its first turn in the same round, and in every round each
seed has one turn. Whether the turn is used is another question: the marks and `pendFavor`
are as the first cull left them, and no seed that is found later is favored.

- `turn?`: the seed that a step calls `FuzzMain` on; `turns`, those of a run.
- `roundEnd?`: how long the queue is when a step finds its end; `roundEnds`, those of a run.
- `Tour`, `tour_step`, `turns_in_rounds`: the turns are whole rounds, each over the queue as
  it was when the round ended, and a part of one.
- `Frozen`, `frozen_step`: what no step changes about the marks.
- `found_seed_skipped_iff`: one turn in a hundred of a seed that was found later is used.
-/

namespace DistFuzz.Fuzzer

open DistFuzz.Lib

/-! ## Rounds -/

/-- The position that this step calls `FuzzMain` on. -/
def turn? (s : MainState) : MainInput → Option Nat
  | .fuzzMain _ =>
    if s.fuzzer.halted = false ∧ s.phase = .loopHead ∧
        (atFuzzMain s).queueCur < (atFuzzMain s).fuzzer.seeds.queue.length then
      some (atFuzzMain s).queueCur
    else none
  | .unit _ => none
  | .ret _ => none

/-- The turns of a run, in order. -/
def turns (cfg : Config) (s : MainState) (inputs : List MainInput) : List Nat :=
  (outputs (stepMain cfg) turn? s inputs).reduceOption

/-- The length of the queue if this step finds that every seed has had its turn, and starts
another round. -/
def roundEnd? (s : MainState) : MainInput → Option Nat
  | .fuzzMain _ =>
    if s.fuzzer.halted = false ∧ s.phase = .loopHead ∧
        s.queueCur = s.fuzzer.seeds.queue.length then
      some s.fuzzer.seeds.queue.length
    else none
  | .unit _ => none
  | .ret _ => none

/-- How long the queue was when the rounds of a run ended, in order. -/
def roundEnds (cfg : Config) (s : MainState) (inputs : List MainInput) : List Nat :=
  (outputs (stepMain cfg) roundEnd? s inputs).reduceOption

/-- How many seeds have had their turn in this round. -/
def MainState.served (s : MainState) : Nat :=
  match s.phase with
  | .loopHead => s.queueCur
  | .fuzzing => s.queueCur + 1

/-- The turns are those of whole rounds, each over a queue of the given length, and of the
seeds served in this one. The queue had `n₀` seeds at first and has never become shorter. -/
def InRounds (n₀ : Nat) (ts : List Nat) (s : MainState) (lens : List Nat) : Prop :=
  ts = lens.flatMap List.range ++ List.range s.served ∧
    s.queueCycle = UInt64.ofNat lens.length ∧
    (n₀ :: lens ++ [s.fuzzer.seeds.queue.length]).Pairwise (· ≤ ·)

/-- Turns and rounds so far, while no score changes. `lens` are the lengths of the queue at which
the rounds ended. -/
structure Tour (n₀ : Nat) (ts lens : List Nat) (s : MainState) : Prop where
  unchanged : s.fuzzer.seeds.scoreChange = false
  inside : s.served ≤ s.fuzzer.seeds.queue.length
  rounds : InRounds n₀ ts s lens

/-- What is above all elements of a list may grow. -/
theorem pairwise_concat_le {l : List Nat} {n m : Nat} (h : (l ++ [n]).Pairwise (· ≤ ·))
    (hnm : n ≤ m) : (l ++ [m]).Pairwise (· ≤ ·) ∧ (l ++ [n] ++ [m]).Pairwise (· ≤ ·) := by
  have hbelow : ∀ a ∈ l ++ [n], a ≤ m := by
    intro a ha
    rw [List.pairwise_append] at h
    rcases List.mem_append.mp ha with ha | ha
    · exact (h.2.2 a ha n (List.mem_singleton_self n)).trans hnm
    · exact List.mem_singleton.mp ha ▸ hnm
  have hall : (l ++ [n] ++ [m]).Pairwise (· ≤ ·) := by
    refine List.pairwise_append.mpr ⟨h, List.pairwise_singleton _ _, fun a ha b hb => ?_⟩
    rw [List.mem_singleton.mp hb]
    exact hbelow a ha
  refine ⟨hall.sublist ?_, hall⟩
  exact (List.sublist_append_left l [n]).append (List.Sublist.refl [m])

section Turns

variable {n₀ : Nat} {ts lens : List Nat} {s s' : MainState}

/-- Between two turns the queue may only grow. -/
theorem Tour.of_grown (h : Tour n₀ ts lens s) (hchange : s'.fuzzer.seeds.scoreChange = false)
    (hserved : s'.served = s.served) (hcycle : s'.queueCycle = s.queueCycle)
    (hlen : s.fuzzer.seeds.queue.length ≤ s'.fuzzer.seeds.queue.length) :
    Tour n₀ ts lens s' := by
  obtain ⟨hts, hlens, hmono⟩ := h.rounds
  refine ⟨hchange, hserved ▸ h.inside.trans hlen, ?_, ?_, (pairwise_concat_le hmono hlen).1⟩
  · rw [hserved, hts]
  · rw [hcycle, hlens]

/-- All seeds have had their turn, those found in this round included. -/
theorem Tour.wrap (h : Tour n₀ ts lens s) (hend : s.served = s.fuzzer.seeds.queue.length)
    (hseeds : s'.fuzzer.seeds = s.fuzzer.seeds) (hcycle : s'.queueCycle = s.queueCycle + 1)
    (hserved : s'.served = 0) : Tour n₀ ts (lens ++ [s.fuzzer.seeds.queue.length]) s' := by
  obtain ⟨hts, hlens, hmono⟩ := h.rounds
  refine ⟨hseeds ▸ h.unchanged, hserved ▸ Nat.zero_le _, ?_, ?_, ?_⟩
  · rw [hserved, hts, hend, List.flatMap_append, List.flatMap_singleton, List.range_zero,
      List.append_nil]
  · rw [hcycle, hlens, List.length_append, List.length_singleton, UInt64.ofNat_add]
    rfl
  · rw [hseeds]
    exact (pairwise_concat_le hmono (Nat.le_refl _)).2

/-- The head of the loop, where a round may end. -/
theorem tour_atFuzzMain (h : Tour n₀ ts lens s) (hphase : s.phase = .loopHead) :
    Tour n₀ ts (lens ++ (if s.queueCur = s.fuzzer.seeds.queue.length then
      [s.fuzzer.seeds.queue.length] else [])) (atFuzzMain s) ∧
    (atFuzzMain s).phase = .loopHead := by
  have hcull := SeedQueue.cullQueue_of_unchanged h.unchanged
  have hserved : s.served = s.queueCur := by rw [MainState.served, hphase]
  unfold atFuzzMain
  rw [hcull]
  dsimp only
  by_cases hend : s.queueCur = s.fuzzer.seeds.queue.length
  · rw [if_pos hend, if_pos hend]
    refine ⟨h.wrap (hserved.trans hend) rfl rfl ?_, hphase⟩
    rw [MainState.served, hphase]
  · rw [if_neg hend, if_neg hend, List.append_nil]
    exact ⟨h.of_grown h.unchanged rfl rfl (Nat.le_refl _), hphase⟩

/-- One more seed has its turn. -/
theorem Tour.serve (h : Tour n₀ ts lens s) (hphase : s.phase = .loopHead)
    (hlt : s.queueCur < s.fuzzer.seeds.queue.length)
    (hseeds : s'.fuzzer.seeds = s.fuzzer.seeds) (hcycle : s'.queueCycle = s.queueCycle)
    (hserved : s'.served = s.queueCur + 1) : Tour n₀ (ts ++ [s.queueCur]) lens s' := by
  obtain ⟨hts, hlens, hmono⟩ := h.rounds
  have hserved' : s.served = s.queueCur := by rw [MainState.served, hphase]
  refine ⟨hseeds ▸ h.unchanged, ?_, ?_, hcycle.trans hlens, hseeds ▸ hmono⟩
  · rw [hserved, hseeds]
    exact hlt
  · rw [hserved, hts, hserved', List.range_succ, List.append_assoc]

/-- `FuzzMain` is called, and skips the seed or not. -/
theorem tour_callFuzzMain (h : Tour n₀ ts lens s) (hphase : s.phase = .loopHead) (rand : Nat) :
    Tour n₀ (ts ++ (if s.queueCur < s.fuzzer.seeds.queue.length then [s.queueCur] else []))
      lens (callFuzzMain s rand) := by
  rw [callFuzzMain]
  by_cases hlt : s.queueCur < s.fuzzer.seeds.queue.length
  · rw [if_pos hlt, List.getElem?_eq_getElem hlt]
    dsimp only
    split
    · refine h.serve hphase hlt rfl rfl ?_
      rw [MainState.served, hphase]
    · exact h.serve hphase hlt rfl rfl rfl
  · rw [if_neg hlt, List.append_nil, List.getElem?_eq_none (Nat.le_of_not_lt hlt)]
    exact h.of_grown h.unchanged rfl rfl (Nat.le_refl _)

theorem fuzzUnit_grows (cfg : Config) (f : FuzzerState) (u : UnitInput) :
    (fuzzUnit cfg f u).seeds.scoreChange = f.seeds.scoreChange ∧
      f.seeds.queue.length ≤ (fuzzUnit cfg f u).seeds.queue.length := by
  rcases fuzzUnit_seeds cfg f u with ⟨hsame, -⟩ | ⟨x, hnew, -⟩
  · rw [hsame]
    exact ⟨rfl, Nat.le_refl _⟩
  · rw [hnew]
    exact ⟨rfl, by rw [List.length_append]; exact Nat.le_add_right _ _⟩

theorem returnFuzzMain_seeds (s : MainState) (error : Bool) :
    (returnFuzzMain s error).fuzzer.seeds.scoreChange = s.fuzzer.seeds.scoreChange ∧
      (returnFuzzMain s error).fuzzer.seeds.queue.length = s.fuzzer.seeds.queue.length := by
  cases error with
  | true => exact ⟨rfl, rfl⟩
  | false => exact ⟨rfl, List.length_modify ..⟩

/-- There are no turns after the end and none while a seed is being fuzzed, and no round
ends. -/
theorem turn?_eq_none (h : s.fuzzer.halted = true ∨ s.phase = .fuzzing) (input : MainInput) :
    turn? s input = none ∧ roundEnd? s input = none := by
  have hnot : ¬(s.fuzzer.halted = false ∧ s.phase = .loopHead) := by
    rintro ⟨halive, hhead⟩
    rcases h with hhalt | hfuzzing
    · exact absurd (hhalt.symm.trans halive) (by decide)
    · exact absurd (hfuzzing.symm.trans hhead) (by decide)
  cases input with
  | fuzzMain rand =>
    exact ⟨if_neg fun hc => hnot ⟨hc.1, hc.2.1⟩, if_neg fun hc => hnot ⟨hc.1, hc.2.1⟩⟩
  | unit u => exact ⟨rfl, rfl⟩
  | ret e => exact ⟨rfl, rfl⟩

/-- What is put out if a condition holds. -/
theorem reduceOption_concat_ite (os : List (Option Nat)) (c : Prop) [Decidable c] (n : Nat) :
    (os ++ [if c then some n else none]).reduceOption
      = os.reduceOption ++ (if c then [n] else []) := by
  split
  · rw [reduceOption_concat_some]
  · rw [reduceOption_concat_none, List.append_nil]

/-- What a step adds to the turns and to the rounds. -/
theorem tour_step {os ends : List (Option Nat)} (cfg : Config)
    (h : Tour n₀ os.reduceOption ends.reduceOption s) (input : MainInput) :
    Tour n₀ (os ++ [turn? s input]).reduceOption (ends ++ [roundEnd? s input]).reduceOption
      (stepMain cfg s input) := by
  cases hhalt : s.fuzzer.halted with
  | true =>
    have hstay : stepMain cfg s input = s := if_pos hhalt
    obtain ⟨hturn, hend⟩ := turn?_eq_none (.inl hhalt) input
    rwa [hturn, hend, reduceOption_concat_none, reduceOption_concat_none, hstay]
  | false =>
    unfold stepMain
    rw [if_neg (by rw [hhalt]; exact Bool.false_ne_true)]
    cases hphase : s.phase with
    | loopHead =>
      cases input with
      | fuzzMain rand =>
        -- the end of the queue is looked for before the turn, and both may come in one step
        obtain ⟨htour, hhead⟩ := tour_atFuzzMain h hphase
        rw [turn?, roundEnd?, reduceOption_concat_ite, reduceOption_concat_ite, hhalt, hphase]
        simp only [true_and]
        exact tour_callFuzzMain htour hhead rand
      | unit u =>
        rw [turn?, roundEnd?, reduceOption_concat_none, reduceOption_concat_none]
        exact h
      | ret e =>
        rw [turn?, roundEnd?, reduceOption_concat_none, reduceOption_concat_none]
        exact h
    | fuzzing =>
      obtain ⟨hturn, hend⟩ := turn?_eq_none (.inr hphase) input
      rw [hturn, hend, reduceOption_concat_none, reduceOption_concat_none]
      cases input with
      | fuzzMain rand => exact h
      | unit u =>
        obtain ⟨hchange, hlen⟩ := fuzzUnit_grows cfg s.fuzzer u
        refine h.of_grown (hchange.trans h.unchanged) ?_ rfl hlen
        rw [MainState.served, MainState.served, hphase]
      | ret e =>
        obtain ⟨hchange, hlen⟩ := returnFuzzMain_seeds s e
        refine h.of_grown (hchange.trans h.unchanged) ?_ rfl hlen.ge
        rw [MainState.served, MainState.served, hphase]
        rfl

end Turns

/-- **Turns come in rounds**: in every run of the main loop the calls of `FuzzMain` are those
of whole rounds over the queue and of the front of one more round. A round has one turn for
each seed that is in the queue when it ends, those found in the round included, in the order
of the queue. No round is shorter than one before, and `queueCycle` counts them. -/
theorem turns_in_rounds (cfg : Config) (cases : List InitialCase) (attached : CovMap × CovMap)
    (inputs : List MainInput) :
    InRounds cases.length (turns cfg (mainStart cases attached) inputs)
        (run (stepMain cfg) (mainStart cases attached) inputs)
        (roundEnds cfg (mainStart cases attached) inputs) ∧
      (run (stepMain cfg) (mainStart cases attached) inputs).served
        ≤ (run (stepMain cfg) (mainStart cases attached) inputs).fuzzer.seeds.queue.length := by
  have hrun : Tour cases.length (turns cfg (mainStart cases attached) inputs)
      (roundEnds cfg (mainStart cases attached) inputs)
      (run (stepMain cfg) (mainStart cases attached) inputs) := by
    -- over the steps from the last one on, where both lists grow
    induction inputs using List.reverseRecOn with
    | nil =>
      refine ⟨SeedQueue.cullQueue_scoreChange _, Nat.zero_le _, rfl, rfl, ?_⟩
      rw [run_nil, mainStart_length]
      simp [roundEnds, outputs]
    | append_singleton inputs input ih =>
      rw [turns, roundEnds, outputs_concat, outputs_concat, run_concat]
      exact tour_step cfg ih input
  exact ⟨hrun.rounds, hrun.inside⟩

/-! ## Marks -/

/-- The marks are as they were at the start, and no seed that was found since has one. -/
structure Frozen (first q : SeedQueue) : Prop where
  unchanged : q.scoreChange = false
  pendFavor : q.pendFavor = first.pendFavor
  grown : first.queue.length ≤ q.queue.length
  favored : ∀ (i : Nat) (x : Seed), q.queue[i]? = some x →
    (x.favored = true ↔ ∃ y : Seed, first.queue[i]? = some y ∧ y.favored = true)

theorem frozen_refl {q : SeedQueue} (h : q.scoreChange = false) : Frozen q q := by
  refine ⟨h, rfl, Nat.le_refl _, fun i x hx => ⟨fun hfav => ⟨x, hx, hfav⟩, ?_⟩⟩
  rintro ⟨y, hy, hfav⟩
  rw [hx] at hy
  rwa [Option.some.inj hy]

section Marks

variable {first q : SeedQueue}

/-- A seed is found. -/
theorem Frozen.append (h : Frozen first q) {x : Seed} (hx : x.favored = false) :
    Frozen first { q with queue := q.queue ++ [x] } := by
  refine ⟨h.unchanged, h.pendFavor, ?_, fun i y hy => ?_⟩
  · rw [List.length_append]
    exact h.grown.trans (Nat.le_add_right _ _)
  · rcases Nat.lt_or_ge i q.queue.length with hi | hi
    · rw [List.getElem?_append_left hi] at hy
      exact h.favored i y hy
    · rw [List.getElem?_append_right hi] at hy
      obtain rfl := List.mem_singleton.mp (List.mem_of_getElem? hy)
      refine iff_of_false (by rw [hx]; exact Bool.false_ne_true) ?_
      rintro ⟨z, hz, -⟩
      have hlt := (List.getElem?_eq_some_iff.mp hz).1
      exact absurd (hlt.trans_le (h.grown.trans hi)) (Nat.lt_irrefl _)

/-- A seed is marked as fuzzed. -/
theorem Frozen.markFuzzed (h : Frozen first q) (cur : Nat) : Frozen first (q.markFuzzed cur) := by
  refine ⟨h.unchanged, h.pendFavor, h.grown.trans (List.length_modify ..).ge, fun i x hx => ?_⟩
  obtain ⟨y, hy, rfl⟩ := getElem?_modify_eq_some.mp hx
  rw [← h.favored i y hy]
  split
  · rfl
  · rfl

end Marks

/-- No step changes a mark. -/
theorem frozen_step {first : SeedQueue} (cfg : Config) {s : MainState}
    (h : Frozen first s.fuzzer.seeds) (input : MainInput) :
    Frozen first (stepMain cfg s input).fuzzer.seeds := by
  rcases stepMain_cases cfg s input with ⟨hsame, -⟩ | ⟨rand, rfl, hcull⟩ |
    ⟨u, rfl, -, hunit⟩ | ⟨error, rfl, -, hret⟩
  · rwa [hsame]
  · rwa [hcull, SeedQueue.cullQueue_of_unchanged h.unchanged]
  · rw [hunit]
    dsimp only
    rcases fuzzUnit_seeds cfg s.fuzzer u with ⟨hsame, -⟩ | ⟨x, hnew, hfav, -⟩
    · rwa [hsame]
    · rw [hnew]
      exact h.append hfav
  · rw [hret]
    cases error with
    | true => exact h
    | false => exact h.markFuzzed s.queueCur

theorem frozen_run (cfg : Config) (cases : List InitialCase) (attached : CovMap × CovMap)
    (inputs : List MainInput) : Frozen (mainStart cases attached).fuzzer.seeds
      (run (stepMain cfg) (mainStart cases attached) inputs).fuzzer.seeds := by
  have hstart : Frozen (mainStart cases attached).fuzzer.seeds
      (mainStart cases attached).fuzzer.seeds := frozen_refl (SeedQueue.cullQueue_scoreChange _)
  exact run_inv' (fun s : MainState => Frozen (mainStart cases attached).fuzzer.seeds
    s.fuzzer.seeds) (fun s i h => frozen_step cfg h i) hstart inputs

/-- A case whose dry run hit something makes `pendFavor` true. -/
theorem mainStart_pendFavor {cases : List InitialCase} {i : Fin mapSize} (hi : DryHit cases i)
    (attached : CovMap × CovMap) :
    (mainStart cases attached).fuzzer.seeds.pendFavor = true := by
  obtain ⟨t, tr, htr, hhit⟩ := dryHit_iff.mp hi
  have ht : t < cases.length := by
    obtain ⟨c, hc, -⟩ := Option.bind_eq_some_iff.mp htr
    exact (List.getElem?_eq_some_iff.mp hc).1
  have htrace : traceOf cases t i ≠ 0 := by rwa [traceOf, htr]
  obtain ⟨s, hs, hfav⟩ := exists_favored_start ht htrace attached
  obtain ⟨k, hk⟩ := List.mem_iff_getElem?.mp hs
  exact (pendInv_start cases attached).2.mpr ⟨s, hs, hfav, mainStart_wasFuzzed hk⟩

/-- **Seeds found later are skipped**: once an initial case has hit something in a dry run
without a fault, every turn of a seed that the fuzzer found itself is used for one roll of a
hundred only, in every round of every run. A favored initial seed is never skipped before it
was fuzzed. -/
theorem found_seed_skipped_iff (cfg : Config) (cases : List InitialCase)
    (attached : CovMap × CovMap) (hhit : ∃ i, DryHit cases i) (inputs : List MainInput)
    (rand : Nat) (s : MainState)
    (hs : atFuzzMain (run (stepMain cfg) (mainStart cases attached) inputs) = s) (cur : Seed)
    (hcur : s.fuzzer.seeds.queue[s.queueCur]? = some cur) :
    (cases.length ≤ s.queueCur → (skips s cur rand = true ↔ rand % 100 < 99)) ∧
    (cur.favored = true → cur.wasFuzzed = false → skips s cur rand = false) := by
  have hfrozen := frozen_run cfg cases attached inputs
  have hseeds : s.fuzzer.seeds
      = (run (stepMain cfg) (mainStart cases attached) inputs).fuzzer.seeds := by
    rw [← hs, atFuzzMain_seeds, SeedQueue.cullQueue_of_unchanged hfrozen.unchanged]
  rw [← hseeds] at hfrozen
  obtain ⟨i, hi⟩ := hhit
  have hpend : s.fuzzer.seeds.pendFavor = true :=
    hfrozen.pendFavor.trans (mainStart_pendFavor hi attached)
  rw [skips, if_pos hpend]
  refine ⟨fun hfound => ?_, fun hfav hfuzz => by rw [hfav, hfuzz]; rfl⟩
  -- only initial seeds have a mark, and this one came later
  have hplain : cur.favored = false := by
    refine Bool.eq_false_iff.mpr fun hfav => ?_
    obtain ⟨y, hy, -⟩ := (hfrozen.favored _ cur hcur).mp hfav
    have hlt := (List.getElem?_eq_some_iff.mp hy).1
    rw [mainStart_length] at hlt
    omega
  rw [hplain, Bool.not_false, Bool.or_true, Bool.true_and, decide_eq_true_iff]

/-- A campaign whose first mutated case hits index `i`; the pass over the first seed then ends. -/
def firstFound (cases : List InitialCase) (i : Fin mapSize) : MainState :=
  run (stepMain ⟨false, "out/", .master⟩) (mainStart cases (virgin, virgin))
    [.fuzzMain 99, .unit (oneGlobalUnit i), .ret false]

/-- A pass over a seed in which one case is found. -/
theorem run_found {cfg : Config} {s : MainState} (hs : Fuzzing s) {u : UnitInput}
    (hex : Executes cfg s.fuzzer u)
    (hint : Interesting cfg (beforeExecution cfg s.fuzzer u) u.exec) :
    (run (stepMain cfg) s [.unit u, .ret false]).queueCur = s.queueCur + 1 ∧
      (run (stepMain cfg) s [.unit u, .ret false]).fuzzer.seeds.queue.length
        = s.fuzzer.seeds.queue.length + 1 := by
  have halive : (fuzzUnit cfg s.fuzzer u).halted = false := by
    rw [fuzzUnit_of_executes hex]
    exact hex.2
  rw [run_cons, stepMain_unit cfg hs, run_cons, run_nil,
    stepMain_ret cfg (s := { s with fuzzer := fuzzUnit cfg s.fuzzer u }) ⟨halive, hs.2⟩]
  refine ⟨rfl, (returnFuzzMain_seeds _ false).2.trans ?_⟩
  rcases fuzzUnit_seeds cfg s.fuzzer u with ⟨-, hno⟩ | ⟨x, hnew, -⟩
  · exact absurd ⟨hex, hint⟩ hno
  · dsimp only
    rw [hnew, List.length_append, List.length_singleton]

section FirstFound

variable {cases : List InitialCase} {i : Fin mapSize}

theorem firstFound_cur (hcases : cases ≠ []) (hi : ¬DryHit cases i) :
    (firstFound cases i).queueCur = 1 ∧
      (firstFound cases i).fuzzer.seeds.queue.length = cases.length + 1 := by
  obtain ⟨u, hu, hfuzzing, hex, hint, -⟩ := addsUncovered_first hi
  obtain rfl := MainInput.unit.inj hu
  have hfound := run_found hfuzzing hex hint
  rw [firstFound, run_cons, first_call _ hcases]
  exact ⟨hfound.1, hfound.2.trans (congrArg (· + 1) (mainStart_length cases (virgin, virgin)))⟩

/-- The seed after the first one is next. -/
theorem firstFound_next (hcases : cases ≠ []) (hi : ¬DryHit cases i) :
    (atFuzzMain (firstFound cases i)).queueCur = 1 ∧
      ∃ cur, (atFuzzMain (firstFound cases i)).fuzzer.seeds.queue[1]? = some cur := by
  have hpos : 0 < cases.length := List.length_pos_iff.mpr hcases
  obtain ⟨hcur, hlen⟩ := firstFound_cur hcases hi
  have hsame : (firstFound cases i).fuzzer.seeds.cullQueue = (firstFound cases i).fuzzer.seeds :=
    SeedQueue.cullQueue_of_unchanged (frozen_run _ cases (virgin, virgin) _).unchanged
  constructor
  · rw [atFuzzMain, hsame]
    dsimp only
    rw [if_neg (by omega), hcur]
  · rw [atFuzzMain_seeds, hsame]
    exact ⟨_, List.getElem?_eq_getElem (by omega)⟩

end FirstFound

/-- One initial seed hits index `0` and a case that hits index `1` is found: a roll of 98 skips
it, a roll of 99 does not. -/
theorem found_seed_skipped_iff_one :
    ∃ cur, (atFuzzMain (firstFound [oneGlobalCase ⟨0, mapSize_pos⟩]
        ⟨1, one_lt_mapSize⟩)).fuzzer.seeds.queue[1]? = some cur ∧
      skips (atFuzzMain (firstFound [oneGlobalCase ⟨0, mapSize_pos⟩] ⟨1, one_lt_mapSize⟩))
        cur 98 = true ∧
      skips (atFuzzMain (firstFound [oneGlobalCase ⟨0, mapSize_pos⟩] ⟨1, one_lt_mapSize⟩))
        cur 99 = false := by
  have hdry : ¬DryHit [oneGlobalCase ⟨0, mapSize_pos⟩] ⟨1, one_lt_mapSize⟩ := by
    simp [DryHit, oneGlobalCase, oneGlobal, oneHit]
  obtain ⟨hnext, cur, hcur⟩ := firstFound_next (List.cons_ne_nil _ _) hdry
  have hhit : ∃ i, DryHit [oneGlobalCase ⟨0, mapSize_pos⟩] i :=
    ⟨⟨0, mapSize_pos⟩, by simp [DryHit, oneGlobalCase, oneGlobal, oneHit]⟩
  have hskip := fun rand => (found_seed_skipped_iff ⟨false, "out/", .master⟩ _ (virgin, virgin) hhit
    [.fuzzMain 99, .unit (oneGlobalUnit ⟨1, one_lt_mapSize⟩), .ret false] rand _
    (by rw [firstFound]) cur (by rw [hnext]; exact hcur)).1 hnext.ge
  refine ⟨cur, hcur, (hskip 98).mpr (by decide), ?_⟩
  exact Bool.eq_false_iff.mpr (mt (hskip 99).mp (by decide))

end DistFuzz.Fuzzer
