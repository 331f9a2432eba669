import DistFuzz.Fuzzer.HavocBounds

/-!
# The rounds of `Havoc` (FuzzOne.cpp:793–811, 1114–1139)

The number of rounds is doubled while the loop runs, whenever the queue has grown and
there are fewer than `HAVOC_CYCLES_INIT * HAVOC_MAX_MULT` of them; and the buffer the
caller owns is replaced in the middle of rounds.

- `Rounds`: the history of a call, round by round: each starts from the seed, ends
  with an execution, and unless that failed the seed is put back.
- `rounds_havocLoop`, `executions_havocLoop`: from any round on, a call has such a
  history, and the number of executions is bounded by what bounds `havoc_time`.
- `finalBuf`: what the caller owns afterwards; `Rounds.final`: the seed is in it if the
  call returned `0`.
-/

namespace DistFuzz.Fuzzer

open DistFuzz.Lib

/-! ## The history of a call -/

/-- The buffer holds exactly the seed. -/
structure AtSeed (len : UInt64) (seed : List UInt8) (m : HavocBuf) : Prop where
  tempLen : m.tempLen = len
  bytes : m.filemap.bytes.take len.toNat = seed

/-- What happens in a round that starts from `m`: mutations, and the execution of what
`WriteToTestcase` then takes from the buffer. -/
inductive Round (env : HavocEnv) (m : HavocBuf) : List HavocEvent → Prop where
  | intro {n : Nat} {m' : HavocBuf} {passed : List HavocBuf} {case : List UInt8}
      (hmutate : MayReturn (iterate (mutate env) n m) (m', passed))
      (hcase : m'.filemap.read 0 m'.tempLen.toUInt32.toNat = some case) :
      Round env m (passed.map .mutated ++ [.executed m' case])

/-- What happens from buffer `m` on, in a call that returns `ret`. -/
inductive Rounds (env : HavocEnv) (len : UInt64) (seed : List UInt8) :
    HavocBuf → UInt8 → List HavocEvent → Prop where
  | done {m : HavocBuf} (hstart : AtSeed len seed m) : Rounds env len seed m 0 []
  | failed {m : HavocBuf} {events : List HavocEvent} (hstart : AtSeed len seed m)
      (hround : Round env m events) : Rounds env len seed m 1 events
  | next {m m' : HavocBuf} {ret : UInt8} {events later : List HavocEvent}
      (hstart : AtSeed len seed m) (hround : Round env m events)
      (hnext : Rounds env len seed m' ret later) :
      Rounds env len seed m ret (events ++ .restored m' :: later)

/-- The buffer after these events. -/
def finalBuf (m : HavocBuf) (events : List HavocEvent) : HavocBuf :=
  (events.getLast?.map HavocEvent.buf).getD m

theorem finalBuf_append_cons (m : HavocBuf) (events : List HavocEvent) (e : HavocEvent)
    (later : List HavocEvent) : finalBuf m (events ++ e :: later) = finalBuf e.buf later := by
  rw [finalBuf, List.getLast?_append_of_ne_nil _ (List.cons_ne_nil e later), List.getLast?_cons,
    finalBuf]
  cases later.getLast? with
  | none => rfl
  | some _ => rfl

/-- A call that returns `0` leaves the seed in the buffer. -/
theorem Rounds.final {env : HavocEnv} {len : UInt64} {seed : List UInt8} {m : HavocBuf}
    {ret : UInt8} {events : List HavocEvent} (h : Rounds env len seed m ret events)
    (hret : ret = 0) : AtSeed len seed (finalBuf m events) := by
  induction h with
  | done hstart => exact hstart
  | failed hstart hround => exact absurd hret (by decide)
  | next hstart hround hnext ih =>
    rw [finalBuf_append_cons]
    exact ih hret

/-- The number of executions. -/
def executions (events : List HavocEvent) : Nat :=
  events.countP fun
    | .executed _ _ => true
    | _ => false

theorem executions_append (events events' : List HavocEvent) :
    executions (events ++ events') = executions events + executions events' :=
  List.countP_append ..

theorem Round.executions_eq {env : HavocEnv} {m : HavocBuf} {events : List HavocEvent}
    (h : Round env m events) : executions events = 1 := by
  obtain ⟨-, -⟩ := h
  rw [executions_append]
  simp [executions, Function.comp_def]

/-! ## One turn of the outer loop -/

/-- Putting the seed back, if it succeeds, gives a buffer with the seed. -/
theorem atSeed_of_restore {origBuf : Block} {len : UInt64} {m m' : HavocBuf}
    (horig : origBuf.size = len.toNat) (h : restore origBuf len m = some m') :
    AtSeed len origBuf.bytes m' := by
  obtain ⟨b, -, hrest⟩ := Option.bind_eq_some_iff.mp h
  obtain ⟨b', hcopy, heq⟩ := Option.bind_eq_some_iff.mp hrest
  obtain rfl := Option.some.inj heq
  refine ⟨rfl, ?_⟩
  rw [Block.take_memcpy hcopy]
  exact List.take_of_length_le horig.le

/-- The ways a call goes on from round `i`: it returns, or it makes a round, and then
returns an error or puts the seed back and goes on. -/
theorem havocLoop_cases {env : HavocEnv} {origBuf : Block} {len : UInt64}
    {units : Nat → UnitResult} {i havocTime : Nat} {queueInitSize : UInt32} {m : HavocBuf}
    {r : UInt8 × List HavocEvent}
    (h : MayReturn (havocLoop env origBuf len units i havocTime queueInitSize m) r) :
    (havocTime ≤ i ∧ r = (0, [])) ∨
    (i < havocTime ∧ r.1 = 1 ∧ Round env m r.2) ∨
    (i < havocTime ∧ ∃ m' m'' events later, Round env m events ∧
      restore origBuf len m' = some m'' ∧
      MayReturn (havocLoop env origBuf len units (i + 1)
        (nextHavocTime havocTime queueInitSize (units i).queueSize) (units i).queueSize m'')
        (r.1, later) ∧
      r.2 = events ++ .restored m'' :: later) := by
  rw [havocLoop] at h
  split at h
  -- the number of mutations, the mutations, and the execution; each of them may not return
  · next hi =>
    obtain ⟨k, -, h⟩ := h.of_bind
    obtain ⟨⟨m', passed⟩, hmutate, h⟩ := h.of_bind
    obtain ⟨case, hcase, h⟩ := h.of_bind
    have hround : Round env m (passed.map .mutated ++ [.executed m' case]) :=
      .intro hmutate (mayReturn_check hcase)
    dsimp only at h
    split at h
    · rw [mayReturn_pure h]
      exact .inr (.inl ⟨hi, rfl, hround⟩)
    · obtain ⟨m'', hrestore, h⟩ := h.of_bind
      obtain ⟨⟨ret, later⟩, hlater, h⟩ := h.of_bind
      rw [mayReturn_pure h]
      exact .inr (.inr ⟨hi, m', m'', _, later, hround, mayReturn_check hrestore, hlater, rfl⟩)
  · next hi => exact .inl ⟨Nat.le_of_not_lt hi, mayReturn_pure h⟩

/-- `havoc_time` is doubled while it is small, or kept. -/
theorem nextHavocTime_cases (havocTime : Nat) (queueInitSize queueHavocSize : UInt32) :
    (havocTime < 128 ∧ nextHavocTime havocTime queueInitSize queueHavocSize = havocTime * 2) ∨
      nextHavocTime havocTime queueInitSize queueHavocSize = havocTime := by
  have hmax : (havocCyclesInit * havocMaxMult).toNat = 128 := rfl
  rw [nextHavocTime, hmax]
  split
  · next h => exact .inl ⟨h.2, rfl⟩
  · exact .inr rfl

/-- From a divisor of 128 it goes through divisors of 128. -/
theorem nextHavocTime_dvd {n : Nat} (hn : n ∣ 128) {q q' : UInt32} :
    nextHavocTime n q q' ∣ 128 := by
  have hdouble : ∀ n < 128, n ∣ 128 → n * 2 ∣ 128 := by decide
  rcases nextHavocTime_cases n q q' with ⟨hlt, heq⟩ | heq
  · rw [heq]
    exact hdouble n hlt hn
  · rwa [heq]

/-! ## Whole calls -/

/-- From any round on, every round starts from the seed. -/
theorem rounds_havocLoop {env : HavocEnv} {origBuf : Block} {len : UInt64}
    (horig : origBuf.size = len.toNat) {units : Nat → UnitResult} {i havocTime : Nat}
    {queueInitSize : UInt32} {m : HavocBuf} (hm : AtSeed len origBuf.bytes m)
    {r : UInt8 × List HavocEvent}
    (h : MayReturn (havocLoop env origBuf len units i havocTime queueInitSize m) r) :
    Rounds env len origBuf.bytes m r.1 r.2 := by
  -- over the rounds that may be left: `havoc_time` grows, but never beyond 256
  induction hleft : max havocTime 256 - i using Nat.strong_induction_on
    generalizing i havocTime queueInitSize m r with
  | _ left ih =>
    rcases havocLoop_cases h with ⟨-, rfl⟩ | ⟨-, hret, hround⟩ |
      ⟨hi, m', m'', events, later, hround, hrestore, hlater, hevents⟩
    · exact .done hm
    · rw [hret]
      exact .failed hm hround
    · rw [hevents]
      have hle := nextHavocTime_le havocTime queueInitSize (units i).queueSize
      exact .next hm hround (ih _ (by omega) (atSeed_of_restore horig hrestore) hlater rfl)

/-- If `B` bounds `havoc_time` whatever the queue does, there are at most `B` rounds. -/
theorem executions_havocLoop {env : HavocEnv} {origBuf : Block} {len : UInt64} {B : Nat}
    {T : Nat → Prop} (hB : ∀ n, T n → n ≤ B) (hT : ∀ n q q', T n → T (nextHavocTime n q q'))
    {units : Nat → UnitResult} {i havocTime : Nat} (htime : T havocTime) {queueInitSize : UInt32}
    {m : HavocBuf} {r : UInt8 × List HavocEvent}
    (h : MayReturn (havocLoop env origBuf len units i havocTime queueInitSize m) r) :
    executions r.2 ≤ B - i := by
  induction hleft : B - i generalizing i havocTime queueInitSize m r with
  | zero =>
    have hle := hB havocTime htime
    rcases havocLoop_cases h with ⟨-, rfl⟩ | ⟨hi, -⟩ | ⟨hi, -⟩
    · exact le_rfl
    · omega
    · omega
  | succ left ih =>
    rcases havocLoop_cases h with ⟨-, rfl⟩ | ⟨-, -, hround⟩ |
      ⟨-, m', m'', events, later, hround, -, hlater, hevents⟩
    · exact Nat.zero_le _
    · rw [hround.executions_eq]
      omega
    -- the round that was made is one of those that `B` allows
    · have hrest : executions later ≤ left := ih (hT _ _ _ htime) hlater (by omega)
      have hcons : executions (.restored m'' :: later) = executions later := rfl
      rw [hevents, executions_append, hround.executions_eq, hcons]
      omega

/-- The loop that a call comes to. -/
theorem havocLoop_of_havoc {env : HavocEnv} {len : UInt64} {buf : Block}
    {cycles queueInitSize : UInt32} {units : Nat → UnitResult} {r : UInt8 × List HavocEvent}
    (h : MayReturn (havoc env len buf cycles queueInitSize units) r) :
    ∃ origBuf, origBuf.size = len.toNat ∧ origBuf.bytes = buf.bytes.take len.toNat ∧
      MayReturn (havocLoop env origBuf len units 0 cycles.toNat queueInitSize ⟨buf, len⟩) r := by
  obtain ⟨b₀, hnew, h⟩ := h.of_bind
  obtain ⟨origBuf, hcopy, h⟩ := h.of_bind
  have hcopy' := mayReturn_check hcopy
  have hsize : origBuf.size = len.toNat :=
    (Block.bounds_of_memcpy hcopy').2.2.trans (Block.size_of_new (mayReturn_check hnew))
  refine ⟨origBuf, hsize, ?_, ?_⟩
  · rw [← Block.take_memcpy hcopy', List.take_of_length_le hsize.le]
  · rwa [havocInitMult, UInt32.mul_one] at h

/-- Every round of a call starts from the seed. -/
theorem rounds_havoc {env : HavocEnv} {len : UInt64} {buf : Block} {cycles queueInitSize : UInt32}
    {units : Nat → UnitResult} {r : UInt8 × List HavocEvent}
    (h : MayReturn (havoc env len buf cycles queueInitSize units) r) :
    Rounds env len (buf.bytes.take len.toNat) ⟨buf, len⟩ r.1 r.2 := by
  obtain ⟨origBuf, hsize, hseed, hloop⟩ := havocLoop_of_havoc h
  rw [← hseed]
  exact rounds_havocLoop hsize ⟨rfl, hseed.symm⟩ hloop

/-- Doubling stops at 128, so there are at most 255 rounds or as many as were asked for. -/
theorem executions_le_max {env : HavocEnv} {origBuf : Block} {len : UInt64}
    {units : Nat → UnitResult} {havocTime : Nat} {queueInitSize : UInt32} {m : HavocBuf}
    {r : UInt8 × List HavocEvent}
    (h : MayReturn (havocLoop env origBuf len units 0 havocTime queueInitSize m) r) :
    executions r.2 ≤ max havocTime 255 := by
  refine executions_havocLoop (T := fun n => n ≤ max havocTime 255) (fun n hn => hn)
    (fun n q q' hn => ?_) (le_max_left _ _) h
  rcases nextHavocTime_cases n q q' with ⟨hlt, heq⟩ | heq
  · omega
  · omega

/-- **`Havoc` restores its seed and is bounded.** Whatever the dictionaries, the random
numbers and the outcomes of the executions, a call that returns has made at most
`max cycles 255` executions, and at most 128 if it was called for 8 or 32 cycles; every
round started from exactly the seed; and if it returns `0`, the buffer the caller owns
begins with the seed. For a seed that is not empty it does return. (An empty one does
not get here, since `mmap` fails for it.) -/
theorem havoc_restores_seed (env : HavocEnv) (len : UInt64) (buf : Block)
    (cycles queueInitSize : UInt32) (units : Nat → UnitResult) (rand : Stream' UInt32) :
    (∀ ret events rest,
      havoc env len buf cycles queueInitSize units rand = some ((ret, events), rest) →
        Rounds env len (buf.bytes.take len.toNat) ⟨buf, len⟩ ret events ∧
        executions events ≤
          max cycles.toNat (2 * havocCyclesInit.toNat * havocMaxMult.toNat - 1) ∧
        (cycles = 8 ∨ cycles = 32 → executions events ≤ 128) ∧
        (ret = 0 → (finalBuf ⟨buf, len⟩ events).filemap.bytes.take len.toNat
          = buf.bytes.take len.toNat)) ∧
    (1 ≤ len.toNat → len.toNat ≤ buf.size → ∃ ret events rest,
      havoc env len buf cycles queueInitSize units rand = some ((ret, events), rest)) := by
  refine ⟨fun ret events rest hrun => ?_, fun hlen hbuf => ?_⟩
  · have hreturn : MayReturn (havoc env len buf cycles queueInitSize units) (ret, events) :=
      ⟨rand, rest, hrun⟩
    have hrounds := rounds_havoc hreturn
    obtain ⟨origBuf, -, -, h⟩ := havocLoop_of_havoc hreturn
    refine ⟨hrounds, executions_le_max h, fun hcycles => ?_,
      fun hret => (hrounds.final hret).bytes⟩
    -- 8 and 32 divide 128, and so does what doubling them leads to
    refine executions_havocLoop (T := fun n => n ∣ 128) (fun n hn => Nat.le_of_dvd (by decide) hn)
      (fun n q q' hn => nextHavocTime_dvd hn) ?_ h
    rcases hcycles with rfl | rfl
    · decide
    · decide
  · obtain ⟨⟨ret, events⟩, rest, hrun, -⟩ :=
      eventOk_havoc env len buf hlen hbuf cycles queueInitSize units rand
    exact ⟨ret, events, rest, hrun⟩

end DistFuzz.Fuzzer
