import DistFuzz.Fuzzer.BitFlip
import DistFuzz.Fuzzer.Replace
import DistFuzz.Fuzzer.DictionaryCases

/-!
# Deterministic stages are non-destructive (FuzzOne.cpp:324–688)

The thirteen stages change the buffer in place. They stay inside of it, they execute
cases that differ from the seed in the current window only, and when they are done the
buffer is the seed again, as long as 32 bits hold the number of every bit.

- `deterministicStages`: the stages.
- `GoodTrial`, `NonDestructive`: what is asked of a case and of a stage.
- `flipTrial_good`, `window_good`, `replaced_good`: the cases of the three kinds of
  stages.
- `deterministic_nonDestructive_iff`: the stages are non-destructive just for the seeds of
  up to `2^29` bytes. Above that, `FLIP_BIT` flips a bit at the start of the buffer, and
  from `2^31` bytes on `DictionaryReplace` copies a negative number of bytes.
-/

namespace DistFuzz.Fuzzer

open DistFuzz.Lib

/-- A case of the seed's length that differs from the seed, and only in the window. -/
structure GoodTrial (seed : Block) (t : Trial) : Prop where
  length_eq : t.case.length = seed.size
  ne_seed : t.case ≠ seed.bytes
  inside : t.window.first + t.window.bits ≤ 8 * seed.size
  outside : ∀ b, b < t.window.first ∨ t.window.first + t.window.bits ≤ b →
    bitIn t.case b = bitIn seed.bytes b

/-- A stage that starts with the seed in the buffer does not leave the buffer, executes
good cases only and, if it returns 0, leaves the seed there. -/
structure NonDestructive (seed : Block) (useful : List Bool) (x : Stage Unit) : Prop where
  no_fault : (x.exec (.start seed useful)).1 ≠ .error .fault
  good : ∀ t ∈ (x.exec (.start seed useful)).2.trials, GoodTrial seed t
  intact : (x.exec (.start seed useful)).1 = .ok () →
    (x.exec (.start seed useful)).2.filemap = seed

/-- The stages. `Arithmetic8` is run for `turns` turns at most; `orig` is the local
buffer of `DictionaryReplace`. -/
def deterministicStages (target : Target) (pointedToken : List (List UInt8)) (qCksum : UInt32)
    (turns : Nat) (orig : Block) (tokens : List Entry) (len : UInt64) : List (Stage Unit) :=
  bitFlipKinds.map (fun kind => bitFlip target pointedToken len kind.1 kind.2 qCksum) ++
    [arithmetic8 target turns len, arithmetic16 target len, arithmetic32 target len,
      interestingReplace8 target len, interestingReplace16 target len,
      interestingReplace32 target len, dictionaryReplace target orig len tokens]

section Good

variable {target : Target} {seed : Block} {useful : List Bool}

theorem nonDestructive_of_logs {Err : Halt → Prop} {x : Stage Unit} {K : StageState → Prop}
    {K' : Unit → StageState → Prop} {ts : List Trial}
    (h : Logs StageState.trials Err K x K' ts) (herr : ∀ e, Err e → e ≠ .fault)
    (hstart : K (.start seed useful)) (hend : ∀ s, K' () s → s.filemap = seed)
    (hgood : ∀ t ∈ ts, GoodTrial seed t) : NonDestructive seed useful x := by
  have hrun := h _ hstart _ rfl
  refine ⟨fun hfault => ?_, fun t ht => hgood t (h.mem hstart ht), fun hok => ?_⟩
  -- a run that ends in an error leaves one that the log allows, and a fault is none of them
  · revert hrun hfault
    obtain ⟨e | _, s⟩ := x.exec (.start seed useful)
    · intro hrun hfault
      cases hfault
      exact herr _ hrun.1 rfl
    · intro _ hfault
      cases hfault
  · revert hrun hok
    obtain ⟨_ | _, s⟩ := x.exec (.start seed useful)
    · intro _ hok
      cases hok
    · intro hrun _
      exact hend s hrun.1

theorem fault_of_unitFailed {e : Halt} (h : UnitFailed target e) : e ≠ .fault := by
  rw [h.1]
  exact Halt.noConfusion

/-- What is executed of a changed buffer. -/
theorem caseOf_seedLen {bytes : List UInt8} (hsmall : seed.size < 2 ^ 32)
    (hlen : bytes.length = seed.size) : caseOf (seedLen seed) bytes = bytes :=
  caseOf_eq (by rw [hlen, toNat_seedLen]) (by rwa [toNat_seedLen])

/-- **Bit flips**: the bits of the window are flipped, and no others. -/
theorem flipTrial_good {num cur : Nat} (hnum : 0 < num) (hnum' : num ≤ 32)
    (hfit : cur + num ≤ 8 * seed.size) (hsmall : seed.size ≤ 2 ^ 29) :
    GoodTrial seed (flipTrial seed (seedLen seed) num cur) := by
  have hps := flipRun_lt hfit
  have hcase : (flipTrial seed (seedLen seed) num cur).case
      = flipAll seed.bytes (flipRun cur num) :=
    caseOf_seedLen (by omega) (length_flipAll _ _)
  -- each bit of the window is flipped once, since no two of them are `2^32` apart
  have hbit : ∀ b, bitIn (flipAll seed.bytes (flipRun cur num)) b
      = (bitIn seed.bytes b ^^ decide (cur ≤ b ∧ b < cur + num)) := by
    intro b
    rw [bitIn_flipAll_nodup hps (flipRun_nodup hnum'),
      decide_eq_decide.mpr (mem_flipRun (by omega))]
  refine ⟨?_, ?_, hfit, fun b hb => ?_⟩
  · rw [hcase, length_flipAll]
    rfl
  · rw [hcase]
    intro heq
    have hcur := hbit cur
    rw [heq, decide_eq_true (by omega), Bool.xor_true] at hcur
    exact absurd hcur.symm (Bool.not_ne_self _)
  · rw [hcase, hbit, decide_eq_false, Bool.xor_false]
    change b < cur ∨ cur + num ≤ b at hb
    omega

/-- A trial that puts other bytes of the same number somewhere. -/
theorem overwrite_good {i : Nat} {xs : List UInt8} (hfit : i + xs.length ≤ seed.size)
    (hsmall : seed.size < 2 ^ 32) (hne : overwrite seed.bytes i xs ≠ seed.bytes) :
    GoodTrial seed
      ⟨byteWindow i xs.length, caseOf (seedLen seed) (overwrite seed.bytes i xs)⟩ := by
  have hlen : (overwrite seed.bytes i xs).length = seed.size := length_overwrite hfit
  rw [caseOf_seedLen hsmall hlen]
  refine ⟨hlen, hne, ?_, fun b hb => bitIn_overwrite_of_lt hfit hb⟩
  show 8 * i + 8 * xs.length ≤ 8 * seed.size
  omega

/-- **Windows**: another word is stored there. -/
theorem window_good {w : Nat} {tries : BitVec (8 * w) → List (BitVec (8 * w))}
    (htries : ∀ {orig x}, x ∈ tries orig → x ≠ orig) (hsmall : seed.size < 2 ^ 32) {t : Trial}
    (ht : t ∈ stageTrials seed useful w tries (seedLen seed)) : GoodTrial seed t := by
  obtain ⟨i, hi, ht⟩ := List.mem_flatMap.mp ht
  rw [List.mem_range] at hi
  rw [turnTrials, List.mem_ite_nil_right] at ht
  obtain ⟨x, hx, rfl⟩ := List.mem_map.mp ht.2
  have hfit : i + w ≤ seed.size := by omega
  have hlen : i + (wordBytes x).length ≤ seed.size := by rwa [length_wordBytes]
  have hgood := overwrite_good hlen hsmall
    (mt (overwrite_word_eq_self_iff hfit x).mp (htries hx))
  rwa [length_wordBytes] at hgood

/-- **Tokens**: what stands there is not the token. -/
theorem replaced_good {tokens : List Entry} (hsmall : seed.size < 2 ^ 32) {t : Trial}
    (ht : t ∈ (List.range seed.size).flatMap
      (replaceTrials seed useful (seedLen seed) tokens)) : GoodTrial seed t := by
  obtain ⟨i, hi, ht⟩ := List.mem_flatMap.mp ht
  obtain ⟨e, -, ht⟩ := List.mem_flatMap.mp ht
  rw [List.mem_range] at hi
  rw [List.mem_ite_nil_right, List.mem_singleton, appliesAt, Bool.and_eq_true, Bool.and_eq_true,
    decide_eq_true_iff, decide_eq_true_iff] at ht
  obtain ⟨⟨⟨hfit, hne⟩, -⟩, rfl⟩ := ht
  exact overwrite_good (by omega) hsmall fun heq =>
    hne (take_drop_of_overwrite_eq (Nat.le_of_lt hi) heq)

end Good

section Stages

variable {target : Target} {seed : Block} {useful : List Bool}

theorem bitFlip_nonDestructive {pointedToken : List (List UInt8)} {qCksum : UInt32}
    {kind : UInt8 × UInt8} (hkind : kind ∈ bitFlipKinds) (huseful : useful.length = seed.size)
    (hsmall : seed.size ≤ 2 ^ 29) :
    NonDestructive seed useful
      (bitFlip target pointedToken (seedLen seed) kind.1 kind.2 qCksum) := by
  have hlogs : StageLogs target (Holds seed.bytes (Marks seed.size useful kind.1))
      (bitFlip target pointedToken (seedLen seed) kind.1 kind.2 qCksum)
      (fun _ => Holds seed.bytes (Marks seed.size useful kind.1))
      (bitFlipTrials seed useful (seedLen seed) kind.1 kind.2) :=
    bitFlip_logs hkind (toNat_seedLen seed) huseful
  refine nonDestructive_of_logs hlogs (fun e he => fault_of_unitFailed he)
    ⟨rfl, huseful, fun _ => rfl⟩ (fun s hs => Block.eq_of_bytes hs.1) fun t ht => ?_
  obtain ⟨k, hk, -, rfl⟩ := (mem_bitFlipTrials hkind).mp ht
  have hlen := bitLen_seedLen_le seed
  exact flipTrial_good (bitFlipKinds_pos kind hkind) (bitFlipKinds_le kind hkind) (by omega) hsmall

theorem windowStage_nonDestructive {w : Nat} {tries : BitVec (8 * w) → List (BitVec (8 * w))}
    (hw : 0 < w) (hw' : w < 2 ^ 64) (htries : ∀ {orig x}, x ∈ tries orig → x ≠ orig)
    (huseful : useful.length = seed.size) (hsmall : seed.size ≤ 2 ^ 29) :
    NonDestructive seed useful (windowStage target w tries (seedLen seed)) := by
  have hlogs : StageLogs target (Intact seed useful) (windowStage target w tries (seedLen seed))
      (fun _ => Intact seed useful) (stageTrials seed useful w tries (seedLen seed)) :=
    windowStage_logs hw hw' (toNat_seedLen seed) huseful
  exact nonDestructive_of_logs hlogs (fun e he => fault_of_unitFailed he) (intact_start seed useful)
    (fun s hs => hs.1) fun t ht => window_good htries (by omega) ht

theorem arithmetic8_nonDestructive (turns : Nat) (huseful : useful.length = seed.size)
    (hsmall : seed.size ≤ 2 ^ 29) :
    NonDestructive seed useful (arithmetic8 target turns (seedLen seed)) := by
  have hlogs : Logs StageState.trials
      (fun e => UnitFailed target e ∨ e = .running ∧ turns ≤ seed.size) (Intact seed useful)
      (arithmetic8 target turns (seedLen seed)) (fun _ => Intact seed useful)
      (stageTrials seed useful 1 arith8Tries (seedLen seed)) :=
    arithmetic8_logs (toNat_seedLen seed) huseful (by omega) turns
  refine nonDestructive_of_logs hlogs ?_ (intact_start seed useful) (fun s hs => hs.1) fun t ht =>
    window_good arith8Tries_ne (by omega) ht
  rintro e (he | ⟨rfl, -⟩)
  · exact fault_of_unitFailed he
  · exact Halt.noConfusion

theorem dictionaryReplace_nonDestructive {orig : Block} {tokens : List Entry}
    (htokens : ByLength tokens) (horig : orig.size = maxTokenSize)
    (huseful : useful.length = seed.size) (hsmall : seed.size ≤ 2 ^ 29) :
    NonDestructive seed useful (dictionaryReplace target orig (seedLen seed) tokens) := by
  have hlogs : StageLogs target (Intact seed useful)
      (dictionaryReplace target orig (seedLen seed) tokens) (fun _ => Intact seed useful)
      ((List.range seed.size).flatMap (replaceTrials seed useful (seedLen seed) tokens)) :=
    dictionaryReplace_logs htokens (toNat_seedLen seed) huseful (by omega) horig
  exact nonDestructive_of_logs hlogs (fun e he => fault_of_unitFailed he) (intact_start seed useful)
    (fun s hs => hs.1) fun t ht => replaced_good (by omega) ht

/-! ## Larger seeds -/

/-- Bit `2^32` is taken for bit 0. -/
theorem bitIn_flipTrial_zero (hpos : 0 < seed.size) (hsmall : seed.size < 2 ^ 32) :
    bitIn (flipTrial seed (seedLen seed) 1 (2 ^ 32)).case 0 = !bitIn seed.bytes 0 := by
  show bitIn (caseOf (seedLen seed) (flipAt seed.bytes 0)) 0 = _
  rw [caseOf_seedLen hsmall (length_flipAt _ _),
    bitIn_flipAt (show 0 < 8 * seed.bytes.length by rw [← Block.size]; omega), decide_eq_true rfl,
    Bool.xor_true]

theorem flipTrial_wraps (hsize : 2 ^ 29 < seed.size) (hsmall : seed.size < 2 ^ 31) :
    ¬GoodTrial seed (flipTrial seed (seedLen seed) 1 (2 ^ 32)) := by
  intro hgood
  have hbit := hgood.outside 0 (.inl (by show 0 < 2 ^ 32; decide))
  rw [bitIn_flipTrial_zero (by omega) (by omega)] at hbit
  exact absurd hbit (Bool.not_ne_self _)

theorem flipTrial_mem {pointedToken : List (List UInt8)} {qCksum : UInt32}
    {cksum : Nat → List UInt8 → UInt32} (huseful : useful.length = seed.size)
    (hsize : 2 ^ 29 < seed.size) (hsmall : seed.size < 2 ^ 31) :
    flipTrial seed (seedLen seed) 1 (2 ^ 32) ∈
      ((bitFlip (calm cksum) pointedToken (seedLen seed) 1 1 qCksum).exec
        (.start seed useful)).2.trials := by
  have hkind : ((1 : UInt8), (1 : UInt8)) ∈ bitFlipKinds := by decide
  have hlogs : StageLogs (calm cksum) (Holds seed.bytes (Marks seed.size useful 1))
      (bitFlip (calm cksum) pointedToken (seedLen seed) 1 1 qCksum)
      (fun _ => Holds seed.bytes (Marks seed.size useful 1))
      (bitFlipTrials seed useful (seedLen seed) 1 1) :=
    bitFlip_logs hkind (toNat_seedLen seed) huseful
  have hmem : flipTrial seed (seedLen seed) 1 (2 ^ 32) ∈
      bitFlipTrials seed useful (seedLen seed) 1 1 := by
    -- the run of one bit at `2^32` is inside the seed, but its index in the macro is zero
    refine (mem_bitFlipTrials hkind).mpr ⟨2 ^ 32, ?_, rfl, rfl⟩
    rw [bitLen_eq, toNat_seedLen, Nat.mod_eq_of_lt (by omega)]
    show 2 ^ 32 * 1 + 1 ≤ 8 * seed.size
    omega
  have hstart : Holds seed.bytes (Marks seed.size useful 1) (.start seed useful) :=
    ⟨rfl, huseful, fun _ => rfl⟩
  obtain ⟨_, s, hrun, -, htrials⟩ := hlogs.returns (not_unitFailed_calm cksum) hstart
  rw [hrun, htrials]
  exact List.mem_append_right _ hmem

/-- From `2^31` bytes on, `DictionaryReplace` leaves the buffer, even without a token. -/
theorem dictionaryReplace_faults {orig : Block} (hsize : 2 ^ 31 ≤ seed.size) :
    ((dictionaryReplace target orig (seedLen seed) []).exec (.start seed useful)).1
      = .error .fault := by
  have hlt : seed.size < 2 ^ 63 := seed.length_lt
  -- any turn may end in a fault, and the one with `2^31` bytes left does
  have hturn : ∀ i (b : Block), Triple (fun _ => True) (replaceTurn target (seedLen seed) [] i b)
      (fun _ _ => True) fun e _ => e = .fault := by
    intro i b
    have hread : ∀ f : StageState → Option Block, Triple (fun _ => True) (access Halt.fault f)
        (fun _ _ => True) fun e _ => e = .fault :=
      fun f => triple_access_or (fun _ _ _ _ => trivial) fun _ _ _ => rfl
    have hwrite : ∀ f, Triple (fun _ : StageState => True) (update Halt.fault f)
        (fun _ _ => True) fun e _ => e = .fault :=
      fun f => triple_update_or (fun _ _ _ _ => trivial) fun _ _ _ => rfl
    have hpure : ∀ {α : Type} (a : α), Triple (fun _ : StageState => True) (pure a : Stage α)
        (fun _ _ => True) fun e _ => e = .fault := fun a => triple_pure fun _ _ => trivial
    exact (hread _).bind fun b => (hpure ()).bind fun _ => (hwrite _).bind fun _ => hpure b
  have hrest : (seedLen seed - UInt64.ofNat (seed.size - 2 ^ 31)).toNat = 2 ^ 31 := by
    rw [toNat_rest (toNat_seedLen seed) (by omega)]
    omega
  have hstop : ∀ b : Block, Triple (fun _ => True)
      (replaceTurn target (seedLen seed) [] (seed.size - 2 ^ 31) b) (fun _ _ => False)
      fun e _ => e = .fault := by
    intro b s _
    exact ((replaceTurn_faults (by rw [hrest]; decide) s).mono (fun s hs => hs) (fun _ _ hs => hs)
      fun e s he => he.1) s rfl
  have hloop := triple_forRange_stop
    (show seed.size - 2 ^ 31 < (seedLen seed).toNat by rw [toNat_seedLen]; omega)
    (fun _ (_ : Block) _ => True) (fun i _ b => hturn i b) hstop orig
  have hstage : Triple (fun _ => True) (dictionaryReplace target orig (seedLen seed) [])
      (fun _ _ => False) fun e _ => e = .fault := hloop.bind fun _ => triple_false fun s hs => hs
  obtain ⟨e, s, hrun, rfl⟩ := hstage.fails (s := .start seed useful) trivial
  rw [hrun]

end Stages

/-- The empty dictionary. -/
def noTokens : TokenMap := ⟨[], List.nodup_nil⟩

theorem selectTokens_noTokens (std : Sorter) : selectTokens std noTokens = [] :=
  List.perm_nil.mp (std.perm compareMVectorStringLen [])

/-- **The deterministic stages are non-destructive** just for seeds of up to `2^29`
bytes. -/
theorem deterministic_nonDestructive_iff (seed : Block) :
    (∀ (target : Target) (pointedToken : List (List UInt8)) (qCksum : UInt32) (turns : Nat)
      (std : Sorter) (autoToken : TokenMap) (orig : Block) (useful : List Bool),
      orig.size = maxTokenSize → useful.length = seed.size →
        ∀ x ∈ deterministicStages target pointedToken qCksum turns orig
          (selectTokens std autoToken) (seedLen seed), NonDestructive seed useful x) ↔
      seed.size ≤ 2 ^ 29 := by
  constructor
  · intro h
    by_contra hsize
    rw [Nat.not_le] at hsize
    have hall := h (calm fun _ _ => 0) [] 0 0 .stable noTokens zeroBuffer (allUseful seed) rfl
      (length_allUseful seed)
    rw [selectTokens_noTokens] at hall
    -- a very large seed makes the dictionary fault; a smaller one makes bit `2^32` wrap
    by_cases hbig : 2 ^ 31 ≤ seed.size
    · have hlast : dictionaryReplace (calm fun _ _ => 0) zeroBuffer (seedLen seed) [] ∈
          deterministicStages (calm fun _ _ => 0) [] 0 0 zeroBuffer [] (seedLen seed) :=
        List.mem_append_right _ (by simp)
      exact (hall _ hlast).no_fault (dictionaryReplace_faults hbig)
    · have hfirst : bitFlip (calm fun _ _ => 0) [] (seedLen seed) 1 1 0 ∈
          deterministicStages (calm fun _ _ => 0) [] 0 0 zeroBuffer [] (seedLen seed) :=
        List.mem_append_left _ List.mem_cons_self
      exact flipTrial_wraps hsize (by omega) ((hall _ hfirst).good _
        (flipTrial_mem (length_allUseful seed) hsize (by omega)))
  · intro hsmall target pointedToken qCksum turns std autoToken orig useful horig huseful x hx
    rcases List.mem_append.mp hx with hx | hx
    · obtain ⟨kind, hkind, rfl⟩ := List.mem_map.mp hx
      exact bitFlip_nonDestructive hkind huseful hsmall
    · simp only [List.mem_cons, List.not_mem_nil, or_false] at hx
      -- the stages after the bit flips, in their order
      rcases hx with rfl | rfl | rfl | rfl | rfl | rfl | rfl
      · exact arithmetic8_nonDestructive turns huseful hsmall
      · exact windowStage_nonDestructive (by decide) (by decide) arith16Tries_ne huseful hsmall
      · exact windowStage_nonDestructive (by decide) (by decide) arith32Tries_ne huseful hsmall
      · exact windowStage_nonDestructive (by decide) (by decide) interest8Tries_ne huseful hsmall
      · exact windowStage_nonDestructive (by decide) (by decide) interest16Tries_ne huseful hsmall
      · exact windowStage_nonDestructive (by decide) (by decide) interest32Tries_ne huseful hsmall
      · exact dictionaryReplace_nonDestructive (selectTokens_spec std autoToken).byLength horig
          huseful hsmall

/-- A file of one byte more than 512 MiB. -/
def largeSeed : Block := ⟨List.replicate (2 ^ 29 + 1) 0, by rw [List.length_replicate]; decide⟩

/-- At the first bit of its last byte, the stage 1/1 flips the first bit of the file. -/
theorem large_seed_wrong_bit :
    ∃ t ∈ ((bitFlip (calm fun _ _ => 0) [] (seedLen largeSeed) 1 1 0).exec
        (.start largeSeed (allUseful largeSeed))).2.trials,
      t.window = ⟨8 * (largeSeed.size - 1), 1⟩ ∧ bitIn t.case 0 = !bitIn largeSeed.bytes 0 := by
  have hsize : largeSeed.size = 2 ^ 29 + 1 := List.length_replicate
  refine ⟨_, flipTrial_mem (length_allUseful largeSeed) (by omega) (by omega), ?_, ?_⟩
  · rw [show 8 * (largeSeed.size - 1) = 2 ^ 32 by omega]
    rfl
  · exact bitIn_flipTrial_zero (by omega) (by omega)

end DistFuzz.Fuzzer
