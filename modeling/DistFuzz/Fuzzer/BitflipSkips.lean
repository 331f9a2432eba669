import DistFuzz.Fuzzer.Arithmetic
import DistFuzz.Fuzzer.BitFlip

/-!
# What is skipped as a bit flip (FuzzOne.cpp:88–110, 324–363)

The arithmetic stages and the stages with interesting values skip what
`could_be_bitflip` takes for the work of `BitFlip`. The predicate looks at a number,
the least significant byte of which comes first in the buffer, while `BitFlip` walks
through the buffer from the most significant bit of each byte on. A run of two or four
bits that crosses a byte boundary in the number is no run in the buffer.

- `StageRun`: the changes that the stages make.
- `executed_of_stageRun`, `stageRun_of_executed`: these, and no other bit flips, are
  executed.
- `bitflip_skip_sound_iff`: so what is skipped was executed just if it is one of them.
- `skipped_not_executed`: an addition that is skipped and never executed.
-/

namespace DistFuzz.Fuzzer

open DistFuzz.Lib

/-- A change at position `i` that `BitFlip` makes: a run of bits inside of one byte, or
whole bytes, at indices that 32 bits hold. -/
def StageRun (i : Nat) {m : Nat} (d : BitVec m) : Prop :=
  ∃ n k, FlipRun n k ∧ d.toNat = (2 ^ n - 1) * 2 ^ k ∧ (n ≤ 4 → k % 8 + n ≤ 8) ∧
    i + (k + n - 1) / 8 < 2 ^ 29

/-- Where the run starts in the buffer. -/
def runStart (i n k : Nat) : Nat := 8 * (i + k / 8) + if n ≤ 4 then 8 - n - k % 8 else 0

theorem FlipRun.pos {n k : Nat} (h : FlipRun n k) : 0 < n ∧ n ≤ 32 := by
  unfold FlipRun at h
  omega

/-- The six stages and the runs they flip. -/
theorem FlipRun.kind {n k : Nat} (h : FlipRun n k) (i : Nat) : ∃ kind ∈ bitFlipKinds,
    kind.1.toNat = n ∧ kind.2.toNat ∣ runStart i n k := by
  rcases h with (rfl | rfl | rfl) | ⟨rfl | rfl | rfl, -⟩
  · exact ⟨(1, 1), by decide, rfl, one_dvd _⟩
  · exact ⟨(2, 1), by decide, rfl, one_dvd _⟩
  · exact ⟨(4, 1), by decide, rfl, one_dvd _⟩
  · exact ⟨(8, 8), by decide, rfl, Dvd.intro _ rfl⟩
  · exact ⟨(16, 8), by decide, rfl, Dvd.intro _ rfl⟩
  · exact ⟨(32, 8), by decide, rfl, Dvd.intro _ rfl⟩

/-- A run ends inside of its word. -/
theorem run_le {m n k : Nat} (hpos : 0 < n) {d : BitVec m}
    (hd : d.toNat = (2 ^ n - 1) * 2 ^ k) : k + n ≤ m := by
  have htop : d.getLsbD (k + n - 1) = true := by
    rw [getLsbD_of_run hd, decide_eq_true_iff]
    omega
  have hlt := BitVec.lt_of_getLsbD htop
  omega

/-- A run has no holes. -/
theorem flipRun_between {cur n p a c : Nat} (hn : n ≤ 32) (hc : p + c < 2 ^ 32) (hac : a ≤ c)
    (hp : p ∈ flipRun cur n) (hpc : p + c ∈ flipRun cur n) (hsmall : c < 2 ^ 31) :
    p + a ∈ flipRun cur n := by
  obtain ⟨t, ht, rfl⟩ := List.mem_map.mp hp
  obtain ⟨u, hu, hmod⟩ := List.mem_map.mp hpc
  rw [List.mem_range] at ht hu
  have hdist : u = t + c := by omega
  exact List.mem_map.mpr ⟨t + a, List.mem_range.mpr (by omega), by omega⟩

theorem flipRun_low {cur n p : Nat} (hp : p ∈ flipRun cur n) : p < 2 ^ 32 := by
  obtain ⟨t, -, rfl⟩ := List.mem_map.mp hp
  exact Nat.mod_lt _ (by decide)

/-- Bits of a word that `BitFlip` flips as a run of at most four are bits of one byte. -/
theorem run_within_byte {i w n k cur num : Nat} (hnum : num ≤ 32) (hn : n ≤ 4)
    (hw : k + n ≤ 8 * w) (hbit : ∀ j, j < 8 * w →
      (8 * (i + j / 8) + (7 - j % 8) ∈ flipRun cur num ↔ k ≤ j ∧ j < k + n)) :
    k % 8 + n ≤ 8 := by
  by_contra hcross
  -- the first bit of a byte and the last one of the next are flipped, the last one of
  -- the byte is not
  have hfirst := (hbit (8 * (k / 8) + 7) (by omega)).mpr (by omega)
  have hlast := (hbit (8 * (k / 8) + 8) (by omega)).mpr (by omega)
  have hhole := mt (hbit (8 * (k / 8)) (by omega)).mp (by omega)
  rw [show 8 * (i + (8 * (k / 8) + 7) / 8) + (7 - (8 * (k / 8) + 7) % 8)
    = 8 * (i + k / 8) by omega] at hfirst
  rw [show 8 * (i + (8 * (k / 8) + 8) / 8) + (7 - (8 * (k / 8) + 8) % 8)
    = 8 * (i + k / 8) + 15 by omega] at hlast
  rw [show 8 * (i + 8 * (k / 8) / 8) + (7 - 8 * (k / 8) % 8)
    = 8 * (i + k / 8) + 7 by omega] at hhole
  exact hhole (flipRun_between hnum (flipRun_low hlast) (by decide) hfirst hlast (by decide))

/-- A run inside of a byte, or of whole bytes, is one in the buffer. -/
theorem mem_run_iff {i n k w b : Nat} (hrun : FlipRun n k) (hbyte : n ≤ 4 → k % 8 + n ≤ 8)
    (hw : k + n ≤ 8 * w) :
    (runStart i n k ≤ b ∧ b < runStart i n k + n) ↔
      (i ≤ b / 8 ∧ b / 8 < i + w) ∧ k ≤ wordBit i b ∧ wordBit i b < k + n := by
  unfold runStart wordBit
  unfold FlipRun at hrun
  split
  · omega
  · have hk : k % 8 = 0 := by omega
    have hn : n % 8 = 0 := by omega
    omega

section Executed

variable {seed : Block} {pointedToken : List (List UInt8)} {qCksum : UInt32}
  {cksum : Nat → List UInt8 → UInt32}

/-- No turn is skipped if all bytes are useful. -/
theorem skipsAt_allUseful {kind : UInt8 × UInt8} (hkind : kind ∈ bitFlipKinds) {m : Nat}
    (hm : m * kind.2.toNat + kind.1.toNat ≤ bitLen (seedLen seed)) :
    skipsAt (allUseful seed) kind.1 kind.2 (m * kind.2.toNat) = false := by
  have hlen := bitLen_seedLen_le seed
  rw [skipsAt]
  by_cases hseveral : kind.1 ≠ 8 ∧ kind.2 = 8
  · obtain ⟨-, hle, hnum, -⟩ := bitFlipKinds_spec kind hkind
    have height : kind.2.toNat = 8 := by rw [hseveral.2]; rfl
    rw [height] at hnum hm hle ⊢
    rw [usefulIn_allUseful (by omega) (by omega), Bool.not_true, Bool.and_false]
  · rw [decide_eq_false hseveral, Bool.false_and]

/-- With all bytes useful, `BitFlip` executes every run. -/
theorem mem_casesOf_bitFlip {kind : UInt8 × UInt8} (hkind : kind ∈ bitFlipKinds)
    {case : List UInt8} :
    case ∈ casesOf (bitFlip (calm cksum) pointedToken (seedLen seed) kind.1 kind.2 qCksum)
        (.start seed (allUseful seed)) ↔
      ∃ m, m * kind.2.toNat + kind.1.toNat ≤ bitLen (seedLen seed) ∧
        case = caseOf (seedLen seed)
          (flipAll seed.bytes (flipRun (m * kind.2.toNat) kind.1.toNat)) := by
  have hstart : Holds seed.bytes (Marks seed.size (allUseful seed) kind.1)
      (.start seed (allUseful seed)) := ⟨rfl, length_allUseful seed, fun _ => rfl⟩
  have hlogs : StageLogs (calm cksum) (Holds seed.bytes (Marks seed.size (allUseful seed) kind.1))
      (bitFlip (calm cksum) pointedToken (seedLen seed) kind.1 kind.2 qCksum)
      (fun _ => Holds seed.bytes (Marks seed.size (allUseful seed) kind.1))
      (bitFlipTrials seed (allUseful seed) (seedLen seed) kind.1 kind.2) :=
    bitFlip_logs hkind (toNat_seedLen seed) (length_allUseful seed)
  rw [casesOf_eq hlogs (not_unitFailed_calm cksum) hstart rfl, List.mem_map]
  constructor
  · rintro ⟨t, ht, rfl⟩
    obtain ⟨m, hm, -, rfl⟩ := (mem_bitFlipTrials hkind).mp ht
    exact ⟨m, hm, rfl⟩
  · rintro ⟨m, hm, rfl⟩
    exact ⟨_, (mem_bitFlipTrials hkind).mpr ⟨m, hm, skipsAt_allUseful hkind hm, rfl⟩, rfl⟩

/-- The stages execute the runs. -/
theorem executed_of_stageRun {w i : Nat} (hi : i + w ≤ seed.size) (hsmall : seed.size < 2 ^ 32)
    {v : BitVec (8 * w)} (hrun : StageRun i (wordAt w seed.bytes i ^^^ v)) :
    ∃ kind ∈ bitFlipKinds, overwrite seed.bytes i (wordBytes v) ∈
      casesOf (bitFlip (calm cksum) pointedToken (seedLen seed) kind.1 kind.2 qCksum)
        (.start seed (allUseful seed)) := by
  obtain ⟨n, k, hflip, hd, hbyte, hlow⟩ := hrun
  obtain ⟨hpos, hn⟩ := hflip.pos
  have hw : k + n ≤ 8 * w := run_le hpos hd
  have hin : ∀ b, runStart i n k ≤ b ∧ b < runStart i n k + n →
      b / 8 < i + w ∧ b / 8 ≤ i + (k + n - 1) / 8 := by
    intro b hb
    obtain ⟨⟨hle, hlt⟩, -, hbit⟩ := (mem_run_iff hflip hbyte hw).mp hb
    unfold wordBit at hbit
    omega
  have hend := hin (runStart i n k + n - 1) (by omega)
  obtain ⟨kind, hkind, rfl, m, hm⟩ := hflip.kind i
  rw [Nat.mul_comm] at hm
  refine ⟨kind, hkind, (mem_casesOf_bitFlip hkind).mpr ⟨m, ?_, ?_⟩⟩
  · rw [bitLen_eq, toNat_seedLen, ← hm]
    omega
  · have hlen : seed.bytes.length = seed.size := rfl
    have hcase : caseOf (seedLen seed) (overwrite seed.bytes i (wordBytes v))
        = overwrite seed.bytes i (wordBytes v) := by
      refine caseOf_eq ?_ (by rwa [toNat_seedLen])
      rw [length_overwrite (by rwa [length_wordBytes]), toNat_seedLen, hlen]
    rw [← hcase]
    congr 1
    refine ((flipAll_eq_overwrite_iff (flipRun_lt ?_) (flipRun_nodup hn) hi v).mpr ?_).symm
    · rw [← hm]
      omega
    · intro b hb
      rw [← hm, mem_flipRun (by omega), mem_run_iff hflip hbyte hw, getLsbD_of_run hd,
        decide_eq_true_iff]

/-- A case as long as the seed is executed for seeds of less than 4 GiB only. -/
theorem size_lt_of_case {bytes case : List UInt8} (hbytes : bytes.length = seed.size)
    (hcase : case.length = seed.size) (h : case = caseOf (seedLen seed) bytes) :
    seed.size < 2 ^ 32 := by
  have hlen := congrArg List.length h
  rw [hcase, caseOf, List.length_take, hbytes, UInt64.toNat_toUInt32, toNat_seedLen] at hlen
  have hcut := Nat.mod_lt seed.size (show 0 < 2 ^ 32 by decide)
  omega

/-- What the stages execute of the bit flips is one of their runs. -/
theorem stageRun_of_executed {w i : Nat} (hi : i + w ≤ seed.size) {v : BitVec (8 * w)}
    {n k : Nat} (hflip : FlipRun n k)
    (hd : (wordAt w seed.bytes i ^^^ v).toNat = (2 ^ n - 1) * 2 ^ k) {kind : UInt8 × UInt8}
    (hkind : kind ∈ bitFlipKinds)
    (hcase : overwrite seed.bytes i (wordBytes v) ∈
      casesOf (bitFlip (calm cksum) pointedToken (seedLen seed) kind.1 kind.2 qCksum)
        (.start seed (allUseful seed))) :
    seed.size < 2 ^ 32 ∧ StageRun i (wordAt w seed.bytes i ^^^ v) := by
  obtain ⟨m, hm, hcase⟩ := (mem_casesOf_bitFlip hkind).mp hcase
  obtain ⟨hpos, -⟩ := hflip.pos
  have hnum := bitFlipKinds_le kind hkind
  have hfit : m * kind.2.toNat + kind.1.toNat ≤ 8 * seed.bytes.length :=
    hm.trans (bitLen_seedLen_le seed)
  have hsmall := size_lt_of_case (length_flipAll ..)
    (length_overwrite (by rwa [length_wordBytes])) hcase
  rw [caseOf_eq (by rw [length_flipAll, toNat_seedLen]; rfl) (by rwa [toNat_seedLen]), eq_comm,
    flipAll_eq_overwrite_iff (flipRun_lt hfit) (flipRun_nodup hnum) hi v] at hcase
  -- the bits of the window, numbered as in the word
  have hbit : ∀ j, j < 8 * w → (8 * (i + j / 8) + (7 - j % 8) ∈
      flipRun (m * kind.2.toNat) kind.1.toNat ↔ k ≤ j ∧ j < k + n) := by
    intro j hj
    have hword : wordBit i (8 * (i + j / 8) + (7 - j % 8)) = j := by
      unfold wordBit
      omega
    have hlen : 8 * (i + j / 8) + (7 - j % 8) < 8 * seed.bytes.length := by
      change i + w ≤ seed.bytes.length at hi
      omega
    rw [hcase _ hlen, hword, getLsbD_of_run hd, decide_eq_true_iff]
    exact and_iff_right (by omega)
  have hw : k + n ≤ 8 * w := run_le hpos hd
  refine ⟨hsmall, n, k, hflip, hd, fun hn => run_within_byte hnum hn hw hbit, ?_⟩
  have htop := flipRun_low ((hbit (k + n - 1) (by omega)).mpr (by omega))
  omega

end Executed

/-- **What is skipped as a bit flip** was executed by the bit flips, or is the seed, just
if it changes nothing or makes a run in the buffer too. -/
theorem bitflip_skip_sound_iff (cksum : Nat → List UInt8 → UInt32)
    (pointedToken : List (List UInt8)) (qCksum : UInt32) {seed : Block} {w i : Nat}
    (hw : w = 2 ∨ w = 4) (hi : i + w ≤ seed.size) (v : BitVec (8 * w)) :
    (couldBeBitflip ((wordAt w seed.bytes i ^^^ v).setWidth 32) = true →
      overwrite seed.bytes i (wordBytes v) = seed.bytes ∨ ∃ kind ∈ bitFlipKinds,
        overwrite seed.bytes i (wordBytes v) ∈
          casesOf (bitFlip (calm cksum) pointedToken (seedLen seed) kind.1 kind.2 qCksum)
            (.start seed (allUseful seed))) ↔
    (couldBeBitflip ((wordAt w seed.bytes i ^^^ v).setWidth 32) = true →
      wordAt w seed.bytes i ^^^ v = 0 ∨
        seed.size < 2 ^ 32 ∧ StageRun i (wordAt w seed.bytes i ^^^ v)) := by
  have hsame : overwrite seed.bytes i (wordBytes v) = seed.bytes
      ↔ wordAt w seed.bytes i ^^^ v = 0 := by
    rw [overwrite_word_eq_self_iff hi, eq_comm]
    exact BitVec.xor_eq_zero_iff.symm
  refine imp_congr_right fun hskip => ?_
  rw [hsame]
  refine or_congr_right' fun hne => ?_
  constructor
  · rintro ⟨kind, hkind, hcase⟩
    obtain hzero | ⟨n, k, hflip, hd⟩ := (couldBeBitflip_iff _).mp hskip
    · refine absurd (BitVec.eq_of_toNat_eq ?_) hne
      rw [← BitVec.toNat_setWidth_of_le (show 8 * w ≤ 32 by omega), hzero]
      rfl
    · rw [BitVec.toNat_setWidth_of_le (by omega)] at hd
      exact stageRun_of_executed hi hflip hd hkind hcase
  · rintro ⟨hsmall, hrun⟩
    exact executed_of_stageRun hi hsmall hrun

/-- Two zero bytes. -/
def twoZeros : Block := ⟨[0, 0], by decide⟩

theorem bitflip_skip_sound_one :
    overwrite twoZeros.bytes 0 (wordBytes (w := 2) 1) = twoZeros.bytes ∨ ∃ kind ∈ bitFlipKinds,
      overwrite twoZeros.bytes 0 (wordBytes (w := 2) 1) ∈
        casesOf (bitFlip (calm fun _ _ => 0) [] (seedLen twoZeros) kind.1 kind.2 0)
          (.start twoZeros (allUseful twoZeros)) := by
  refine (bitflip_skip_sound_iff (w := 2) (fun _ _ => 0) [] 0 (.inl rfl) (by decide) 1).mpr
    (fun _ => .inr ⟨by decide, 1, 0, .inl (.inl rfl), by decide, by decide, by decide⟩) ?_
  decide

/-- A buffer at which an addition carries into the second byte. -/
def e0 : Block := ⟨[0xe0, 0], by decide⟩

/-- `00 01` is `e0 00` plus 32. `Arithmetic16` skips it as a bit flip, and no bit flip
makes it. -/
theorem skipped_not_executed :
    carry16 (wordAt 2 e0.bytes 0) 32 .lePlus = true ∧
    couldBeBitflip ((wordAt 2 e0.bytes 0 ^^^ (wordAt 2 e0.bytes 0 + 32)).setWidth 32) = true ∧
    overwrite e0.bytes 0 (wordBytes (wordAt 2 e0.bytes 0 + 32)) = [0, 1] ∧ e0.bytes ≠ [0, 1] ∧
    [0, 1] ∉ casesOf (arithmetic16 (calm fun _ _ => 0) (seedLen e0)) (.start e0 (allUseful e0)) ∧
    ∀ kind ∈ bitFlipKinds,
      [0, 1] ∉ casesOf (bitFlip (calm fun _ _ => 0) [] (seedLen e0) kind.1 kind.2 0)
        (.start e0 (allUseful e0)) := by
  rw [forall_bitFlipKinds]
  decide +kernel

end DistFuzz.Fuzzer
