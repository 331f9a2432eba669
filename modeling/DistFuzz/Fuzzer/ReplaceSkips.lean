import DistFuzz.Fuzzer.BitflipSkips
import DistFuzz.Fuzzer.Replace
import Mathlib.Data.BitVec

/-!
# What is skipped as tried before (FuzzOne.cpp:88–227, 324–644)

The stages with interesting values leave out what `could_be_bitflip`, `could_be_arith` and
`could_be_interest` take for the work of an earlier stage. Each of those stages leaves out
something itself, and so on down to the bit flips. Here the chain is followed to its end: a
value that is left out was stored by one of the stages, or is one of three kinds that no
stage stores.

- `Tried`: the seed itself, or a case that one of the stages executes.
- `Crossing`: a run of two or four bits across a byte boundary, which is no run in the buffer.
- `couldBeArith_cases`, `couldBeInterest_cases`: what the predicates found.
- `tried_of_bitflip`, `tried_of_couldBeArith`: what is left out on their word was tried, but
  for crossing runs and the guard of `Arithmetic32`.
- `not_tried_of_crossing`: a crossing run is not tried, as every stage asks
  `could_be_bitflip` first.
- `interesting_tried_iff`: all interesting bytes are tried, and all words of 16 bits that are
  no crossing runs.
- `interesting32_tried`: words of 32 bits. What is lost besides is what that guard gets
  wrong, and halves in big-endian order, which `InterestingReplace16` does not store.
-/

namespace DistFuzz.Fuzzer

open DistFuzz.Lib

theorem swap_swap {w : Nat} {swap : BitVec (8 * w) → BitVec (8 * w)} (h : Reverses w swap)
    (x : BitVec (8 * w)) : swap (swap x) = x := by
  refine word_ext fun t ht => ?_
  rw [h _ t ht, h _ _ (by omega)]
  congr 1
  omega

/-! ### What `could_be_arith` finds -/

/-- The piece of `w` bits at place `t`. -/
def piece (w t : Nat) (x : BitVec 32) : BitVec w := (x >>> (w * t)).setWidth w

/-- Of the first `n` pieces, that at place `t` is the only one that differs. -/
def OnlyDiff (w n t : Nat) (oldVal newVal : BitVec 32) : Prop :=
  t < n ∧ ∀ s, s < n → s ≠ t → piece w s newVal = piece w s oldVal

theorem lastDiff_succ (w n : Nat) (oldVal newVal : BitVec 32) :
    lastDiff w (n + 1) oldVal newVal =
      if piece w n oldVal ≠ piece w n newVal then
        ((lastDiff w n oldVal newVal).1 + 1, piece w n oldVal, piece w n newVal)
      else lastDiff w n oldVal newVal := by
  rw [lastDiff, List.range_succ, List.foldl_append]
  rfl

/-- The loop counts the pieces that differ and keeps the last of them. -/
theorem lastDiff_spec (w n : Nat) (oldVal newVal : BitVec 32) :
    ((lastDiff w n oldVal newVal).1 = 0 → ∀ s, s < n → piece w s newVal = piece w s oldVal) ∧
    ((lastDiff w n oldVal newVal).1 = 1 → ∃ t, OnlyDiff w n t oldVal newVal ∧
      (lastDiff w n oldVal newVal).2 = (piece w t oldVal, piece w t newVal)) := by
  induction n with
  | zero => exact ⟨fun _ s hs => absurd hs (Nat.not_lt_zero s), fun h => absurd h Nat.zero_ne_one⟩
  | succ n ih =>
    rw [lastDiff_succ]
    -- the piece that was looked at last is the one that is kept, if it differs
    by_cases hdiff : piece w n oldVal ≠ piece w n newVal
    · rw [if_pos hdiff]
      refine ⟨fun h => absurd h (Nat.succ_ne_zero _), fun h => ⟨n, ⟨Nat.lt_succ_self n, ?_⟩, rfl⟩⟩
      intro s hs hne
      exact ih.1 (Nat.succ_injective h) s (by omega)
    · rw [if_neg hdiff]
      refine ⟨fun h s hs => ?_, fun h => ?_⟩
      · by_cases hsn : s = n
        · rw [hsn, not_not.mp hdiff]
        · exact ih.1 h s (by omega)
      · obtain ⟨t, ⟨ht, honly⟩, heq⟩ := ih.2 h
        refine ⟨t, ⟨by omega, fun s hs hne => ?_⟩, heq⟩
        by_cases hsn : s = n
        · rw [hsn, not_not.mp hdiff]
        · exact honly s (by omega) hne

/-- Two words of 16 bits that are close in one of the byte orders. -/
def Close16 (a b : BitVec 16) : Prop :=
  withinArith a b = true ∨ withinArith (swap16 a) (swap16 b) = true

/-- **What `could_be_arith` found**: nothing to do, a byte, a half, or a whole word of 32
bits that is not far from what it was. -/
theorem couldBeArith_cases {oldVal newVal : BitVec 32} {blen : Nat}
    (h : couldBeArith oldVal newVal blen = true) :
    oldVal = newVal ∨
    (∃ t, OnlyDiff 8 blen t oldVal newVal ∧
      withinArith (piece 8 t oldVal) (piece 8 t newVal) = true) ∨
    (blen ≠ 1 ∧ ∃ t, OnlyDiff 16 (blen / 2) t oldVal newVal ∧
      Close16 (piece 16 t oldVal) (piece 16 t newVal)) ∨
    (blen = 4 ∧ (withinArith oldVal newVal = true ∨
      withinArith (swap32 oldVal) (swap32 newVal) = true)) := by
  unfold couldBeArith at h
  split at h
  · next heq => exact .inl heq
  · dsimp only at h
    -- bytes first, then halves, and then the word as a whole
    split at h
    · next hbyte =>
      obtain ⟨t, honly, heq⟩ := (lastDiff_spec 8 blen oldVal newVal).2 hbyte.1
      have hwithin := hbyte.2
      rw [congrArg Prod.fst heq, congrArg Prod.snd heq] at hwithin
      exact .inr (.inl ⟨t, honly, hwithin⟩)
    · split at h
      · cases h
      · next hblen =>
        split at h
        · next hhalf =>
          obtain ⟨t, honly, heq⟩ := (lastDiff_spec 16 (blen / 2) oldVal newVal).2 hhalf.1
          have hclose := hhalf.2
          rw [congrArg Prod.fst heq, congrArg Prod.snd heq] at hclose
          exact .inr (.inr (.inl ⟨hblen, t, honly, hclose⟩))
        · exact .inr (.inr (.inr (of_decide_eq_true h)))

/-- **What `could_be_interest` found** for a word of 16 bits or of 32. -/
theorem couldBeInterest_cases {oldVal newVal : BitVec 32} {blen : Nat}
    (h : couldBeInterest oldVal newVal blen false = true) :
    oldVal = newVal ∨
    (∃ t < blen, ∃ x ∈ interesting8, newVal = patched oldVal t x) ∨
    (blen ≠ 2 ∧ ∃ t < blen - 1, ∃ x ∈ interesting16,
      newVal = patched oldVal t x ∨ newVal = patched oldVal t (swap16 x)) := by
  unfold couldBeInterest at h
  split at h
  · next heq => exact .inl heq
  · split at h
    · next hbyte =>
      obtain ⟨t, ht, hx⟩ := List.any_eq_true.mp hbyte
      obtain ⟨x, hx, heq⟩ := List.any_eq_true.mp hx
      exact .inr (.inl ⟨t, List.mem_range.mp ht, x, hx, of_decide_eq_true heq⟩)
    · split at h
      · cases h
      · next htwo =>
        split at h
        · next hhalf =>
          obtain ⟨t, ht, hx⟩ := List.any_eq_true.mp hhalf
          obtain ⟨x, hx, heq⟩ := List.any_eq_true.mp hx
          refine .inr (.inr ⟨fun h2 => htwo ⟨h2, rfl⟩, t, List.mem_range.mp ht, x, hx, ?_⟩)
          exact (of_decide_eq_true heq).imp_right And.right
        · exact absurd (of_decide_eq_true h).2.1 (by decide)

/-! ### Words of the buffer as numbers of 32 bits -/

section Pieces

variable {v w : Nat}

theorem eq_of_setWidth_eq (hw : w ≤ 4) {x y : BitVec (8 * w)}
    (h : x.setWidth 32 = y.setWidth 32) : x = y := by
  have hle : 8 * w ≤ 32 := by omega
  refine BitVec.eq_of_toNat_eq ?_
  rw [← BitVec.toNat_setWidth_of_le hle, h, BitVec.toNat_setWidth_of_le hle]

theorem piece_setWidth (hw : w ≤ 4) {t : Nat} (ht : v * t + v ≤ w) (x : BitVec (8 * w)) :
    piece (8 * v) t (x.setWidth 32) = part v (v * t) x := by
  refine BitVec.eq_of_getLsbD_eq fun k hk => ?_
  rw [piece, part, BitVec.getLsbD_setWidth, BitVec.getLsbD_ushiftRight, BitVec.getLsbD_setWidth,
    BitVec.getLsbD_extractLsb', Nat.mul_assoc,
    decide_eq_true (show 8 * (v * t) + k < 32 by omega), Bool.true_and]

/-- Where only one piece differs, the bytes outside of it are the same. -/
theorem OnlyDiff.byteOf_eq (hv : 0 < v) (hw : w ≤ 4) {n t : Nat} (hn : v * n = w)
    {x y : BitVec (8 * w)} (h : OnlyDiff (8 * v) n t (x.setWidth 32) (y.setWidth 32)) (s : Nat)
    (hs : s < w) (hout : ¬(v * t ≤ s ∧ s < v * t + v)) : byteOf y s = byteOf x s := by
  have hdiv : v * (s / v) + s % v = s := Nat.div_add_mod s v
  have hmod : s % v < v := Nat.mod_lt s hv
  have hlt : s / v < n := (Nat.div_lt_iff_lt_mul hv).mpr (by rwa [Nat.mul_comm, hn])
  have hfit : v * (s / v) + v ≤ w := by
    rw [← hn, ← Nat.mul_succ]
    exact Nat.mul_le_mul_left v hlt
  have hne : s / v ≠ t := by
    rintro rfl
    omega
  have hpiece := h.2 (s / v) hlt hne
  rw [piece_setWidth hw hfit, piece_setWidth hw hfit] at hpiece
  rw [← hdiv, ← byteOf_part y hmod, ← byteOf_part x hmod, hpiece]

theorem getLsbD_patched {n i : Nat} (hfit : i * 8 + n ≤ 32) (oldVal : BitVec 32) (x : BitVec n)
    (b : Nat) : (patched oldVal i x).getLsbD b
      = if i * 8 ≤ b ∧ b < i * 8 + n then x.getLsbD (b - i * 8) else oldVal.getLsbD b := by
  rw [patched, BitVec.getLsbD_or, BitVec.getLsbD_and, BitVec.getLsbD_not,
    BitVec.getLsbD_shiftLeft, BitVec.getLsbD_shiftLeft, BitVec.getLsbD_setWidth,
    BitVec.getLsbD_setWidth, BitVec.getLsbD_allOnes]
  by_cases hb : b < 32
  · by_cases hlo : i * 8 ≤ b
    · by_cases hhi : b < i * 8 + n
      · simp [hb, hlo, hhi, show b - i * 8 < 32 by omega, show b - i * 8 < n by omega,
          Nat.not_lt.mpr hlo]
      · simp [hb, hlo, hhi, show ¬b - i * 8 < n by omega,
          BitVec.getLsbD_of_ge x _ (show n ≤ b - i * 8 by omega)]
    · simp [hb, hlo, Nat.lt_of_not_le hlo]
  · have hout : ¬(i * 8 ≤ b ∧ b < i * 8 + n) := by omega
    simp [hb, hout, BitVec.getLsbD_of_ge oldVal b (by omega)]

/-- The bytes of a patched word. -/
theorem byteOf_patched (hw : w ≤ 4) {t : Nat} (ht : t + v ≤ w) {x y : BitVec (8 * w)}
    {z : BitVec (8 * v)} (h : y.setWidth 32 = patched (x.setWidth 32) t z) {s : Nat} (hs : s < w) :
    byteOf y s = if t ≤ s ∧ s < t + v then byteOf z (s - t) else byteOf x s := by
  -- bit by bit in the 32 bits of the comparison, then byte by byte
  have hbit : ∀ b, b < 32 → y.getLsbD b
      = if t * 8 ≤ b ∧ b < t * 8 + 8 * v then z.getLsbD (b - t * 8) else x.getLsbD b := by
    intro b hb
    have hb' := congrArg (fun d : BitVec 32 => d.getLsbD b) h
    rw [getLsbD_patched (by omega), BitVec.getLsbD_setWidth, BitVec.getLsbD_setWidth,
      decide_eq_true hb, Bool.true_and, Bool.true_and] at hb'
    exact hb'
  have hbyte : ∀ {m : Nat} (d : BitVec (8 * m)) (s k : Nat), k < 8 →
      (byteOf d s).toBitVec.getLsbD k = d.getLsbD (8 * s + k) := by
    intro m d s k hk
    show (d.extractLsb' (8 * s) 8).getLsbD k = _
    rw [BitVec.getLsbD_extractLsb', decide_eq_true hk, Bool.true_and]
  refine byte_ext fun k hk => ?_
  rw [hbyte y s k hk, hbit _ (by omega)]
  by_cases hin : t ≤ s ∧ s < t + v
  · rw [if_pos hin, if_pos (by omega), hbyte z _ k hk]
    congr 1
    omega
  · rw [if_neg hin, if_neg (by omega), hbyte x _ k hk]

/-- A patched word is the patch stored. -/
theorem overwrite_patched {l : List UInt8} {i t : Nat} (hw : w ≤ 4) (hi : i + w ≤ l.length)
    (ht : t + v ≤ w) {y : BitVec (8 * w)} {z : BitVec (8 * v)}
    (h : y.setWidth 32 = patched ((wordAt w l i).setWidth 32) t z) :
    overwrite l i (wordBytes y) = overwrite l (i + t) (wordBytes z) := by
  refine (overwrite_word_eq_iff hi ht y z).mpr fun s hs => ?_
  rw [byteOf_patched hw ht h hs, byteOf_wordAt _ _ hs]

end Pieces

/-! ### Close values are sums and differences -/

theorem mem_arithNumbers {j : Nat} : j ∈ arithNumbers ↔ 1 ≤ j ∧ j ≤ 35 := by
  rw [arithNumbers, List.mem_range'_1, Nat.lt_iff_add_one_le, show arithMax.toNat = 35 from rfl]
  omega

theorem withinArith_cases {n : Nat} {a b : BitVec n} (h : withinArith a b = true) :
    b = a ∨ ∃ j ∈ arithNumbers, b = a + BitVec.ofNat n j ∨ b = a - BitVec.ofNat n j := by
  have hmem : ∀ {c : BitVec n}, c ≠ 0 → c.toNat ≤ arithMax.toNat → c.toNat ∈ arithNumbers := by
    intro c hc hle
    exact mem_arithNumbers.mpr ⟨Nat.pos_of_ne_zero fun h0 => hc (BitVec.eq_of_toNat_eq h0), hle⟩
  by_cases hab : b = a
  · exact .inl hab
  · right
    rcases of_decide_eq_true h with hsub | hadd
    · refine ⟨_, hmem (fun h0 => hab (sub_eq_zero.mp h0).symm) hsub, .inr ?_⟩
      rw [BitVec.ofNat_toNat, BitVec.setWidth_eq, sub_sub_cancel]
    · refine ⟨_, hmem (fun h0 => hab (sub_eq_zero.mp h0)) hadd, .inl ?_⟩
      rw [BitVec.ofNat_toNat, BitVec.setWidth_eq, add_sub_cancel]

/-- Words that are close in one of the byte orders. -/
theorem close_cases {w : Nat} {swap : BitVec (8 * w) → BitVec (8 * w)} (hswap : Reverses w swap)
    {a b : BitVec (8 * w)} (h : withinArith a b = true ∨ withinArith (swap a) (swap b) = true) :
    b = a ∨ ∃ j ∈ arithNumbers, ∃ m : Arith, b = m.apply swap a j := by
  rcases h with hle | hbe
  · rcases withinArith_cases hle with heq | ⟨j, hj, heq | heq⟩
    · exact .inl heq
    · exact .inr ⟨j, hj, .lePlus, heq⟩
    · exact .inr ⟨j, hj, .leMinus, heq⟩
  · rcases withinArith_cases hbe with heq | ⟨j, hj, heq | heq⟩
    · exact .inl (by rw [← swap_swap hswap b, heq, swap_swap hswap])
    · exact .inr ⟨j, hj, .bePlus, by rw [Arith.apply, ← heq, swap_swap hswap]⟩
    · exact .inr ⟨j, hj, .beMinus, by rw [Arith.apply, ← heq, swap_swap hswap]⟩

/-! ### What is tried -/

/-- What the stages are given besides the seed. -/
structure StageArgs where
  cksum : Nat → List UInt8 → UInt32
  pointedToken : List (List UInt8)
  qCksum : UInt32
  turns : Nat

/-- The stages that flip bits or store numbers. -/
def valueStages (a : StageArgs) (len : UInt64) : List (Stage Unit) :=
  bitFlipKinds.map (fun kind =>
      bitFlip (calm a.cksum) a.pointedToken len kind.1 kind.2 a.qCksum) ++
    [arithmetic8 (calm a.cksum) a.turns len, arithmetic16 (calm a.cksum) len,
      arithmetic32 (calm a.cksum) len, interestingReplace8 (calm a.cksum) len,
      interestingReplace16 (calm a.cksum) len, interestingReplace32 (calm a.cksum) len]

/-- The seed, or a case that a stage executes with all bytes useful. -/
def Tried (a : StageArgs) (seed : Block) (case : List UInt8) : Prop :=
  case = seed.bytes ∨ ∃ x ∈ valueStages a (seedLen seed),
    case ∈ casesOf x (.start seed (allUseful seed))

instance (a : StageArgs) (seed : Block) (case : List UInt8) : Decidable (Tried a seed case) :=
  inferInstanceAs (Decidable (_ ∨ _))

/-- A run of at most four bits that crosses a byte boundary of the word. -/
def Crossing {m : Nat} (d : BitVec m) : Prop :=
  ∃ n k, n ≤ 4 ∧ FlipRun n k ∧ d.toNat = (2 ^ n - 1) * 2 ^ k ∧ 8 < k % 8 + n

theorem not_crossing_byte (d : BitVec (8 * 1)) : ¬Crossing d := by
  rintro ⟨n, k, -, hflip, hd, hcross⟩
  have hle := run_le hflip.pos.1 hd
  omega

theorem Crossing.shift {m m' off : Nat} {d : BitVec m} {e : BitVec m'}
    (h : e.toNat = d.toNat * 2 ^ (8 * off)) (hd : Crossing d) : Crossing e := by
  obtain ⟨n, k, hn, hflip, hrun, hcross⟩ := hd
  refine ⟨n, k + 8 * off, hn, .inl ?_, ?_, by omega⟩
  · unfold FlipRun at hflip
    omega
  · rw [h, hrun, Nat.pow_add, Nat.mul_assoc]

section Stages

variable {a : StageArgs} {seed : Block} {i w : Nat}

/-- What is taken for a bit flip is one, but for the crossing runs. -/
theorem tried_of_bitflip (hsize : seed.size ≤ 2 ^ 29) (hw : w ≤ 4) (hi : i + w ≤ seed.size)
    {x : BitVec (8 * w)} (h : couldBeBitflip ((wordAt w seed.bytes i ^^^ x).setWidth 32) = true) :
    Tried a seed (overwrite seed.bytes i (wordBytes x)) ∨
      Crossing (wordAt w seed.bytes i ^^^ x) := by
  obtain hzero | ⟨n, k, hflip, hd⟩ := (couldBeBitflip_iff _).mp h
  · left
    left
    refine (overwrite_word_eq_self_iff hi x).mpr (BitVec.xor_eq_zero_iff.mp ?_).symm
    refine BitVec.eq_of_toNat_eq ?_
    rw [← BitVec.toNat_setWidth_of_le (show 8 * w ≤ 32 by omega), hzero]
    rfl
  · rw [BitVec.toNat_setWidth_of_le (by omega)] at hd
    have hend := run_le hflip.pos.1 hd
    -- a short run over the end of a byte is found by no stage
    by_cases hcross : n ≤ 4 ∧ 8 < k % 8 + n
    · exact .inr ⟨n, k, hcross.1, hflip, hd, hcross.2⟩
    · have hrun : StageRun i (wordAt w seed.bytes i ^^^ x) := by
        refine ⟨n, k, hflip, hd, by omega, ?_⟩
        have hpos := hflip.pos.1
        omega
      obtain ⟨kind, hkind, hcase⟩ := @executed_of_stageRun seed a.pointedToken a.qCksum a.cksum
        w i hi (by omega) x hrun
      exact .inl (.inr ⟨_, List.mem_append_left _ (List.mem_map_of_mem hkind), hcase⟩)

theorem tried_of_last {case : List UInt8} {x : Stage Unit}
    (hx : x ∈ [arithmetic8 (calm a.cksum) a.turns (seedLen seed),
      arithmetic16 (calm a.cksum) (seedLen seed), arithmetic32 (calm a.cksum) (seedLen seed),
      interestingReplace8 (calm a.cksum) (seedLen seed),
      interestingReplace16 (calm a.cksum) (seedLen seed),
      interestingReplace32 (calm a.cksum) (seedLen seed)])
    (h : case ∈ casesOf x (.start seed (allUseful seed))) : Tried a seed case :=
  .inr ⟨x, List.mem_append_right _ hx, h⟩

/-- Bytes are tried unless they are taken for bit flips, and these are tried too. -/
theorem tried_mutated8 (hturns : seed.size < a.turns) (hsize : seed.size ≤ 2 ^ 29)
    (hi : i + 1 ≤ seed.size) {j : Nat} (hj : j ∈ arithNumbers) (m : Arith) :
    Tried a seed (mutated 1 id seed.bytes i j m) := by
  cases hflip : couldBeBitflip ((wordAt 1 seed.bytes i
      ^^^ m.apply id (wordAt 1 seed.bytes i) j).setWidth 32) with
  | true => exact (tried_of_bitflip hsize (by decide) hi hflip).resolve_right (not_crossing_byte _)
  | false =>
    refine tried_of_last ?_ (mem_arithmetic8 (by omega) hi hj m hflip a.cksum hturns)
    exact List.mem_cons_self

/-- What the guard of `Arithmetic16` turns away stays in a byte. -/
theorem tried_mutated16 (hturns : seed.size < a.turns) (hsize : seed.size ≤ 2 ^ 29)
    (hi : i + 2 ≤ seed.size) {j : Nat} (hj : j ∈ arithNumbers) (m : Arith) :
    Tried a seed (mutated 2 swap16 seed.bytes i j m) ∨
      Crossing (wordAt 2 seed.bytes i ^^^ m.apply swap16 (wordAt 2 seed.bytes i) j) := by
  cases hflip : couldBeBitflip ((wordAt 2 seed.bytes i
      ^^^ m.apply swap16 (wordAt 2 seed.bytes i) j).setWidth 32) with
  | true => exact tried_of_bitflip hsize (by decide) hi hflip
  | false =>
    left
    cases hcarry : carry16 (wordAt 2 seed.bytes i) j m with
    | true =>
      refine tried_of_last ?_ (mem_arithmetic16 (by omega) hi hj m hcarry hflip a.cksum)
      exact List.mem_cons_of_mem _ List.mem_cons_self
    | false =>
      have hlow : m.low 1 2 ≤ 1 := by cases m <;> decide
      rw [apply_narrow (v := 1) (w := 2) (by decide) hi reverses_swap16 reverses_id m
        (stays_of_carry16 hcarry)]
      exact tried_mutated8 hturns hsize (by omega) hj m

/-- What the guard of `Arithmetic32` turns away stays in a half, but for the wrong order. -/
theorem tried_mutated32 (hturns : seed.size < a.turns) (hsize : seed.size ≤ 2 ^ 29)
    (hi : i + 4 ≤ seed.size) {j : Nat} (hj : j ∈ arithNumbers) (m : Arith) :
    Tried a seed (mutated 4 swap32 seed.bytes i j m) ∨
      Crossing (wordAt 4 seed.bytes i ^^^ m.apply swap32 (wordAt 4 seed.bytes i) j) ∨
      WrongOrder seed.bytes i j m := by
  by_cases hwrong : WrongOrder seed.bytes i j m
  · exact .inr (.inr hwrong)
  -- taken for a bit flip, turned away by the guard, or tried by the stage itself
  cases hflip : couldBeBitflip ((wordAt 4 seed.bytes i
      ^^^ m.apply swap32 (wordAt 4 seed.bytes i) j).setWidth 32) with
  | true => exact or_assoc.mp (.inl (tried_of_bitflip hsize (by decide) hi hflip))
  | false =>
    left
    rw [BitVec.setWidth_eq] at hflip
    cases hcarry : carry32 (wordAt 4 seed.bytes i) j m with
    | true =>
      refine tried_of_last (List.mem_cons_of_mem _ (List.mem_cons_of_mem _ List.mem_cons_self))
        (mem_casesOf (arithmetic32_logs (toNat_seedLen seed) (length_allUseful seed))
          (not_unitFailed_calm a.cksum) (by omega) (by decide) hi ?_)
      refine List.mem_flatMap.mpr ⟨j, hj, List.mem_map.mpr ⟨m, ?_, rfl⟩⟩
      refine List.mem_filter.mpr ⟨by cases m <;> decide, ?_⟩
      rw [hcarry, hflip]
      rfl
    | false =>
      have hstays := (stays_of_carry32 (mem_arithNumbers.mp hj) hcarry).mpr hwrong
      rcases (notLost_of_stays hi hj hstays hflip).2 (by omega) a.cksum a.turns hturns with h | h
      · exact tried_of_last (List.mem_cons_of_mem _ List.mem_cons_self) h
      · exact tried_of_last List.mem_cons_self h

/-- A byte that is close to what it was. -/
theorem tried_near8 (hturns : seed.size < a.turns) (hsize : seed.size ≤ 2 ^ 29)
    (hi : i + 1 ≤ seed.size) {x : BitVec (8 * 1)}
    (h : withinArith (wordAt 1 seed.bytes i) x = true) :
    Tried a seed (overwrite seed.bytes i (wordBytes x)) := by
  rcases close_cases reverses_id (.inl h) with rfl | ⟨j, hj, m, rfl⟩
  · exact .inl ((overwrite_word_eq_self_iff hi _).mpr rfl)
  · exact tried_mutated8 hturns hsize hi hj m

/-- A word of 16 bits that is close to what it was. -/
theorem tried_near16 (hturns : seed.size < a.turns) (hsize : seed.size ≤ 2 ^ 29)
    (hi : i + 2 ≤ seed.size) {x : BitVec (8 * 2)} (h : Close16 (wordAt 2 seed.bytes i) x) :
    Tried a seed (overwrite seed.bytes i (wordBytes x)) ∨
      Crossing (wordAt 2 seed.bytes i ^^^ x) := by
  rcases close_cases reverses_swap16 h with rfl | ⟨j, hj, m, rfl⟩
  · exact .inl (.inl ((overwrite_word_eq_self_iff hi _).mpr rfl))
  · exact tried_mutated16 hturns hsize hi hj m

/-- A case that changes a part of a window only. -/
theorem tried_or_crossing_of_part {v off : Nat} (hi : i + w ≤ seed.size) (hoff : off + v ≤ w)
    {x : BitVec (8 * w)} {y : BitVec (8 * v)}
    (heq : overwrite seed.bytes i (wordBytes x) = overwrite seed.bytes (i + off) (wordBytes y))
    (h : Tried a seed (overwrite seed.bytes (i + off) (wordBytes y)) ∨
      Crossing (wordAt v seed.bytes (i + off) ^^^ y)) :
    Tried a seed (overwrite seed.bytes i (wordBytes x)) ∨
      Crossing (wordAt w seed.bytes i ^^^ x) := by
  rw [heq]
  exact h.imp_right (Crossing.shift (toNat_xor_of_overwrite_eq hi hoff heq))

/-- **What `could_be_arith` leaves out** was tried, but for crossing runs and, in a word of 32
bits, the wrong order. -/
theorem tried_of_couldBeArith (hturns : seed.size < a.turns) (hsize : seed.size ≤ 2 ^ 29)
    (hw : w = 1 ∨ w = 2 ∨ w = 4) (hi : i + w ≤ seed.size) {x : BitVec (8 * w)}
    (h : couldBeArith ((wordAt w seed.bytes i).setWidth 32) (x.setWidth 32) w = true) :
    Tried a seed (overwrite seed.bytes i (wordBytes x)) ∨
      Crossing (wordAt w seed.bytes i ^^^ x) ∨
      w = 4 ∧ ∃ j, WrongOrder seed.bytes i j .beMinus ∧
        overwrite seed.bytes i (wordBytes x) = mutated 4 swap32 seed.bytes i j .beMinus := by
  have hfour : w ≤ 4 := by omega
  rcases couldBeArith_cases h with heq | ⟨t, honly, hnear⟩ | ⟨hne, t, honly, hnear⟩ | ⟨rfl, hnear⟩
  · have hsame := eq_of_setWidth_eq hfour heq.symm
    exact .inl (.inl ((overwrite_word_eq_self_iff hi x).mpr hsame))
  · -- a byte
    have ht : 1 * t + 1 ≤ w := by have := honly.1; omega
    rw [piece_setWidth (v := 1) hfour ht, piece_setWidth (v := 1) hfour ht, part_wordAt ht] at hnear
    refine or_assoc.mp (.inl (tried_or_crossing_of_part hi ht (overwrite_part hi ht ?_) (.inl ?_)))
    · exact honly.byteOf_eq (v := 1) Nat.one_pos hfour (Nat.one_mul w)
    · exact tried_near8 hturns hsize (by omega) hnear
  · -- a half
    have hhalf : 2 * (w / 2) = w := by omega
    have ht : 2 * t + 2 ≤ w := by have := honly.1; omega
    rw [piece_setWidth (v := 2) hfour ht, piece_setWidth (v := 2) hfour ht, part_wordAt ht] at hnear
    refine or_assoc.mp (.inl (tried_or_crossing_of_part hi ht (overwrite_part hi ht ?_) ?_))
    · exact honly.byteOf_eq (v := 2) Nat.two_pos hfour hhalf
    · exact tried_near16 hturns hsize (by omega) hnear
  · -- all of a word of 32 bits
    rw [BitVec.setWidth_eq, BitVec.setWidth_eq] at hnear
    rcases close_cases reverses_swap32 hnear with rfl | ⟨j, hj, m, rfl⟩
    · exact .inl (.inl ((overwrite_word_eq_self_iff hi _).mpr rfl))
    · refine (tried_mutated32 hturns hsize hi hj m).imp_right (Or.imp_right ?_)
      rintro ⟨rfl, hwrong⟩
      exact ⟨rfl, j, ⟨rfl, hwrong⟩, rfl⟩

/-- **Interesting bytes are tried**, every one at every position. -/
theorem tried_interesting8 (hturns : seed.size < a.turns) (hsize : seed.size ≤ 2 ^ 29)
    (hi : i + 1 ≤ seed.size) {x : BitVec (8 * 1)} (hx : x ∈ interesting8) :
    Tried a seed (overwrite seed.bytes i (wordBytes x)) := by
  cases hflip : couldBeBitflip ((wordAt 1 seed.bytes i ^^^ x).setWidth 32) with
  | true => exact (tried_of_bitflip hsize (by decide) hi hflip).resolve_right (not_crossing_byte _)
  | false =>
    cases harith : couldBeArith ((wordAt 1 seed.bytes i).setWidth 32) (x.setWidth 32) 1 with
    | true =>
      refine (tried_of_couldBeArith hturns hsize (.inl rfl) hi harith).resolve_right ?_
      rintro (hcross | ⟨hw, -⟩)
      · exact not_crossing_byte _ hcross
      · cases hw
    | false =>
      refine tried_of_last (x := interestingReplace8 (calm a.cksum) (seedLen seed)) (by simp)
        (mem_casesOf (windowStage_logs (by decide) (by decide) (toNat_seedLen seed)
          (length_allUseful seed)) (not_unitFailed_calm a.cksum) (by omega) (by decide) hi ?_)
      refine List.mem_filter.mpr ⟨hx, ?_⟩
      rw [hflip, harith]
      rfl

/-- A window with an interesting byte in it. -/
theorem tried_patched8 (hturns : seed.size < a.turns) (hsize : seed.size ≤ 2 ^ 29)
    (hw : w ≤ 4) (hi : i + w ≤ seed.size) {x : BitVec (8 * w)} {t : Nat} (ht : t < w)
    {y : BitVec (8 * 1)} (hy : y ∈ interesting8)
    (h : x.setWidth 32 = patched ((wordAt w seed.bytes i).setWidth 32) t y) :
    Tried a seed (overwrite seed.bytes i (wordBytes x)) := by
  rw [overwrite_patched (v := 1) hw hi ht h]
  exact tried_interesting8 hturns hsize (by omega) hy

/-- **Interesting words of 16 bits are tried**, but for crossing runs. -/
theorem tried_interesting16 (hturns : seed.size < a.turns) (hsize : seed.size ≤ 2 ^ 29)
    (hi : i + 2 ≤ seed.size) {x : BitVec (8 * 2)} (hx : x ∈ interesting16) :
    Tried a seed (overwrite seed.bytes i (wordBytes x)) ∨
      Crossing (wordAt 2 seed.bytes i ^^^ x) := by
  -- the three checks in the order of the source; what passes them all is tried here
  cases hflip : couldBeBitflip ((wordAt 2 seed.bytes i ^^^ x).setWidth 32) with
  | true => exact tried_of_bitflip hsize (by decide) hi hflip
  | false =>
    cases harith : couldBeArith ((wordAt 2 seed.bytes i).setWidth 32) (x.setWidth 32) 2 with
    | true =>
      refine (or_assoc.mpr (tried_of_couldBeArith hturns hsize (.inr (.inl rfl)) hi
        harith)).resolve_right ?_
      rintro ⟨hw, -⟩
      cases hw
    | false =>
      left
      cases hinterest : couldBeInterest ((wordAt 2 seed.bytes i).setWidth 32) (x.setWidth 32) 2
          false with
      | true =>
        rcases couldBeInterest_cases hinterest with heq | ⟨t, ht, y, hy, heq⟩ | ⟨hne, -⟩
        · have hsame := eq_of_setWidth_eq (w := 2) (by decide) heq.symm
          exact .inl ((overwrite_word_eq_self_iff hi x).mpr hsame)
        · exact tried_patched8 hturns hsize (by decide) hi ht hy heq
        · exact absurd rfl hne
      | false =>
        refine tried_of_last (x := interestingReplace16 (calm a.cksum) (seedLen seed)) (by simp)
          (mem_casesOf (windowStage_logs (by decide) (by decide) (toNat_seedLen seed)
            (length_allUseful seed)) (not_unitFailed_calm a.cksum) (by omega) (by decide) hi ?_)
        refine List.mem_filter.mpr ⟨hx, ?_⟩
        rw [hflip, harith, hinterest]
        rfl

end Stages

/-! ### Crossing runs are not tried -/

section Lost

variable {a : StageArgs} {seed : Block} {i w : Nat}

/-- What a stage over windows executes is one of its values at a window. -/
theorem exists_of_mem_casesOf {tries : BitVec (8 * w) → List (BitVec (8 * w))}
    {Err : Halt → Prop} {x : Stage Unit} {K' : Unit → StageState → Prop}
    (h : Logs StageState.trials Err (Intact seed (allUseful seed)) x K'
      (stageTrials seed (allUseful seed) w tries (seedLen seed)))
    (hno : ∀ e, ¬Err e) (hsmall : seed.size < 2 ^ 32) (hw : 0 < w) {case : List UInt8}
    (hcase : case ∈ casesOf x (.start seed (allUseful seed))) :
    ∃ i v, i + w ≤ seed.size ∧ v ∈ tries (wordAt w seed.bytes i) ∧
      case = overwrite seed.bytes i (wordBytes v) := by
  rw [casesOf_eq h hno (intact_start _ _) rfl] at hcase
  obtain ⟨t, ht, rfl⟩ := List.mem_map.mp hcase
  obtain ⟨i, hi, ht⟩ := List.mem_flatMap.mp ht
  rw [List.mem_range] at hi
  have hfit : i + w ≤ seed.size := by omega
  rw [turnTrials, if_pos (usefulIn_allUseful hw hfit)] at ht
  obtain ⟨v, hv, rfl⟩ := List.mem_map.mp ht
  refine ⟨i, v, hfit, hv, caseOf_eq ?_ (by rwa [toNat_seedLen])⟩
  rw [length_overwrite (by rwa [length_wordBytes]), toNat_seedLen]
  rfl

/-- `could_be_bitflip` gives one answer for a change, through whatever window. -/
theorem couldBeBitflip_change {l : List UInt8} {v w i j : Nat} (hw : w ≤ 4) (hv : v ≤ 4)
    (hi : i + w ≤ l.length) (hj : j + v ≤ l.length) {x : BitVec (8 * w)} {y : BitVec (8 * v)}
    (h : overwrite l i (wordBytes x) = overwrite l j (wordBytes y)) :
    couldBeBitflip ((wordAt w l i ^^^ x).setWidth 32)
      = couldBeBitflip ((wordAt v l j ^^^ y).setWidth 32) := by
  have hchange := change_eq hi hj h
  rw [← BitVec.toNat_setWidth_of_le (show 8 * w ≤ 32 by omega),
    ← BitVec.toNat_setWidth_of_le (show 8 * v ≤ 32 by omega)] at hchange
  rcases Nat.le_total i j with hij | hji
  · obtain ⟨off, rfl⟩ := Nat.le.dest hij
    refine @couldBeBitflip_shift _ _ off
      (Nat.eq_of_mul_eq_mul_right (Nat.two_pow_pos (8 * i)) ?_)
    rw [hchange, Nat.mul_add, Nat.pow_add, Nat.mul_assoc, Nat.mul_comm (2 ^ (8 * i))]
  · obtain ⟨off, rfl⟩ := Nat.le.dest hji
    refine (@couldBeBitflip_shift _ _ off
      (Nat.eq_of_mul_eq_mul_right (Nat.two_pow_pos (8 * j)) ?_)).symm
    rw [← hchange, Nat.mul_add, Nat.pow_add, Nat.mul_assoc, Nat.mul_comm (2 ^ (8 * j))]

theorem bitflip_of_crossing (hw : w ≤ 4) {d : BitVec (8 * w)} (h : Crossing d) :
    couldBeBitflip (d.setWidth 32) = true := by
  obtain ⟨n, k, -, hflip, hd, -⟩ := h
  refine (couldBeBitflip_iff _).mpr (.inr ⟨n, k, hflip, ?_⟩)
  rwa [BitVec.toNat_setWidth_of_le (by omega)]

/-- A crossing run is no run in the buffer. -/
theorem not_stageRun_of_crossing {m : Nat} {d : BitVec m} (h : Crossing d) : ¬StageRun i d := by
  rintro ⟨n, k, hflip, hd, hbyte, -⟩
  obtain ⟨n', k', hle, hflip', hd', hcross⟩ := h
  obtain ⟨rfl, rfl⟩ := run_unique hflip.pos.1 hflip'.pos.1 hd hd'
  have hin := hbyte hle
  omega

/-- The values at a window leave bit flips out. -/
def NoFlips {v : Nat} (tries : BitVec (8 * v) → List (BitVec (8 * v))) : Prop :=
  ∀ orig, ∀ y ∈ tries orig, couldBeBitflip ((orig ^^^ y).setWidth 32) = false

theorem noFlips_arith8Tries : NoFlips (v := 1) arith8Tries := by
  intro orig y hy
  obtain ⟨j, -, hy⟩ := List.mem_flatMap.mp hy
  exact (Bool.not_eq_true' _).mp (List.mem_filter.mp hy).2

theorem noFlips_arith16Tries : NoFlips (v := 2) arith16Tries := by
  intro orig y hy
  obtain ⟨j, -, m, -, hflip, -⟩ := mem_arith16Tries.mp hy
  exact hflip

theorem noFlips_arith32Tries : NoFlips (v := 4) arith32Tries := by
  intro orig y hy
  obtain ⟨j, -, hy⟩ := List.mem_flatMap.mp hy
  obtain ⟨m, hm, rfl⟩ := List.mem_map.mp hy
  have hflip := (Bool.and_eq_true_iff.mp (List.mem_filter.mp hm).2).2
  rw [BitVec.setWidth_eq]
  exact (Bool.not_eq_true' _).mp hflip

theorem noFlips_interest8Tries : NoFlips (v := 1) interest8Tries := by
  intro orig y hy
  exact (Bool.not_eq_true' _).mp (Bool.and_eq_true_iff.mp (List.mem_filter.mp hy).2).1

theorem noFlips_interest16Tries : NoFlips (v := 2) interest16Tries := by
  intro orig y hy
  have hflip := (Bool.and_eq_true_iff.mp (List.mem_filter.mp hy).2).1
  exact (Bool.not_eq_true' _).mp (Bool.and_eq_true_iff.mp hflip).1

theorem noFlips_interest32Tries : NoFlips (v := 4) interest32Tries := by
  intro orig y hy
  have hflip := (Bool.and_eq_true_iff.mp (List.mem_filter.mp hy).2).1
  rw [BitVec.setWidth_eq]
  exact (Bool.not_eq_true' _).mp (Bool.and_eq_true_iff.mp hflip).1

/-- A stage that turns bit flips away does not execute a crossing run. -/
theorem not_mem_of_crossing {v : Nat} {tries : BitVec (8 * v) → List (BitVec (8 * v))}
    {Err : Halt → Prop} {s : Stage Unit} {K' : Unit → StageState → Prop}
    (hlogs : Logs StageState.trials Err (Intact seed (allUseful seed)) s K'
      (stageTrials seed (allUseful seed) v tries (seedLen seed)))
    (hno : ∀ e, ¬Err e) (hsmall : seed.size < 2 ^ 32) (hv : 0 < v ∧ v ≤ 4)
    (htries : NoFlips tries)
    (hw : w ≤ 4) (hi : i + w ≤ seed.size) {x : BitVec (8 * w)}
    (h : Crossing (wordAt w seed.bytes i ^^^ x)) :
    overwrite seed.bytes i (wordBytes x) ∉ casesOf s (.start seed (allUseful seed)) := by
  intro hcase
  obtain ⟨j, y, hj, hy, heq⟩ := exists_of_mem_casesOf hlogs hno hsmall hv.1 hcase
  have hflip := couldBeBitflip_change hw hv.2 hi hj heq
  rw [bitflip_of_crossing hw h, htries _ y hy] at hflip
  cases hflip

/-- **A crossing run is not tried.** -/
theorem not_tried_of_crossing (hturns : seed.size < a.turns) (hsize : seed.size < 2 ^ 32)
    (hw : w ≤ 4) (hi : i + w ≤ seed.size) {x : BitVec (8 * w)}
    (h : Crossing (wordAt w seed.bytes i ^^^ x)) :
    ¬Tried a seed (overwrite seed.bytes i (wordBytes x)) := by
  have hcalm := not_unitFailed_calm a.cksum
  have hlen := toNat_seedLen seed
  have huseful := length_allUseful seed
  rintro (hsame | ⟨s, hs, hcase⟩)
  · obtain ⟨n, k, -, hflip, hd, -⟩ := h
    have hzero := (overwrite_word_eq_self_iff hi x).mp hsame
    rw [hzero, BitVec.xor_self] at hd
    have hne : (2 ^ n - 1) * 2 ^ k ≠ 0 := by
      have htwo := Nat.lt_two_pow_self (n := n)
      have hpos := hflip.pos.1
      exact Nat.mul_ne_zero (by omega) (Nat.two_pow_pos k).ne'
    exact hne hd.symm
  · rw [valueStages, List.mem_append, List.mem_map] at hs
    rcases hs with ⟨kind, hkind, rfl⟩ | hs
    -- flips of bits are of whole runs, and the run crosses a byte, where no stage starts one
    · obtain ⟨n, k, -, hflip, hd, -⟩ := id h
      exact not_stageRun_of_crossing h (stageRun_of_executed hi hflip hd hkind hcase).2
    · simp only [List.mem_cons, List.not_mem_nil, or_false] at hs
      rcases hs with rfl | rfl | rfl | rfl | rfl | rfl
      · refine not_mem_of_crossing (arithmetic8_logs hlen huseful hsize a.turns) ?_ hsize
          (by decide) noFlips_arith8Tries hw hi h hcase
        rintro e (he | ⟨-, hle⟩)
        · exact hcalm e he
        · omega
      · exact not_mem_of_crossing (arithmetic16_logs hlen huseful) hcalm hsize (by decide)
          noFlips_arith16Tries hw hi h hcase
      · exact not_mem_of_crossing (arithmetic32_logs hlen huseful) hcalm hsize (by decide)
          noFlips_arith32Tries hw hi h hcase
      · exact not_mem_of_crossing (windowStage_logs (by decide) (by decide) hlen huseful) hcalm
          hsize (by decide) noFlips_interest8Tries hw hi h hcase
      · exact not_mem_of_crossing (windowStage_logs (by decide) (by decide) hlen huseful) hcalm
          hsize (by decide) noFlips_interest16Tries hw hi h hcase
      · exact not_mem_of_crossing (windowStage_logs (by decide) (by decide) hlen huseful) hcalm
          hsize (by decide) noFlips_interest32Tries hw hi h hcase

end Lost

/-! ### Interesting values -/

/-- **Interesting bytes and words of 16 bits**: with all bytes useful, every interesting byte
at every position is tried by one of the stages, and an interesting word of 16 bits is tried
just if it is no run of bits across its byte boundary. -/
theorem interesting_tried_iff (a : StageArgs) (seed : Block) (hturns : seed.size < a.turns)
    (hsize : seed.size ≤ 2 ^ 29) :
    (∀ i, i + 1 ≤ seed.size → ∀ x ∈ interesting8,
      Tried a seed (overwrite seed.bytes i (wordBytes (w := 1) x))) ∧
    (∀ i, i + 2 ≤ seed.size → ∀ x ∈ interesting16,
      (Tried a seed (overwrite seed.bytes i (wordBytes (w := 2) x)) ↔
        ¬Crossing (wordAt 2 seed.bytes i ^^^ x))) := by
  refine ⟨fun i hi x hx => tried_interesting8 hturns hsize hi hx, fun i hi x hx => ⟨?_, ?_⟩⟩
  · intro htried hcross
    exact not_tried_of_crossing hturns (by omega) (by decide) hi hcross htried
  · exact (tried_interesting16 hturns hsize hi hx).resolve_right

/-- No tokens, and no change of the checksum. -/
def plainArgs : StageArgs := ⟨fun _ _ => 0, [], 0, 8⟩

/-- Bits 7 and 8 are set. -/
def crossingBits : Block := ⟨[0x80, 1], by decide⟩

/-- `7f` is tried in the first of the bytes `80 01`, and `00 00` is not tried. -/
theorem interesting_tried_crossing :
    Tried plainArgs crossingBits [0x7f, 1] ∧ ¬Tried plainArgs crossingBits [0, 0] := by
  obtain ⟨hbytes, hwords⟩ := interesting_tried_iff plainArgs crossingBits (by decide) (by decide)
  refine ⟨hbytes 0 (by decide) 0x7f (by decide), ?_⟩
  rw [show [0, 0] = overwrite crossingBits.bytes 0 (wordBytes (w := 2) 0) by decide,
    hwords 0 (by decide) 0 (by decide), not_not]
  exact ⟨2, 7, by decide, .inl (.inr (.inl rfl)), by decide, by decide⟩

/-- Where the last stage leaves something out that no stage stored. -/
inductive Lost (seed : Block) (i : Nat) (x : BitVec 32) : Prop
  /-- A run of bits across a byte boundary. -/
  | crossing (h : Crossing (wordAt 4 seed.bytes i ^^^ x))
  /-- A big-endian difference that the guard of `Arithmetic32` does not see. -/
  | wrongOrder (j : Nat) (h : WrongOrder seed.bytes i j .beMinus)
      (heq : x = Arith.beMinus.apply swap32 (wordAt 4 seed.bytes i) j)
  /-- A big-endian half, which `InterestingReplace16` does not store. -/
  | bigEndian (t : Nat) (ht : t < 3) (y : BitVec 16) (hy : y ∈ interesting16)
      (heq : x = patched (wordAt 4 seed.bytes i) t (swap16 y))

/-- **Interesting words of 32 bits** are tried, but for what is lost in three ways. -/
theorem interesting32_tried (a : StageArgs) (seed : Block) (hturns : seed.size < a.turns)
    (hsize : seed.size ≤ 2 ^ 29) (i : Nat) (hi : i + 4 ≤ seed.size) (x : BitVec 32)
    (hx : x ∈ interesting32) :
    Tried a seed (overwrite seed.bytes i (wordBytes (w := 4) x)) ∨ Lost seed i x := by
  have hself : (wordAt 4 seed.bytes i).setWidth 32 = wordAt 4 seed.bytes i := BitVec.setWidth_eq _
  have hflip' := tried_of_bitflip (a := a) hsize (by decide) hi (x := x)
  have harith' := tried_of_couldBeArith hturns hsize (.inr (.inr rfl)) hi (x := x)
  rw [BitVec.setWidth_eq] at hflip'
  rw [hself, BitVec.setWidth_eq] at harith'
  cases hflip : couldBeBitflip (wordAt 4 seed.bytes i ^^^ x) with
  | true => exact (hflip' hflip).imp_right .crossing
  | false =>
    cases harith : couldBeArith (wordAt 4 seed.bytes i) x 4 with
    | true =>
      refine (harith' harith).imp_right ?_
      rintro (hcross | ⟨-, j, hwrong, heq⟩)
      · exact .crossing hcross
      · exact .wrongOrder j hwrong (word_eq_of_overwrite_eq hi heq)
    | false =>
      cases hinterest : couldBeInterest (wordAt 4 seed.bytes i) x 4 false with
      | true =>
        rcases couldBeInterest_cases hinterest with heq | ⟨t, ht, y, hy, heq⟩ |
          ⟨-, t, ht, y, hy, heq | heq⟩
        · exact .inl (.inl ((overwrite_word_eq_self_iff hi x).mpr heq.symm))
        · rw [← hself, ← BitVec.setWidth_eq x] at heq
          exact .inl (tried_patched8 hturns hsize (by decide) hi ht hy heq)
        · -- a half in the order in which `InterestingReplace16` stores it
          rw [← hself, ← BitVec.setWidth_eq x] at heq
          have hfit : t + 2 ≤ 4 := by omega
          refine (tried_or_crossing_of_part hi hfit
            (overwrite_patched (v := 2) (by decide) hi hfit heq) ?_).imp_right .crossing
          exact tried_interesting16 hturns hsize (by omega) hy
        · exact .inr (.bigEndian t ht y hy heq)
      | false =>
        left
        refine tried_of_last (x := interestingReplace32 (calm a.cksum) (seedLen seed)) (by simp)
          (mem_casesOf (windowStage_logs (by decide) (by decide) (toNat_seedLen seed)
            (length_allUseful seed)) (not_unitFailed_calm a.cksum) (by omega) (by decide) hi ?_)
        refine List.mem_filter.mpr ⟨hx, ?_⟩
        rw [hflip, harith, hinterest]
        rfl

/-- 512 over `00 5a 5a 00`: the word of its second and third byte, read big-endian, is
interesting, and nothing is stored in that order. -/
theorem interesting32_tried_bigEndian :
    ¬Tried plainArgs (fourBytes 0 0x5a 0x5a 0) [0, 2, 0, 0] ∧
      Lost (fourBytes 0 0x5a 0x5a 0) 0 512 := by
  have hlost : ¬Tried plainArgs (fourBytes 0 0x5a 0x5a 0) [0, 2, 0, 0] := by decide +kernel
  exact ⟨hlost, (interesting32_tried plainArgs _ (by decide) (by decide) 0 (by decide) 512
    (by decide)).resolve_left hlost⟩

end DistFuzz.Fuzzer
