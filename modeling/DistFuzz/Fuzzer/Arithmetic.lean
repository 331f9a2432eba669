import Mathlib.Data.Nat.Factorization.Basic
import Mathlib.Tactic.IntervalCases
import DistFuzz.Fuzzer.Stages

/-!
# Arithmetic stages (FuzzOne.cpp:11–23, 88–110, 414–556)

`Arithmetic8`, `Arithmetic16` and `Arithmetic32` add and subtract small numbers at
every position, in both byte orders. A wider stage leaves to the narrower ones what
does not carry out of the lower half, and all of them leave to the bit flips what
`could_be_bitflip` says a bit flip does.

- `couldBeBitflip`, with `couldBeBitflip_iff` for what it accepts.
- `Arith`, `carry16`, `carry32`: what is tried at a window.
- `arithmetic8`, `arithmetic16`, `arithmetic32`: the stages. The counter of
  `Arithmetic8` has 32 bits.
- `apply_narrow`: a mutation that does not carry changes the lower half in its own byte
  order as the narrower stage does.
- `arithmetic32_complete_iff`: what the guards of `Arithmetic32` turn away is done by
  `Arithmetic16` and `Arithmetic8`, except where the guard of the big-endian
  subtraction compares the half with its bytes in the wrong order.
-/

namespace DistFuzz.Fuzzer

open DistFuzz.Lib

/-! ## What could be a bit flip -/

/-- `while (!(xor_val & 1))`; a value that is not zero has a set bit among its 32. -/
def shiftOut : (fuel sh : Nat) → BitVec 32 → Nat × BitVec 32
  | 0, sh, xorVal => (sh, xorVal)
  | fuel + 1, sh, xorVal =>
    if xorVal &&& 1 = 0 then shiftOut fuel (sh + 1) (xorVal >>> 1) else (sh, xorVal)

/-- `could_be_bitflip`. -/
def couldBeBitflip (xorVal : BitVec 32) : Bool :=
  if xorVal = 0 then true
  else
    let (sh, xorVal) := shiftOut 32 0 xorVal
    if xorVal = 1 ∨ xorVal = 3 ∨ xorVal = 15 then true
    else if sh % 8 ≠ 0 then false
    else xorVal = 0xff ∨ xorVal = 0xffff ∨ xorVal = 0xffffffff

theorem mask_toNat {n k : Nat} (x : BitVec n) (hk : 2 ^ k - 1 < 2 ^ n) :
    (x &&& BitVec.ofNat n (2 ^ k - 1)).toNat = x.toNat % 2 ^ k := by
  rw [BitVec.toNat_and, BitVec.toNat_ofNat, Nat.mod_eq_of_lt hk, Nat.and_two_pow_sub_one_eq_mod]

/-- The loop shifts out the zeros below the lowest set bit. -/
theorem shiftOut_eq {m k fuel : Nat} (hm : m % 2 = 1) (hk : k ≤ fuel) {x : BitVec 32}
    (hx : x.toNat = m * 2 ^ k) (sh : Nat) :
    shiftOut (fuel + 1) sh x = (sh + k, BitVec.ofNat 32 m) := by
  have hand : (x &&& 1).toNat = x.toNat % 2 := mask_toNat (k := 1) x (by decide)
  -- over the zeros that are left; the fuel covers the 32 bits of a word
  induction k generalizing fuel x sh with
  | zero =>
    rw [Nat.pow_zero, Nat.mul_one] at hx
    have hodd : ¬x &&& 1 = 0 := by
      intro h
      rw [h, hx, hm] at hand
      cases hand
    rw [shiftOut, if_neg hodd, ← hx, BitVec.ofNat_toNat, BitVec.setWidth_eq, Nat.add_zero]
  | succ k ih =>
    obtain ⟨fuel, rfl⟩ := Nat.exists_eq_add_of_lt (Nat.lt_of_lt_of_le (Nat.succ_pos k) hk)
    have heven : x &&& 1 = 0 := by
      refine BitVec.eq_of_toNat_eq ?_
      rw [hand, hx, Nat.pow_succ, ← Nat.mul_assoc, Nat.mul_mod_left]
      rfl
    have hhalf : (x >>> 1).toNat = m * 2 ^ k := by
      rw [BitVec.toNat_ushiftRight, hx, Nat.pow_succ, ← Nat.mul_assoc, Nat.shiftRight_one,
        Nat.mul_div_cancel _ (by decide)]
    rw [shiftOut, if_pos heven]
    have hrest := ih (show k ≤ fuel by omega) hhalf (sh + 1) (mask_toNat (k := 1) _ (by decide))
    rw [show 0 + fuel + 1 = fuel + 1 by omega, hrest, Nat.add_right_comm, Nat.add_assoc]

/-- The numbers of bits that a bit flip flips. -/
def FlipRun (n k : Nat) : Prop :=
  (n = 1 ∨ n = 2 ∨ n = 4) ∨ (n = 8 ∨ n = 16 ∨ n = 32) ∧ k % 8 = 0

theorem couldBeBitflip_of_odd {m k : Nat} (hm : m % 2 = 1) {d : BitVec 32}
    (hd : d.toNat = m * 2 ^ k) :
    couldBeBitflip d = true ↔ (m = 1 ∨ m = 3 ∨ m = 15) ∨
      k % 8 = 0 ∧ (m = 255 ∨ m = 65535 ∨ m = 4294967295) := by
  have hdlt := d.isLt
  have hmpos : 0 < m := by omega
  have hmlt : m < 2 ^ 32 := by
    refine Nat.lt_of_le_of_lt (Nat.le_mul_of_pos_right m (Nat.two_pow_pos k)) (hd ▸ hdlt)
  have hk : k ≤ 31 := by
    by_contra hbig
    have hpow : 2 ^ 32 ≤ 2 ^ k := Nat.pow_le_pow_right (by decide) (by omega)
    have hle : 2 ^ k ≤ m * 2 ^ k := Nat.le_mul_of_pos_left _ hmpos
    omega
  have hne : d ≠ 0 := by
    rintro rfl
    have hpos : 0 < m * 2 ^ k := Nat.mul_pos hmpos (Nat.two_pow_pos k)
    rw [← hd] at hpos
    exact absurd hpos (by decide)
  -- the constants of the source all fit in 32 bits, so words are compared as numbers
  have heq : ∀ c : Nat, c < 2 ^ 32 → (BitVec.ofNat 32 m = BitVec.ofNat 32 c ↔ m = c) := by
    intro c hc
    rw [← BitVec.toNat_inj, BitVec.toNat_ofNat, BitVec.toNat_ofNat, Nat.mod_eq_of_lt hmlt,
      Nat.mod_eq_of_lt hc]
  have h1 : BitVec.ofNat 32 m = (1 : BitVec 32) ↔ m = 1 := heq _ (by decide)
  have h3 : BitVec.ofNat 32 m = (3 : BitVec 32) ↔ m = 3 := heq _ (by decide)
  have h15 : BitVec.ofNat 32 m = (15 : BitVec 32) ↔ m = 15 := heq _ (by decide)
  have hff : BitVec.ofNat 32 m = (0xff : BitVec 32) ↔ m = 0xff := heq _ (by decide)
  have hffff : BitVec.ofNat 32 m = (0xffff : BitVec 32) ↔ m = 0xffff := heq _ (by decide)
  have hall : BitVec.ofNat 32 m = (0xffffffff : BitVec 32) ↔ m = 0xffffffff := heq _ (by decide)
  rw [couldBeBitflip, if_neg hne, shiftOut_eq hm hk hd 0, Nat.zero_add]
  simp only [h1, h3, h15, hff, hffff, hall]
  by_cases hsmall : m = 1 ∨ m = 3 ∨ m = 15
  · simp [hsmall]
  -- whole bytes must start at a byte
  · by_cases hk8 : k % 8 = 0
    · simp [hsmall, hk8]
    · simp [hsmall, hk8]

/-- **What `could_be_bitflip` accepts**: no change, or a run of one, two or four bits, or
one, two or four whole bytes. -/
theorem couldBeBitflip_iff (d : BitVec 32) :
    couldBeBitflip d = true ↔
      d = 0 ∨ ∃ n k, FlipRun n k ∧ d.toNat = (2 ^ n - 1) * 2 ^ k := by
  constructor
  · intro h
    by_cases hzero : d = 0
    · exact .inl hzero
    · have hne : d.toNat ≠ 0 := fun h0 => hzero (BitVec.eq_of_toNat_eq h0)
      -- the lowest set bit splits the word into an odd number and a shift
      obtain ⟨k, m, hm, hd⟩ := Nat.exists_eq_two_pow_mul_odd hne
      rw [Nat.mul_comm] at hd
      refine .inr ?_
      rcases (couldBeBitflip_of_odd (Nat.odd_iff.mp hm) hd).mp h with
        (rfl | rfl | rfl) | ⟨hk, rfl | rfl | rfl⟩
      · exact ⟨1, k, .inl (.inl rfl), hd⟩
      · exact ⟨2, k, .inl (.inr (.inl rfl)), hd⟩
      · exact ⟨4, k, .inl (.inr (.inr rfl)), hd⟩
      · exact ⟨8, k, .inr ⟨.inl rfl, hk⟩, hd⟩
      · exact ⟨16, k, .inr ⟨.inr (.inl rfl), hk⟩, hd⟩
      · exact ⟨32, k, .inr ⟨.inr (.inr rfl), hk⟩, hd⟩
  · rintro (rfl | ⟨n, k, hrun, hd⟩)
    · decide
    · rcases hrun with (rfl | rfl | rfl) | ⟨rfl | rfl | rfl, hk⟩
      -- each run is `2^n - 1` at its place, and that is odd
      all_goals
        refine (couldBeBitflip_of_odd (by decide) hd).mpr ?_
        simp
      all_goals exact hk

/-- A change that is moved up by whole bytes is a bit flip if it was one. -/
theorem couldBeBitflip_shift {d e : BitVec 32} {off : Nat}
    (h : d.toNat = e.toNat * 2 ^ (8 * off)) : couldBeBitflip d = couldBeBitflip e := by
  by_cases hzero : e.toNat = 0
  · have he : e = 0 := BitVec.eq_of_toNat_eq hzero
    have hd : d = 0 := BitVec.eq_of_toNat_eq (by rw [h, hzero, Nat.zero_mul]; rfl)
    rw [he, hd]
  · obtain ⟨k, m, hm, he⟩ := Nat.exists_eq_two_pow_mul_odd hzero
    rw [Nat.mul_comm] at he
    have hd : d.toNat = m * 2 ^ (k + 8 * off) := by rw [h, he, Nat.mul_assoc, ← Nat.pow_add]
    rw [Bool.eq_iff_iff, couldBeBitflip_of_odd (Nat.odd_iff.mp hm) hd,
      couldBeBitflip_of_odd (Nat.odd_iff.mp hm) he, Nat.add_mul_mod_self_left]

/-! ## The stages -/

/-- The four mutations: add or subtract, little-endian or big-endian. -/
inductive Arith where
  | lePlus
  | leMinus
  | bePlus
  | beMinus
deriving DecidableEq, Repr

/-- In the order of the source. -/
def Arith.all : List Arith := [.lePlus, .leMinus, .bePlus, .beMinus]

/-- The mutated value; `swap` is `SWAP16` or `SWAP32`. -/
def Arith.apply {n : Nat} (swap : BitVec n → BitVec n) (orig : BitVec n) (j : Nat) :
    Arith → BitVec n
  | .lePlus => orig + BitVec.ofNat n j
  | .leMinus => orig - BitVec.ofNat n j
  | .bePlus => swap (swap orig + BitVec.ofNat n j)
  | .beMinus => swap (swap orig - BitVec.ofNat n j)

/-- The guards of `Arithmetic16`. -/
def carry16 (orig : BitVec 16) (j : Nat) : Arith → Bool
  | .lePlus => (orig &&& 0xff).toNat + j > 0xff
  | .leMinus => (orig &&& 0xff).toNat < j
  | .bePlus => (orig >>> 8).toNat + j > 0xff
  | .beMinus => (orig >>> 8).toNat < j

/-- The guards of `Arithmetic32`. -/
def carry32 (orig : BitVec 32) (j : Nat) : Arith → Bool
  | .lePlus => (orig &&& 0xffff).toNat + j > 0xffff
  | .leMinus => (orig &&& 0xffff).toNat < j
  | .bePlus => (orig >>> 16).toNat + j > 0xff
  | .beMinus => (orig >>> 16).toNat < j

/-- `for (j = 1; j <= ARITH_MAX; j++)`. -/
def arithNumbers : List Nat := List.range' 1 arithMax.toNat

/-- What `Arithmetic8` stores to a byte. -/
def arith8Tries (orig : BitVec 8) : List (BitVec 8) :=
  arithNumbers.flatMap fun j =>
    [orig + BitVec.ofNat 8 j, orig - BitVec.ofNat 8 j].filter fun x =>
      !couldBeBitflip ((orig ^^^ x).setWidth 32)

/-- What `Arithmetic16` stores to a window. -/
def arith16Tries (orig : BitVec 16) : List (BitVec 16) :=
  arithNumbers.flatMap fun j =>
    (Arith.all.filter fun m => carry16 orig j m &&
      !couldBeBitflip ((orig ^^^ m.apply swap16 orig j).setWidth 32)).map fun m =>
        m.apply swap16 orig j

/-- What `Arithmetic32` stores to a window. -/
def arith32Tries (orig : BitVec 32) : List (BitVec 32) :=
  arithNumbers.flatMap fun j =>
    (Arith.all.filter fun m => carry32 orig j m &&
      !couldBeBitflip (orig ^^^ m.apply swap32 orig j)).map fun m => m.apply swap32 orig j

/-- `for (u32 i = 0; i < len; i++)`, for so many turns at most. A counter of 32 bits
never gets to a length of `2^32`. -/
def countU32 (len : UInt64) (body : UInt32 → Stage Unit) : (turns : Nat) → UInt32 → Stage Unit
  | 0, _ => throw .running
  | turns + 1, i =>
    if i.toUInt64 < len then do
      body i
      countU32 len body turns (i + 1)
    else pure ()

variable (target : Target)

/-- `Arithmetic8`, for so many turns at most. -/
def arithmetic8 (turns : Nat) (len : UInt64) : Stage Unit :=
  countU32 len (fun i => windowTurn target 1 arith8Tries len i.toNat) turns 0

/-- `Arithmetic16`. -/
def arithmetic16 (len : UInt64) : Stage Unit := windowStage target 2 arith16Tries len

/-- `Arithmetic32`. -/
def arithmetic32 (len : UInt64) : Stage Unit := windowStage target 4 arith32Tries len

/-! ## What the stages try -/

variable {target}

/-- What is not a bit flip is a change. -/
theorem ne_of_not_bitflip {n : Nat} {orig x : BitVec n}
    (h : (!couldBeBitflip ((orig ^^^ x).setWidth 32)) = true) : x ≠ orig := by
  rintro rfl
  rw [BitVec.xor_self, BitVec.setWidth_zero] at h
  exact absurd h (by decide)

theorem arith8Tries_ne {orig x : BitVec 8} (h : x ∈ arith8Tries orig) : x ≠ orig := by
  obtain ⟨j, -, hx⟩ := List.mem_flatMap.mp h
  exact ne_of_not_bitflip (List.mem_filter.mp hx).2

theorem mem_arith16Tries {orig x : BitVec 16} :
    x ∈ arith16Tries orig ↔ ∃ j ∈ arithNumbers, ∃ m, carry16 orig j m = true ∧
      couldBeBitflip ((orig ^^^ x).setWidth 32) = false ∧ x = Arith.apply swap16 orig j m := by
  simp only [arith16Tries, List.mem_flatMap, List.mem_map, List.mem_filter, Bool.and_eq_true,
    Bool.not_eq_true']
  constructor
  · rintro ⟨j, hj, m, ⟨-, hcarry, hflip⟩, rfl⟩
    exact ⟨j, hj, m, hcarry, hflip, rfl⟩
  · rintro ⟨j, hj, m, hcarry, hflip, rfl⟩
    exact ⟨j, hj, m, ⟨by cases m <;> decide, hcarry, hflip⟩, rfl⟩

theorem arith16Tries_ne {orig x : BitVec 16} (h : x ∈ arith16Tries orig) : x ≠ orig := by
  obtain ⟨j, -, m, -, hflip, -⟩ := mem_arith16Tries.mp h
  exact ne_of_not_bitflip (by rw [hflip]; rfl)

theorem arith32Tries_ne {orig x : BitVec 32} (h : x ∈ arith32Tries orig) : x ≠ orig := by
  obtain ⟨j, -, hx⟩ := List.mem_flatMap.mp h
  obtain ⟨m, hm, rfl⟩ := List.mem_map.mp hx
  have hflip := (List.mem_filter.mp hm).2
  rw [Bool.and_eq_true] at hflip
  exact ne_of_not_bitflip (by rw [BitVec.setWidth_eq]; exact hflip.2)

/-- A loop whose counter does not wrap logs what its turns log; it is cut short if it
is given too few turns. -/
theorem countU32_logs {K : StageState → Prop} {len : UInt64} {body : UInt32 → Stage Unit}
    (ts : Nat → List Trial) (hlen : len.toNat < 2 ^ 32)
    (h : ∀ i : UInt32, i.toNat < len.toNat →
      StageLogs target K (body i) (fun _ => K) (ts i.toNat)) (turns : Nat) (i : UInt32)
    (hi : i.toNat ≤ len.toNat) :
    Logs StageState.trials
      (fun e => UnitFailed target e ∨ e = .running ∧ turns + i.toNat ≤ len.toNat) K
      (countU32 len body turns i) (fun _ => K)
      ((List.range' i.toNat (len.toNat - i.toNat)).flatMap ts) := by
  -- over the turns; the range that is logged starts at the counter
  induction turns generalizing i with
  | zero =>
    intro s₀ hs
    refine triple_throw ?_
    rintro s rfl
    exact ⟨.inr ⟨rfl, by omega⟩, List.prefix_append _ _⟩
  | succ turns ih =>
    rw [countU32]
    by_cases hlt : i.toUInt64 < len
    · rw [if_pos hlt]
      rw [UInt64.lt_iff_toNat_lt, UInt32.toNat_toUInt64] at hlt
      -- the counter stays below `len`, which is below `2^32`
      have hsucc : (i + 1).toNat = i.toNat + 1 := by
        rw [UInt32.toNat_add, UInt32.toNat_one]
        exact Nat.mod_eq_of_lt (by omega)
      have hrange : List.range' i.toNat (len.toNat - i.toNat)
          = i.toNat :: List.range' (i + 1).toNat (len.toNat - (i + 1).toNat) := by
        rw [show len.toNat - i.toNat = len.toNat - (i + 1).toNat + 1 by omega, List.range'_succ,
          hsucc]
      have hrest := ih (i + 1) (by omega)
      rw [hrange, List.flatMap_cons]
      refine ((h i hlt).of_err fun e he => .inl he).bind fun _ => hrest.of_err ?_
      rintro e (he | ⟨rfl, hle⟩)
      · exact .inl he
      · exact .inr ⟨rfl, by omega⟩
    · rw [if_neg hlt]
      rw [UInt64.lt_iff_toNat_lt, UInt32.toNat_toUInt64] at hlt
      rw [show len.toNat - i.toNat = 0 by omega]
      exact logs_pure fun s hs => hs

section Run

variable {seed : Block} {useful : List Bool} {len : UInt64}

theorem arithmetic8_logs (hlen : len.toNat = seed.size) (huseful : useful.length = seed.size)
    (hsmall : seed.size < 2 ^ 32) (turns : Nat) :
    Logs StageState.trials (fun e => UnitFailed target e ∨ e = .running ∧ turns ≤ seed.size)
      (Intact seed useful) (arithmetic8 target turns len) (fun _ => Intact seed useful)
      (stageTrials seed useful 1 arith8Tries len) := by
  have hturn : ∀ i : UInt32, i.toNat < len.toNat →
      StageLogs target (Intact seed useful) (windowTurn target 1 arith8Tries len i.toNat)
        (fun _ => Intact seed useful) (turnTrials seed useful 1 arith8Tries len i.toNat) :=
    fun i hi => windowTurn_logs hlen huseful (by omega)
  have hloop := countU32_logs _ (hlen ▸ hsmall) hturn turns 0 (Nat.zero_le _)
  rw [UInt32.toNat_zero, Nat.sub_zero, ← List.range_eq_range', Nat.add_zero, hlen] at hloop
  exact hloop

theorem arithmetic16_logs (hlen : len.toNat = seed.size) (huseful : useful.length = seed.size) :
    StageLogs target (Intact seed useful) (arithmetic16 target len)
      (fun _ => Intact seed useful) (stageTrials seed useful 2 arith16Tries len) :=
  windowStage_logs (by decide) (by decide) hlen huseful

theorem arithmetic32_logs (hlen : len.toNat = seed.size) (huseful : useful.length = seed.size) :
    StageLogs target (Intact seed useful) (arithmetic32 target len)
      (fun _ => Intact seed useful) (stageTrials seed useful 4 arith32Tries len) :=
  windowStage_logs (by decide) (by decide) hlen huseful

end Run

/-! ## Byte orders -/

/-- `swap` reverses the bytes of a word. -/
def Reverses (w : Nat) (swap : BitVec (8 * w) → BitVec (8 * w)) : Prop :=
  ∀ x t, t < w → byteOf (swap x) t = byteOf x (w - 1 - t)

theorem reverses_id : Reverses 1 id := by
  intro x t ht
  rw [show 1 - 1 - t = t by omega]
  rfl

theorem reverses_swap16 : Reverses 2 swap16 := by
  intro x t ht
  refine byte_ext fun k hk => ?_
  show ((swap16 x).extractLsb' (8 * t) 8).getLsbD k
    = (BitVec.extractLsb' (8 * (2 - 1 - t)) 8 x).getLsbD k
  interval_cases t <;> interval_cases k <;> simp [swap16]

theorem reverses_swap32 : Reverses 4 swap32 := by
  intro x t ht
  refine byte_ext fun k hk => ?_
  show ((swap32 x).extractLsb' (8 * t) 8).getLsbD k
    = (BitVec.extractLsb' (8 * (4 - 1 - t)) 8 x).getLsbD k
  interval_cases t <;> interval_cases k <;> simp [swap32]

/-! ## Mutations that stay in the lower part -/

/-- The buffer with the word at `i` mutated. -/
def mutated (w : Nat) (swap : BitVec (8 * w) → BitVec (8 * w)) (l : List UInt8) (i j : Nat)
    (m : Arith) : List UInt8 :=
  overwrite l i (wordBytes (m.apply swap (wordAt w l i) j))

section Narrow

variable {v w : Nat} {l : List UInt8} {i : Nat}

/-- A change of the low bytes of a little-endian word. -/
theorem overwrite_low (hvw : v ≤ w) (hi : i + w ≤ l.length) {x : BitVec (8 * w)}
    {y : BitVec (8 * v)}
    (h : ∀ t, byteOf x t = if t < v then byteOf y t else byteOf (wordAt w l i) t) :
    overwrite l i (wordBytes x) = overwrite l (i + 0) (wordBytes y) := by
  refine (overwrite_word_eq_iff hi (by omega) x y).mpr fun t ht => ?_
  rw [h t]
  by_cases htv : t < v
  · rw [if_pos htv, if_pos (by omega), Nat.sub_zero]
  · rw [if_neg htv, if_neg (by omega), byteOf_wordAt l i ht]

/-- A change of the low bytes of a big-endian word. -/
theorem overwrite_low_be (hvw : v ≤ w) (hi : i + w ≤ l.length)
    {swapw : BitVec (8 * w) → BitVec (8 * w)} {swapv : BitVec (8 * v) → BitVec (8 * v)}
    (hw : Reverses w swapw) (hv : Reverses v swapv) {x : BitVec (8 * w)} {y : BitVec (8 * v)}
    (h : ∀ t, byteOf x t = if t < v then byteOf y t else byteOf (swapw (wordAt w l i)) t) :
    overwrite l i (wordBytes (swapw x)) = overwrite l (i + (w - v)) (wordBytes (swapv y)) := by
  refine (overwrite_word_eq_iff hi (by omega) _ _).mpr fun t ht => ?_
  rw [hw x t ht, h]
  -- the low bytes of the word are the last ones in the buffer
  by_cases htv : w - 1 - t < v
  · rw [if_pos htv, if_pos (by omega), hv y _ (by omega)]
    congr 1
    omega
  · rw [if_neg htv, if_neg (by omega), hw _ _ (by omega), byteOf_wordAt l i (by omega)]
    congr 2
    omega

/-- The low part of a big-endian word. -/
theorem toNat_swap_low (hvw : v ≤ w) {swapw : BitVec (8 * w) → BitVec (8 * w)}
    {swapv : BitVec (8 * v) → BitVec (8 * v)} (hw : Reverses w swapw) (hv : Reverses v swapv) :
    (swapv (wordAt v l (i + (w - v)))).toNat = (swapw (wordAt w l i)).toNat % 2 ^ (8 * v) := by
  refine toNat_eq_mod_of_byteOf hvw fun t ht => ?_
  rw [hv _ _ ht, hw _ _ (by omega), byteOf_wordAt _ _ (by omega), byteOf_wordAt _ _ (by omega)]
  congr 1
  omega

/-- The low part of a little-endian word. -/
theorem toNat_low (hvw : v ≤ w) :
    (wordAt v l i).toNat = (wordAt w l i).toNat % 2 ^ (8 * v) := by
  refine toNat_eq_mod_of_byteOf hvw fun t ht => ?_
  rw [byteOf_wordAt _ _ ht, byteOf_wordAt _ _ (by omega)]

/-- Where the low `v` bytes of a word of `w` bytes begin. -/
def Arith.low (v w : Nat) : Arith → Nat
  | .lePlus => 0
  | .leMinus => 0
  | .bePlus => w - v
  | .beMinus => w - v

/-- The mutation does not carry out of the word, nor borrow. -/
def Arith.Stays {n : Nat} (swap : BitVec n → BitVec n) (y : BitVec n) (j : Nat) : Arith → Prop
  | .lePlus => y.toNat + j < 2 ^ n
  | .leMinus => j ≤ y.toNat
  | .bePlus => (swap y).toNat + j < 2 ^ n
  | .beMinus => j ≤ (swap y).toNat

/-- **A mutation that stays in the low part** is the mutation of that part. -/
theorem apply_narrow (hvw : v ≤ w) (hi : i + w ≤ l.length)
    {swapw : BitVec (8 * w) → BitVec (8 * w)} {swapv : BitVec (8 * v) → BitVec (8 * v)}
    (hw : Reverses w swapw) (hv : Reverses v swapv) {j : Nat} (m : Arith)
    (h : m.Stays swapv (wordAt v l (i + m.low v w)) j) :
    mutated w swapw l i j m = mutated v swapv l (i + m.low v w) j m := by
  cases m with
  | lePlus => exact overwrite_low hvw hi (byteOf_add_low hvw (toNat_low hvw) h)
  | leMinus => exact overwrite_low hvw hi (byteOf_sub_low (toNat_low hvw) h)
  | bePlus =>
    exact overwrite_low_be hvw hi hw hv (byteOf_add_low hvw (toNat_swap_low hvw hw hv) h)
  | beMinus =>
    exact overwrite_low_be hvw hi hw hv (byteOf_sub_low (toNat_swap_low hvw hw hv) h)

end Narrow

/-! ## The guards -/

theorem toNat_wordAt_one (l : List UInt8) (i : Nat) :
    (wordAt 1 l i).toNat = (l.getD i 0).toNat := by
  rw [toNat_wordAt_succ, toNat_wordAt_zero, Nat.mul_zero, Nat.add_zero]

theorem toNat_wordAt_two (l : List UInt8) (i : Nat) :
    (wordAt 2 l i).toNat = (l.getD i 0).toNat + 256 * (l.getD (i + 1) 0).toNat := by
  rw [toNat_wordAt_succ, toNat_wordAt_one]

theorem toNat_wordAt_four (l : List UInt8) (i : Nat) :
    (wordAt 4 l i).toNat = (l.getD i 0).toNat + 256 * (l.getD (i + 1) 0).toNat
      + 65536 * ((l.getD (i + 2) 0).toNat + 256 * (l.getD (i + 3) 0).toNat) := by
  rw [toNat_wordAt_succ, toNat_wordAt_succ, toNat_wordAt_two]
  simp only [Nat.add_assoc, Nat.reduceAdd]
  omega

theorem toNat_swap16_wordAt (l : List UInt8) (i : Nat) :
    (swap16 (wordAt 2 l i)).toNat = (l.getD (i + 1) 0).toNat + 256 * (l.getD i 0).toNat := by
  have hbytes : ∀ x : BitVec (8 * 2),
      x.toNat = (byteOf x 0).toNat + 256 * (byteOf x 1).toNat := by
    intro x
    have hx := x.isLt
    rw [toNat_byteOf, toNat_byteOf]
    omega
  rw [hbytes, reverses_swap16 _ 0 (by decide), reverses_swap16 _ 1 (by decide),
    byteOf_wordAt _ _ (by decide), byteOf_wordAt _ _ (by decide)]
  rfl

/-- Without a carry out of the lower byte, `Arithmetic16` leaves the rest to
`Arithmetic8`. -/
theorem stays_of_carry16 {l : List UInt8} {i j : Nat} {m : Arith}
    (h : carry16 (wordAt 2 l i) j m = false) :
    m.Stays id (wordAt 1 l (i + m.low 1 2)) j := by
  have h0 := (l.getD i 0).toNat_lt
  have hmask : ((wordAt 2 l i) &&& 0xff).toNat = (wordAt 2 l i).toNat % 256 :=
    mask_toNat (k := 8) _ (by decide)
  have hshift : ((wordAt 2 l i) >>> 8).toNat = (wordAt 2 l i).toNat / 256 := by
    rw [BitVec.toNat_ushiftRight, Nat.shiftRight_eq_div_pow]
  have hval := toNat_wordAt_two l i
  -- each guard is about the byte that the mutation changes first
  cases m with
  | lePlus =>
    have hg : ¬((wordAt 2 l i) &&& 0xff).toNat + j > 0xff := of_decide_eq_false h
    show (wordAt 1 l i).toNat + j < 2 ^ 8
    rw [toNat_wordAt_one]
    omega
  | leMinus =>
    have hg : ¬((wordAt 2 l i) &&& 0xff).toNat < j := of_decide_eq_false h
    show j ≤ (wordAt 1 l i).toNat
    rw [toNat_wordAt_one]
    omega
  | bePlus =>
    have hg : ¬((wordAt 2 l i) >>> 8).toNat + j > 0xff := of_decide_eq_false h
    show (wordAt 1 l (i + 1)).toNat + j < 2 ^ 8
    rw [toNat_wordAt_one]
    omega
  | beMinus =>
    have hg : ¬((wordAt 2 l i) >>> 8).toNat < j := of_decide_eq_false h
    show j ≤ (wordAt 1 l (i + 1)).toNat
    rw [toNat_wordAt_one]
    omega

/-- The big-endian subtraction borrows out of the lower half, `00 xx`, while the guard
reads that half as `xx 00`. -/
def WrongOrder (l : List UInt8) (i j : Nat) (m : Arith) : Prop :=
  m = .beMinus ∧ l.getD (i + 2) 0 = 0 ∧ 0 < (l.getD (i + 3) 0).toNat ∧
    (l.getD (i + 3) 0).toNat < j

instance (l : List UInt8) (i j : Nat) (m : Arith) : Decidable (WrongOrder l i j m) :=
  inferInstanceAs (Decidable (_ ∧ _))

/-- Where a guard of `Arithmetic32` fails, nothing leaves the lower half, but for the
wrong order. -/
theorem stays_of_carry32 {l : List UInt8} {i j : Nat} {m : Arith} (hj : 1 ≤ j ∧ j ≤ 35)
    (h : carry32 (wordAt 4 l i) j m = false) :
    m.Stays swap16 (wordAt 2 l (i + m.low 2 4)) j ↔ ¬WrongOrder l i j m := by
  have h0 := (l.getD i 0).toNat_lt
  have h1 := (l.getD (i + 1) 0).toNat_lt
  have hmask : ((wordAt 4 l i) &&& 0xffff).toNat = (wordAt 4 l i).toNat % 65536 :=
    mask_toNat (k := 16) _ (by decide)
  have hshift : ((wordAt 4 l i) >>> 16).toNat = (wordAt 4 l i).toNat / 65536 := by
    rw [BitVec.toNat_ushiftRight, Nat.shiftRight_eq_div_pow]
  have hval := toNat_wordAt_four l i
  -- three of the guards are exact; the last one looks at the bytes in the wrong order
  cases m with
  | lePlus =>
    have hg : ¬((wordAt 4 l i) &&& 0xffff).toNat + j > 0xffff := of_decide_eq_false h
    refine iff_of_true ?_ fun hw => nomatch hw.1
    show (wordAt 2 l i).toNat + j < 2 ^ 16
    rw [toNat_wordAt_two]
    omega
  | leMinus =>
    have hg : ¬((wordAt 4 l i) &&& 0xffff).toNat < j := of_decide_eq_false h
    refine iff_of_true ?_ fun hw => nomatch hw.1
    show j ≤ (wordAt 2 l i).toNat
    rw [toNat_wordAt_two]
    omega
  | bePlus =>
    have hg : ¬((wordAt 4 l i) >>> 16).toNat + j > 0xff := of_decide_eq_false h
    refine iff_of_true ?_ fun hw => nomatch hw.1
    show (swap16 (wordAt 2 l (i + 2))).toNat + j < 2 ^ 16
    rw [toNat_swap16_wordAt, show i + 2 + 1 = i + 3 from rfl]
    omega
  | beMinus =>
    have hg : ¬((wordAt 4 l i) >>> 16).toNat < j := of_decide_eq_false h
    have hzero : l.getD (i + 2) 0 = 0 ↔ (l.getD (i + 2) 0).toNat = 0 := UInt8.toNat_inj.symm
    show j ≤ (swap16 (wordAt 2 l (i + 2))).toNat ↔ _
    rw [toNat_swap16_wordAt, WrongOrder, hzero, and_iff_right rfl, show i + 2 + 1 = i + 3 from rfl]
    omega

/-- The guard does not see the borrow. -/
theorem not_carry32_of_wrongOrder {l : List UInt8} {i j : Nat} {m : Arith}
    (hj : 1 ≤ j ∧ j ≤ 35) (h : WrongOrder l i j m) : carry32 (wordAt 4 l i) j m = false := by
  obtain ⟨rfl, -, hpos, -⟩ := h
  have h0 := (l.getD i 0).toNat_lt
  have h1 := (l.getD (i + 1) 0).toNat_lt
  refine decide_eq_false ?_
  rw [BitVec.toNat_ushiftRight, Nat.shiftRight_eq_div_pow, toNat_wordAt_four]
  omega

/-- A borrow changes the upper half. -/
theorem mutated_ne_of_borrow {l : List UInt8} {i j : Nat} (hi : i + 4 ≤ l.length) (hj : j ≤ 35)
    (h : ¬Arith.beMinus.Stays swap16 (wordAt 2 l (i + 2)) j) :
    mutated 4 swap32 l i j .beMinus ≠ mutated 2 swap16 l (i + 2) j .beMinus := by
  intro heq
  -- the second byte of the window is in the upper half, which the smaller mutation keeps
  have hbyte := (overwrite_word_eq_iff (w := 4) (v := 2) hi (by decide) _ _).mp heq 1 (by decide)
  have hlow : (swap16 (wordAt 2 l (i + 2))).toNat = (swap32 (wordAt 4 l i)).toNat % 65536 :=
    toNat_swap_low (v := 2) (w := 4) (by decide) reverses_swap32 reverses_swap16
  have hupper : l.getD (i + 1) 0 = byteOf (w := 4) (swap32 (wordAt 4 l i)) 2 := by
    rw [reverses_swap32 _ 2 (by decide), byteOf_wordAt _ _ (by decide)]
  have hX := (swap32 (wordAt 4 l i)).isLt
  have hsmall : ¬j ≤ (swap16 (wordAt 2 l (i + 2))).toNat := h
  rw [if_neg (by decide), hupper] at hbyte
  replace hbyte : byteOf (w := 4) (swap32 (swap32 (wordAt 4 l i) - BitVec.ofNat 32 j)) 1
      = byteOf (w := 4) (swap32 (wordAt 4 l i)) 2 := hbyte
  rw [reverses_swap32 _ 1 (by decide), ← UInt8.toNat_inj, toNat_byteOf, toNat_byteOf,
    BitVec.toNat_sub, BitVec.toNat_ofNat] at hbyte
  omega

/-! ## Completeness -/

section Executed

variable {seed : Block} {i j : Nat}

/-- What `Arithmetic16` does to a window with a carry. -/
theorem mem_arithmetic16 (hsmall : seed.size < 2 ^ 32) (hi : i + 2 ≤ seed.size)
    (hj : j ∈ arithNumbers) (m : Arith) (hcarry : carry16 (wordAt 2 seed.bytes i) j m = true)
    (hflip : couldBeBitflip ((wordAt 2 seed.bytes i
      ^^^ m.apply swap16 (wordAt 2 seed.bytes i) j).setWidth 32) = false)
    (cksum : Nat → List UInt8 → UInt32) :
    mutated 2 swap16 seed.bytes i j m
      ∈ casesOf (arithmetic16 (calm cksum) (seedLen seed)) (.start seed (allUseful seed)) :=
  mem_casesOf (arithmetic16_logs (toNat_seedLen seed) (length_allUseful seed))
    (not_unitFailed_calm cksum) hsmall (by decide) hi
    (mem_arith16Tries.mpr ⟨j, hj, m, hcarry, hflip, rfl⟩)

/-- What `Arithmetic8` does to a byte. -/
theorem mem_arithmetic8 (hsmall : seed.size < 2 ^ 32) (hi : i + 1 ≤ seed.size)
    (hj : j ∈ arithNumbers) (m : Arith)
    (hflip : couldBeBitflip ((wordAt 1 seed.bytes i
      ^^^ m.apply id (wordAt 1 seed.bytes i) j).setWidth 32) = false)
    (cksum : Nat → List UInt8 → UInt32) {turns : Nat} (hturns : seed.size < turns) :
    mutated 1 id seed.bytes i j m
      ∈ casesOf (arithmetic8 (calm cksum) turns (seedLen seed)) (.start seed (allUseful seed)) := by
  refine mem_casesOf (arithmetic8_logs (toNat_seedLen seed) (length_allUseful seed) hsmall turns)
    ?_ hsmall (by decide) hi ?_
  -- the target answers every unit, and there are turns enough
  · rintro e (he | ⟨-, hle⟩)
    · exact not_unitFailed_calm cksum e he
    · omega
  · refine List.mem_flatMap.mpr ⟨j, hj, List.mem_filter.mpr ⟨?_, by rw [hflip]; rfl⟩⟩
    cases m <;> simp [Arith.apply]

/-- **What `Arithmetic32` turns away is not lost**: it changes only the lower half, as
the same mutation of that half does, and `Arithmetic16` or `Arithmetic8` executes it. -/
def NotLost (seed : Block) (i j : Nat) (m : Arith) : Prop :=
  mutated 4 swap32 seed.bytes i j m = mutated 2 swap16 seed.bytes (i + m.low 2 4) j m ∧
  (seed.size < 2 ^ 32 → ∀ (cksum : Nat → List UInt8 → UInt32) (turns : Nat), seed.size < turns →
    mutated 4 swap32 seed.bytes i j m
        ∈ casesOf (arithmetic16 (calm cksum) (seedLen seed)) (.start seed (allUseful seed)) ∨
      mutated 4 swap32 seed.bytes i j m
        ∈ casesOf (arithmetic8 (calm cksum) turns (seedLen seed)) (.start seed (allUseful seed)))

/-- The narrower stages ask `could_be_bitflip` about the same change. -/
theorem bitflip_narrow {v w off : Nat} {l : List UInt8} (hw : w ≤ 4) (hi : i + w ≤ l.length)
    (hoff : off + v ≤ w) {x : BitVec (8 * w)} {y : BitVec (8 * v)}
    (h : overwrite l i (wordBytes x) = overwrite l (i + off) (wordBytes y)) :
    couldBeBitflip ((wordAt w l i ^^^ x).setWidth 32)
      = couldBeBitflip ((wordAt v l (i + off) ^^^ y).setWidth 32) := by
  have hshift := toNat_xor_of_overwrite_eq hi hoff h
  rw [← BitVec.toNat_setWidth_of_le (show 8 * w ≤ 32 by omega),
    ← BitVec.toNat_setWidth_of_le (show 8 * v ≤ 32 by omega)] at hshift
  exact couldBeBitflip_shift hshift

theorem notLost_of_stays (hi : i + 4 ≤ seed.size) (hj : j ∈ arithNumbers) {m : Arith}
    (h : m.Stays swap16 (wordAt 2 seed.bytes (i + m.low 2 4)) j)
    (hflip : couldBeBitflip (wordAt 4 seed.bytes i
      ^^^ m.apply swap32 (wordAt 4 seed.bytes i) j) = false) : NotLost seed i j m := by
  have hlow : m.low 2 4 ≤ 2 := by cases m <;> decide
  have hlow' : m.low 1 2 ≤ 1 := by cases m <;> decide
  have hhalf := apply_narrow (v := 2) (w := 4) (by decide) hi reverses_swap32 reverses_swap16 m h
  have hflip16 := bitflip_narrow (w := 4) (v := 2) (by decide) hi (by omega) hhalf
  rw [BitVec.setWidth_eq, hflip] at hflip16
  refine ⟨hhalf, fun hsmall cksum turns hturns => ?_⟩
  rw [hhalf]
  cases hcarry : carry16 (wordAt 2 seed.bytes (i + m.low 2 4)) j m with
  | true => exact .inl (mem_arithmetic16 hsmall (by omega) hj m hcarry hflip16.symm cksum)
  | false =>
    -- nothing leaves the byte either
    have hi2 : i + m.low 2 4 + 2 ≤ seed.bytes.length := by
      show _ ≤ seed.size
      omega
    have hbyte := apply_narrow (v := 1) (w := 2) (by decide) hi2 reverses_swap16 reverses_id m
      (stays_of_carry16 hcarry)
    have hflip8 := bitflip_narrow (w := 2) (v := 1) (by decide) hi2 (by omega) hbyte
    rw [hbyte]
    exact .inr (mem_arithmetic8 hsmall (by omega) hj m (hflip8.symm.trans hflip16.symm) cksum
      hturns)

/-- **32-bit arithmetic is complete**: for every buffer, window, number and mutation,
what only the carry guard of `Arithmetic32` turns away is not lost, exactly but for the
big-endian subtraction from `.. .. 00 xx` of a number above `xx`. -/
theorem arithmetic32_complete_iff (seed : Block) (i j : Nat) (m : Arith)
    (hi : i + 4 ≤ seed.size) (hj : 1 ≤ j ∧ j ≤ 35) :
    (carry32 (wordAt 4 seed.bytes i) j m = false →
      couldBeBitflip (wordAt 4 seed.bytes i ^^^ m.apply swap32 (wordAt 4 seed.bytes i) j) = false →
      NotLost seed i j m)
    ↔ ¬(WrongOrder seed.bytes i j m ∧ couldBeBitflip (wordAt 4 seed.bytes i
        ^^^ m.apply swap32 (wordAt 4 seed.bytes i) j) = false) := by
  have hj' : j ∈ arithNumbers := by
    rw [arithNumbers, List.mem_range'_1]
    exact ⟨hj.1, Nat.lt_succ_of_le hj.2⟩
  constructor
  · rintro h ⟨hwrong, hflip⟩
    -- the guard turns it away although there is a borrow, which no smaller stage makes
    have hguard := not_carry32_of_wrongOrder hj hwrong
    have hborrow := (stays_of_carry32 hj hguard).not.mpr (not_not.mpr hwrong)
    obtain ⟨rfl, -⟩ := hwrong
    exact mutated_ne_of_borrow hi hj.2 hborrow (h hguard hflip).1
  · intro hok hguard hflip
    have hstays := (stays_of_carry32 hj hguard).mpr fun hwrong => hok ⟨hwrong, hflip⟩
    exact notLost_of_stays hi hj' hstays hflip

end Executed

/-- Four bytes to mutate. -/
def fourBytes (a b c d : UInt8) : Block := ⟨[a, b, c, d], show 4 < 2 ^ 63 by decide⟩

/-- `ff 02 03 04` plus one, read from its low end: the carry stays in the lower half. -/
theorem arithmetic32_complete_plus : NotLost (fourBytes 0xff 2 3 4) 0 1 .lePlus :=
  (arithmetic32_complete_iff (fourBytes 0xff 2 3 4) 0 1 .lePlus (by decide) (by decide)).mpr
    (by decide) (by decide) (by decide)

/-- `00 01 00 01` less two, big-endian, is `00 00 ff ff`: the guard of `Arithmetic32` turns
it away, and what `Arithmetic16` makes of the lower half is `00 01 ff ff`. -/
theorem arithmetic32_loses :
    carry32 (wordAt 4 (fourBytes 0 1 0 1).bytes 0) 2 .beMinus = false ∧
    couldBeBitflip (wordAt 4 (fourBytes 0 1 0 1).bytes 0
      ^^^ Arith.beMinus.apply swap32 (wordAt 4 (fourBytes 0 1 0 1).bytes 0) 2) = false ∧
    mutated 4 swap32 (fourBytes 0 1 0 1).bytes 0 2 .beMinus = [0, 0, 0xff, 0xff] ∧
    mutated 2 swap16 (fourBytes 0 1 0 1).bytes 2 2 .beMinus = [0, 1, 0xff, 0xff] ∧
    ¬NotLost (fourBytes 0 1 0 1) 0 2 .beMinus := by
  refine ⟨by decide, by decide, by decide, by decide, fun h => ?_⟩
  exact absurd h.1 (by decide)

end DistFuzz.Fuzzer
