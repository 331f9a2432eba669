import DistFuzz.Fuzzer.Queue
import DistFuzz.Lib.Rewrites

/-!
# Count classes (TestRunning.cpp:132–198)

Before a trace is looked at, each counter of it is replaced by its class, one of eight bits.
`classify_counts` takes the map a word at a time, leaves out the words that are zero, and
replaces two counters at once through a table with an entry for every pair of them.

- `initLookup8`, `initLookup16`: the tables of `init_count_class`, from whatever stood in
  them.
- `classifyWords`: the loop, for words of any number of pairs; `classifyCounts64` and
  `classifyCounts32` are the two of the source.
- `rewrites_pair`, `rewrites_word`: what a turn does, for any table of pairs.
- `classify_counts`: both forms are the bytewise mapping, and what that mapping is like;
  `minimizeBit_classifyCounts64`: it does not touch the trace of a seed.
-/

namespace DistFuzz.Fuzzer

open DistFuzz.Lib

/-! ### The tables -/

/-- `for (i = lo; i < hi; i++) count_class_lookup8[i] = v;` -/
def fillClass (lo hi : Nat) (v : UInt8) (t : Nat → UInt8) : Nat → UInt8 :=
  (List.range (hi - lo)).foldl (fun t i => Function.update t (lo + i) v) t

/-- The first half of `init_count_class`. -/
def initLookup8 (t : Nat → UInt8) : Nat → UInt8 :=
  let t := Function.update t 0 0
  let t := Function.update t 1 1
  let t := Function.update t 2 2
  let t := Function.update t 3 4
  let t := fillClass 4 8 8 t
  let t := fillClass 8 16 16 t
  let t := fillClass 16 32 32 t
  let t := fillClass 32 128 64 t
  fillClass 128 256 128 t

/-- An entry for two counters. -/
def classPair (lookup8 : Nat → UInt8) (b1 b2 : Nat) : UInt16 :=
  ((lookup8 b1).toUInt16 <<< 8) ||| (lookup8 b2).toUInt16

/-- The second half. -/
def initLookup16 (lookup8 : Nat → UInt8) (t : Nat → UInt16) : Nat → UInt16 :=
  (List.range 256).foldl (fun t b1 =>
    (List.range 256).foldl (fun t b2 =>
      Function.update t ((b1 <<< 8) + b2) (classPair lookup8 b1 b2)) t) t

theorem rewrites_fillClass (lo hi : Nat) (v : UInt8) :
    Rewrites (fillClass lo hi v) (fun i => ∃ k, k < hi - lo ∧ i = lo + k) (fun _ _ => v) :=
  Rewrites.foldl (fun _ _ => rewrites_update fun _ => rfl) fun k k' i hk hk' => by omega

/-- Below `hi`, a loop adds a step to what stood below `lo`. -/
theorem fillClass_eq {lo hi : Nat} {v x : UInt8} {t : Nat → UInt8} {i : Nat} (hi' : i < hi)
    (h : i < lo → t i = x) : fillClass lo hi v t i = if lo ≤ i then v else x := by
  by_cases hlo : lo ≤ i
  · rw [if_pos hlo]
    exact (rewrites_fillClass lo hi v).inside t i ⟨i - lo, by omega, by omega⟩
  · rw [if_neg hlo, ← h (Nat.lt_of_not_le hlo)]
    refine (rewrites_fillClass lo hi v).outside t i ?_
    rintro ⟨k, hk, rfl⟩
    omega

/-- The class of a count. -/
def countClass (c : Nat) : UInt8 :=
  if 128 ≤ c then 128
  else if 32 ≤ c then 64
  else if 16 ≤ c then 32
  else if 8 ≤ c then 16
  else if 4 ≤ c then 8
  else if c = 3 then 4
  else if c = 2 then 2
  else if c = 1 then 1
  else 0

theorem initLookup8_apply (t : Nat → UInt8) {c : Nat} (h : c < 256) :
    initLookup8 t c = countClass c := by
  -- the loops, from the last to the first
  refine fillClass_eq h fun h => fillClass_eq h fun h => fillClass_eq h fun h =>
    fillClass_eq h fun h => fillClass_eq h fun h => ?_
  simp only [Function.update_apply]
  split_ifs
  · rfl
  · rfl
  · rfl
  · rfl
  · omega

theorem initLookup16_apply (lookup8 : Nat → UInt8) (t : Nat → UInt16) {b1 b2 : Nat}
    (h1 : b1 < 256) (h2 : b2 < 256) :
    initLookup16 lookup8 t ((b1 <<< 8) + b2) = classPair lookup8 b1 b2 := by
  have hshift (b : Nat) : b <<< 8 = b * 256 := Nat.shiftLeft_eq b 8
  -- entry `i` belongs to the turns `i / 256` and `i % 256`
  have hinner (b1 : Nat) : Rewrites (fun t : Nat → UInt16 => (List.range 256).foldl (fun t b2 =>
      Function.update t ((b1 <<< 8) + b2) (classPair lookup8 b1 b2)) t)
      (fun i => ∃ k, k < 256 ∧ i = (b1 <<< 8) + k)
      (fun i _ => classPair lookup8 (i / 256) (i % 256)) := by
    refine Rewrites.foldl (fun b2 hb2 => rewrites_update fun _ => ?_) fun k k' i hk hk' => ?_
    · rw [hshift]
      congr 1 <;> omega
    · omega
  have hloop := Rewrites.foldl (fun b1 (_ : b1 < 256) => hinner b1) fun k k' i hk hk' => by
    obtain ⟨b, hb, rfl⟩ := hk
    obtain ⟨b', hb', heq⟩ := hk'
    rw [hshift, hshift] at heq
    omega
  refine (hloop.inside t _ ⟨b1, h1, b2, h2, rfl⟩).trans ?_
  rw [hshift]
  congr 1 <;> omega

/-! ### The loop -/

/-- `mem16[p] = count_class_lookup16[mem16[p]]`. -/
def classifyPair {n : Nat} (lookup16 : Nat → UInt16) (m : ByteMap n) (p : Nat) : ByteMap n :=
  ByteMap.storeWord 2 m p (lookup16 (ByteMap.loadWord 2 m p).toNat).toBitVec

/-- A turn of the loop, for words of `h` pairs. -/
def classifyWord {n : Nat} (lookup16 : Nat → UInt16) (h : Nat) (m : ByteMap n) (k : Nat) :
    ByteMap n :=
  if ByteMap.loadWord (2 * h) m k ≠ 0 then
    (List.range h).foldl (fun m j => classifyPair lookup16 m (h * k + j)) m
  else m

def classifyWords {n : Nat} (lookup16 : Nat → UInt16) (h : Nat) (m : ByteMap n) : ByteMap n :=
  (List.range (n / (2 * h))).foldl (classifyWord lookup16 h) m

/-- `classify_counts` on a machine with 64-bit words. -/
def classifyCounts64 {n : Nat} (lookup16 : Nat → UInt16) : ByteMap n → ByteMap n :=
  classifyWords lookup16 4

/-- And elsewhere. -/
def classifyCounts32 {n : Nat} (lookup16 : Nat → UInt16) : ByteMap n → ByteMap n :=
  classifyWords lookup16 2

/-- The table maps both bytes of a pair through `class8`. -/
def PairTable (lookup16 : Nat → UInt16) (class8 : UInt8 → UInt8) : Prop :=
  ∀ b1 b2 : UInt8, lookup16 ((b1.toNat <<< 8) + b2.toNat)
    = ((class8 b1).toUInt16 <<< 8) ||| (class8 b2).toUInt16

/-- Two bytes in memory are a number with the first byte at the bottom. -/
theorem toNat_loadBytes_two (f : Nat → UInt8) :
    (loadBytes 2 f).toNat = ((f 1).toNat <<< 8) + (f 0).toNat := by
  have hlow : (f 0).toNat < 2 ^ 8 := (f 0).toNat_lt
  rw [Nat.shiftLeft_add_eq_or_of_lt hlow]
  simp only [loadBytes, BitVec.toNat_append, UInt8.toNat_toBitVec]
  rw [show (0#0).toNat = 0 from rfl, Nat.zero_shiftLeft, Nat.zero_or]

/-- The same two bytes as a `u16`. -/
theorem toBitVec_pair (f : Nat → UInt8) :
    (((f 1).toUInt16 <<< 8) ||| (f 0).toUInt16).toBitVec = loadBytes 2 f := by
  have hlow : (f 0).toNat < 2 ^ 8 := (f 0).toNat_lt
  have hhigh : (f 1).toNat <<< 8 < 2 ^ 16 := by
    have := (f 1).toNat_lt
    rw [Nat.shiftLeft_eq]
    omega
  refine BitVec.eq_of_toNat_eq ?_
  rw [toNat_loadBytes_two, Nat.shiftLeft_add_eq_or_of_lt hlow, UInt16.toNat_toBitVec,
    UInt16.toNat_or, UInt16.toNat_shiftLeft, UInt8.toNat_toUInt16, UInt8.toNat_toUInt16,
    show (8 : UInt16).toNat % 16 = 8 from rfl, Nat.mod_eq_of_lt hhigh]

section Turns

variable {n : Nat} {lookup16 : Nat → UInt16} {class8 : UInt8 → UInt8}

theorem rewrites_pair (h : PairTable lookup16 class8) (p : Nat) :
    Rewrites (fun m : ByteMap n => classifyPair lookup16 m p) (fun i => i.val / 2 = p)
      (fun _ x => class8 x) := by
  refine ⟨fun m i hi => ?_, fun m i hi => ByteMap.storeWord_of_ne hi⟩
  rw [classifyPair, ByteMap.storeWord_of_eq hi, ByteMap.loadWord, toNat_loadBytes_two, h,
    toBitVec_pair fun j => class8 (ByteMap.byteAt m (2 * p + j)),
    byteOf_loadBytes _ (Nat.mod_lt _ (by decide)), ← hi, ByteMap.byteAt_split]

/-- A word that is zero stays as it is, since the class of zero is zero. -/
theorem rewrites_word (h : PairTable lookup16 class8) (hzero : class8 0 = 0) {w : Nat}
    (hw : 0 < w) (k : Nat) :
    Rewrites (fun m : ByteMap n => classifyWord lookup16 w m k) (fun i => i.val / (2 * w) = k)
      (fun _ x => class8 x) := by
  have hpairs : Rewrites
      (fun m : ByteMap n => (List.range w).foldl (fun m j => classifyPair lookup16 m (w * k + j)) m)
      (fun i => ∃ j, j < w ∧ i.val / 2 = w * k + j) (fun _ x => class8 x) :=
    Rewrites.foldl (fun j _ => rewrites_pair h (w * k + j)) fun j j' i hj hj' => by omega
  have hword (i : Fin n) : (∃ j, j < w ∧ i.val / 2 = w * k + j) ↔ i.val / (2 * w) = k := by
    rw [← Nat.div_div_eq_div_mul]
    constructor
    · rintro ⟨j, hj, heq⟩
      rw [heq, Nat.mul_add_div hw, Nat.div_eq_of_lt hj, Nat.add_zero]
    · rintro rfl
      exact ⟨i.val / 2 % w, Nat.mod_lt _ hw, (Nat.div_add_mod ..).symm⟩
  refine (hpairs.congr hword).skip (fun m => ByteMap.loadWord (2 * w) m k ≠ 0) ?_
  intro m i hskip hi
  have hbyte := (loadBytes_eq_zero_iff _ _).mp (not_not.mp hskip) (i.val % (2 * w))
    (Nat.mod_lt _ (by omega))
  rw [← hi, ByteMap.byteAt_split] at hbyte
  rw [hbyte, hzero]

/-- The loop over whole words is the bytewise mapping. -/
theorem classifyWords_eq (h : PairTable lookup16 class8) (hzero : class8 0 = 0) {w : Nat}
    (hw : 0 < w) (hdvd : 2 * w ∣ n) (m : ByteMap n) :
    classifyWords lookup16 w m = fun i => class8 (m i) := by
  have hall : Rewrites (classifyWords (n := n) lookup16 w)
      (fun i => ∃ k, k < n / (2 * w) ∧ i.val / (2 * w) = k) (fun _ x => class8 x) :=
    Rewrites.foldl (fun k _ => rewrites_word h hzero hw k) fun k k' i hk hk' => hk ▸ hk'
  funext i
  exact hall.inside m i ⟨_, Nat.div_lt_div_of_lt_of_dvd hdvd i.isLt, rfl⟩

end Turns

/-! ### The classes -/

/-- What a class should be: nothing or a single bit, nothing only for nothing, and no
smaller for a larger count. -/
structure IsClass (class8 : UInt8 → UInt8) : Prop where
  oneBit : ∀ c, class8 c = 0 ∨ ∃ k : Nat, k < 8 ∧ (class8 c).toNat = 2 ^ k
  zero_iff : ∀ c, class8 c = 0 ↔ c = 0
  monotone : ∀ c c', c ≤ c' → class8 c ≤ class8 c'

theorem countClass_cases (c : Nat) :
    (c = 0 ∧ countClass c = 0) ∨
      ∃ k : Nat, k < 8 ∧ (countClass c).toNat = 2 ^ k ∧ c ≠ 0 := by
  by_cases h : c < 128
  · have hsmall : ∀ c : Fin 128, (c.val = 0 ∧ countClass c.val = 0) ∨
        ∃ k : Fin 8, (countClass c.val).toNat = 2 ^ k.val ∧ c.val ≠ 0 := by
      decide
    exact (hsmall ⟨c, h⟩).imp_right fun ⟨k, hk⟩ => ⟨k.val, k.isLt, hk⟩
  · refine .inr ⟨7, by decide, ?_, by omega⟩
    rw [countClass, if_pos (Nat.le_of_not_lt h)]
    rfl

theorem countClass_mono : Monotone fun c => (countClass c).toNat := by
  refine monotone_nat_of_le_succ fun c => ?_
  by_cases h : c < 128
  · have hsmall : ∀ c : Fin 128, (countClass c.val).toNat ≤ (countClass (c.val + 1)).toNat := by
      decide
    exact hsmall ⟨c, h⟩
  · rw [countClass, countClass, if_pos (by omega), if_pos (by omega)]

theorem isClass_countClass : IsClass fun c => countClass c.toNat where
  oneBit c := by
    rcases countClass_cases c.toNat with ⟨-, h⟩ | ⟨k, hk, h, -⟩
    · exact .inl h
    · exact .inr ⟨k, hk, h⟩
  zero_iff c := by
    rcases countClass_cases c.toNat with ⟨hc, h⟩ | ⟨k, -, h, hc⟩
    · exact iff_of_true h (UInt8.toNat_inj.mp hc)
    · refine iff_of_false (fun h0 => ?_) fun h0 => hc (congrArg UInt8.toNat h0)
      rw [h0] at h
      exact absurd h.symm (Nat.two_pow_pos k).ne'
  monotone _ _ h := UInt8.le_iff_toNat_le.mpr (countClass_mono (UInt8.le_iff_toNat_le.mp h))

/-- The classes of the table. -/
theorem isClass_initLookup8 (t8 : Nat → UInt8) : IsClass fun c => initLookup8 t8 c.toNat := by
  have heq : (fun c : UInt8 => initLookup8 t8 c.toNat) = fun c => countClass c.toNat :=
    funext fun c => initLookup8_apply t8 c.toNat_lt
  rw [heq]
  exact isClass_countClass

theorem pairTable_initLookup16 (lookup8 : Nat → UInt8) (t16 : Nat → UInt16) :
    PairTable (initLookup16 lookup8 t16) fun c => lookup8 c.toNat :=
  fun b1 b2 => initLookup16_apply lookup8 t16 b1.toNat_lt b2.toNat_lt

/-- With these tables, words of any size that fills the map. -/
theorem classifyWords_init (t8 : Nat → UInt8) (t16 : Nat → UInt16) {n w : Nat} (hw : 0 < w)
    (hdvd : 2 * w ∣ n) (m : ByteMap n) :
    classifyWords (initLookup16 (initLookup8 t8) t16) w m
      = fun i => initLookup8 t8 (m i).toNat :=
  classifyWords_eq (pairTable_initLookup16 _ t16)
    (((isClass_initLookup8 t8).zero_iff 0).mpr rfl) hw hdvd m

/-- The trace that is kept of a map is that of its classes. -/
theorem minimizeBit_classifyCounts64 (t8 : Nat → UInt8) (t16 : Nat → UInt16) (m : CovMap) :
    minimizeBit (classifyCounts64 (initLookup16 (initLookup8 t8) t16) m) = minimizeBit m := by
  funext i
  rw [classifyCounts64, classifyWords_init t8 t16 (by decide) eight_dvd_mapSize]
  have hzero := (isClass_initLookup8 t8).zero_iff (m i)
  rw [minimizeBit, minimizeBit, Bool.eq_iff_iff, bne_iff_ne, bne_iff_ne]
  exact not_congr hzero

/-- **Count classification.** With the tables of `init_count_class`, on a map of whole 64-bit
words, `classify_counts` maps every byte through `count_class_lookup8` in either form, and
the classes are single bits in the order of the counts. -/
theorem classify_counts (t8 : Nat → UInt8) (t16 : Nat → UInt16) {n : Nat} (hn : 8 ∣ n)
    (m : ByteMap n) :
    classifyCounts64 (initLookup16 (initLookup8 t8) t16) m
        = (fun i => initLookup8 t8 (m i).toNat) ∧
      classifyCounts32 (initLookup16 (initLookup8 t8) t16) m
        = (fun i => initLookup8 t8 (m i).toNat) ∧
      IsClass fun c => initLookup8 t8 c.toNat :=
  ⟨classifyWords_init t8 t16 (by decide) hn m,
    classifyWords_init t8 t16 (by decide) ((by decide : 2 * 2 ∣ 8).trans hn) m,
    isClass_initLookup8 t8⟩

/-- The maps of the fuzzer, with tables that start as zero. -/
theorem classify_counts_mapSize :
    8 ∣ mapSize ∧ ∀ m : CovMap,
      classifyCounts64 (initLookup16 (initLookup8 fun _ => 0) fun _ => 0) m
        = fun i => initLookup8 (fun _ => 0) (m i).toNat :=
  ⟨eight_dvd_mapSize, fun m => (classify_counts _ _ eight_dvd_mapSize m).1⟩

end DistFuzz.Fuzzer
