import DistFuzz.Lib.ByteMap
import DistFuzz.Lib.Runs
import Mathlib.Data.Fintype.Fin
import Mathlib.Tactic.DeriveFintype

/-!
# The new-coverage test (`has_new_bits`, TestRunning.cpp:437–494)

The fuzzer keeps, per coverage map, a *virgin* map whose bits are cleared as
they are first seen. `has_new_bits` compares a fresh trace with it one machine
word at a time: a word that shares a set bit with its virgin word is examined
byte by byte (until the strongest verdict is reached), and only such words are
written back.

- `hasNewBitsWords w`: the scan, generic in the word size. `hasNewBits` is the
  `__x86_64__` build (8-byte words), `hasNewBits32` the other one.
- `NewByte`/`NewBit`: what the scan is for, stated on single cells.
- `hasNewBitsWords_eq`: scan and cell view agree, verdict and virgin map
  alike, whatever mix of hit and virgin bytes a word holds.
- `showCoverage` (FuzzOne.cpp:244–254): cells that left the virgin value.
-/

namespace DistFuzz.Fuzzer

open DistFuzz.Lib

variable {n : Nat}

/-! ## The scan -/

/-- Some byte of word `k` is hit and still has the virgin value: the `||`
chain of `has_new_bits`. -/
def wordHasVirginHit (w : Nat) (current virgin : ByteMap n) (k : Nat) : Bool :=
  (List.range w).any fun j =>
    current.byteAt (w * k + j) != 0 && virgin.byteAt (w * k + j) == 0xff

/-- One turn of the loop of `has_new_bits`, the pointers at word `k`: verdict
and virgin map so far to the next ones. -/
def scanWord (w : Nat) (current : ByteMap n) (st : UInt8 × ByteMap n) (k : Nat) :
    UInt8 × ByteMap n :=
  let cur := current.loadWord w k
  let vir := st.2.loadWord w k
  if cur ≠ 0 ∧ cur &&& vir ≠ 0 then
    (if st.1 < 2 then (if wordHasVirginHit w current st.2 k then 2 else 1) else st.1,
      st.2.storeWord w k (vir &&& ~~~cur))
  else st

/-- `has_new_bits` for words of `w` bytes: verdict and updated virgin map. -/
def hasNewBitsWords (w : Nat) (current virgin : ByteMap n) : UInt8 × ByteMap n :=
  (List.range (n / w)).foldl (scanWord w current) (0, virgin)

/-- `has_new_bits` as built on x86-64. -/
def hasNewBits (current virgin : ByteMap n) : UInt8 × ByteMap n :=
  hasNewBitsWords 8 current virgin

/-- `has_new_bits` as built elsewhere, on 32-bit words. -/
def hasNewBits32 (current virgin : ByteMap n) : UInt8 × ByteMap n :=
  hasNewBitsWords 4 current virgin

/-- `ShowCoverage`: the cells of a virgin map that some trace hit. -/
def showCoverage (virgin : ByteMap n) : Nat :=
  (List.finRange n).countP fun i => virgin i != 255

/-! ## The cell view -/

/-- Cell `i` is hit and was never hit before. -/
def NewByte (current virgin : ByteMap n) (i : Fin n) : Prop :=
  current i ≠ 0 ∧ virgin i = 0xff

/-- Cell `i` is hit in a bit not seen before. -/
def NewBit (current virgin : ByteMap n) (i : Fin n) : Prop :=
  current i &&& virgin i ≠ 0

instance (current virgin : ByteMap n) (i : Fin n) : Decidable (NewByte current virgin i) :=
  inferInstanceAs (Decidable (_ ∧ _))

instance (current virgin : ByteMap n) (i : Fin n) : Decidable (NewBit current virgin i) :=
  inferInstanceAs (Decidable (_ ≠ _))

/-- The virgin map after a trace, cell by cell. -/
def clearHits (current virgin : ByteMap n) : ByteMap n :=
  fun i => virgin i &&& ~~~current i

/-- A never-hit cell shares every bit with its trace. -/
theorem NewByte.newBit {current virgin : ByteMap n} {i : Fin n}
    (h : NewByte current virgin i) : NewBit current virgin i := by
  rw [NewBit, h.2, and_ff]
  exact h.1

/-- Clearing changes nothing where the trace shares no bit. -/
theorem clearHits_of_not_newBit {current virgin : ByteMap n} {i : Fin n}
    (h : ¬NewBit current virgin i) : clearHits current virgin i = virgin i :=
  andNot_eq_self (not_not.mp h)

/-- A cleared cell is virgin iff it was and the trace misses it. -/
theorem clearHits_eq_ff_iff {current virgin : ByteMap n} {i : Fin n} :
    clearHits current virgin i = 0xff ↔ virgin i = 0xff ∧ current i = 0 :=
  andNot_eq_ff_iff

/-- The verdict on single cells: `2` for a never-hit cell, else `1` for a new
bit, else `0`. -/
def newBitsVerdict (current virgin : ByteMap n) : UInt8 :=
  if ∃ i, NewByte current virgin i then 2
  else if ∃ i, NewBit current virgin i then 1
  else 0

theorem newBitsVerdict_eq_two_iff {current virgin : ByteMap n} :
    newBitsVerdict current virgin = 2 ↔ ∃ i, NewByte current virgin i := by
  rw [newBitsVerdict]
  split
  · next h => simp [h]
  · next h =>
    split
    · simp [h]
    · simp [h]

theorem newBitsVerdict_eq_one_iff {current virgin : ByteMap n} :
    newBitsVerdict current virgin = 1
      ↔ newBitsVerdict current virgin ≠ 2 ∧ ∃ i, NewBit current virgin i := by
  rw [newBitsVerdict]
  split
  · simp
  · split
    · next h => simp [h]
    · next h => simp [h]

theorem newBitsVerdict_eq_zero_iff {current virgin : ByteMap n} :
    newBitsVerdict current virgin = 0 ↔ ∀ i, ¬NewBit current virgin i := by
  rw [newBitsVerdict, ← not_exists]
  split
  · next h =>
    obtain ⟨i, hi⟩ := h
    exact ⟨fun h => absurd h (by decide), fun h => absurd ⟨i, hi.newBit⟩ h⟩
  · split
    · next h => simp [h]
    · next h => simp [h]

/-! ## Scan and cell view agree -/

/-- The guard of `scanWord` sees exactly the new bits of the word. -/
theorem loadWord_and_ne_zero_iff {w k : Nat} (hw : 0 < w) (hdvd : w ∣ n) (hk : k < n / w)
    (current virgin : ByteMap n) :
    (current.loadWord w k &&& virgin.loadWord w k ≠ 0)
      ↔ ∃ i : Fin n, i.val / w = k ∧ NewBit current virgin i := by
  rw [ByteMap.loadWord, ByteMap.loadWord, loadBytes_and, Ne, loadBytes_eq_zero_iff]
  push Not
  rw [ByteMap.exists_word_iff hw hdvd hk
    (fun a => current.byteAt a &&& virgin.byteAt a ≠ 0)]
  simp only [ByteMap.byteAt_val]
  rfl

theorem wordHasVirginHit_iff {w k : Nat} (hw : 0 < w) (hdvd : w ∣ n) (hk : k < n / w)
    (current virgin : ByteMap n) :
    wordHasVirginHit w current virgin k = true
      ↔ ∃ i : Fin n, i.val / w = k ∧ NewByte current virgin i := by
  simp only [wordHasVirginHit, List.any_eq_true, List.mem_range, Bool.and_eq_true,
    bne_iff_ne, beq_iff_eq]
  rw [ByteMap.exists_word_iff hw hdvd hk
    (fun a => current.byteAt a ≠ 0 ∧ virgin.byteAt a = 0xff)]
  simp only [ByteMap.byteAt_val]
  rfl

/-- The word store of `scanWord` clears the hits of its own word only. -/
theorem storeWord_andNot {w k : Nat} (hw : 0 < w) (current virgin : ByteMap n) (i : Fin n) :
    virgin.storeWord w k (virgin.loadWord w k &&& ~~~current.loadWord w k) i
      = if i.val / w = k then clearHits current virgin i else virgin i := by
  by_cases hik : i.val / w = k
  · subst hik
    rw [ByteMap.storeWord_of_eq rfl, if_pos rfl, ByteMap.loadWord, ByteMap.loadWord,
      loadBytes_andNot, byteOf_loadBytes _ (Nat.mod_lt _ hw), ByteMap.byteAt_split,
      ByteMap.byteAt_split]
    rfl
  · rw [ByteMap.storeWord_of_ne hik, if_neg hik]

/-- **One turn of the scan, on cells**: a word with a new bit has its hits
cleared and raises the verdict; any other word leaves both alone. -/
theorem scanWord_cases {w k : Nat} (hw : 0 < w) (hdvd : w ∣ n) (hk : k < n / w)
    (current : ByteMap n) (st : UInt8 × ByteMap n) :
    ((∃ i : Fin n, i.val / w = k ∧ NewBit current st.2 i) ∧
      scanWord w current st k =
        (if st.1 < 2 then
            (if ∃ i : Fin n, i.val / w = k ∧ NewByte current st.2 i then 2 else 1)
          else st.1,
          fun i => if i.val / w = k then clearHits current st.2 i else st.2 i)) ∨
    ((¬∃ i : Fin n, i.val / w = k ∧ NewBit current st.2 i) ∧ scanWord w current st k = st) := by
  -- the first conjunct of the guard is implied by the second
  have hguard : (current.loadWord w k ≠ 0 ∧
      current.loadWord w k &&& st.2.loadWord w k ≠ 0)
      ↔ ∃ i : Fin n, i.val / w = k ∧ NewBit current st.2 i := by
    rw [← loadWord_and_ne_zero_iff hw hdvd hk]
    refine ⟨fun hg => hg.2, fun hg => ⟨fun hz => hg ?_, hg⟩⟩
    rw [hz]
    exact BitVec.zero_and
  rw [scanWord]
  by_cases hg : ∃ i : Fin n, i.val / w = k ∧ NewBit current st.2 i
  · refine .inl ⟨hg, ?_⟩
    rw [if_pos (hguard.mpr hg)]
    simp only [wordHasVirginHit_iff hw hdvd hk]
    exact congrArg _ (funext fun i => storeWord_andNot hw current st.2 i)
  · exact .inr ⟨hg, if_neg fun hgd => hg (hguard.mp hgd)⟩

/-- What the scan has established after `k` words: the cells before word `k`
are cleared, the others untouched, and the verdict is the one on those cells. -/
structure ScanInv (w : Nat) (current virgin : ByteMap n) (k : Nat)
    (st : UInt8 × ByteMap n) : Prop where
  cells : ∀ i, st.2 i = if i.val / w < k then clearHits current virgin i else virgin i
  verdict : st.1 =
    if ∃ i : Fin n, i.val / w < k ∧ NewByte current virgin i then 2
    else if ∃ i : Fin n, i.val / w < k ∧ NewBit current virgin i then 1
    else 0

theorem scanInv_init (w : Nat) (current virgin : ByteMap n) :
    ScanInv w current virgin 0 (0, virgin) := by
  refine { cells := fun i => ?_, verdict := ?_ }
  · rw [if_neg (Nat.not_lt_zero _)]
  · simp

/-- Splitting off the last word of a prefix. -/
theorem exists_below_succ {w k : Nat} (P : Fin n → Prop) :
    (∃ i : Fin n, i.val / w < k + 1 ∧ P i)
      ↔ (∃ i : Fin n, i.val / w < k ∧ P i) ∨ ∃ i : Fin n, i.val / w = k ∧ P i := by
  constructor
  · rintro ⟨i, hi, hP⟩
    rcases Nat.lt_succ_iff_lt_or_eq.mp hi with hlt | heq
    · exact .inl ⟨i, hlt, hP⟩
    · exact .inr ⟨i, heq, hP⟩
  · rintro (⟨i, hi, hP⟩ | ⟨i, hi, hP⟩)
    · exact ⟨i, by omega, hP⟩
    · exact ⟨i, by omega, hP⟩

/-- One word extends the invariant. -/
theorem scanInv_step {w k : Nat} (hw : 0 < w) (hdvd : w ∣ n) (hk : k < n / w)
    {current virgin : ByteMap n} {st : UInt8 × ByteMap n}
    (h : ScanInv w current virgin k st) :
    ScanInv w current virgin (k + 1) (scanWord w current st k) := by
  -- the scan reads word `k` before anything has written it
  have hsame : ∀ i : Fin n, i.val / w = k → st.2 i = virgin i := by
    intro i hi
    rw [h.cells i, if_neg (by omega)]
  have hbit : (∃ i : Fin n, i.val / w = k ∧ NewBit current st.2 i)
      ↔ ∃ i : Fin n, i.val / w = k ∧ NewBit current virgin i := by
    refine exists_congr fun i => and_congr_right fun hi => ?_
    rw [NewBit, NewBit, hsame i hi]
  have hbyte : (∃ i : Fin n, i.val / w = k ∧ NewByte current st.2 i)
      ↔ ∃ i : Fin n, i.val / w = k ∧ NewByte current virgin i := by
    refine exists_congr fun i => and_congr_right fun hi => ?_
    rw [NewByte, NewByte, hsame i hi]
  rcases scanWord_cases hw hdvd hk current st with ⟨hg, hscan⟩ | ⟨hg, hscan⟩
  · rw [hbit] at hg
    rw [hscan]
    refine { cells := fun i => ?_, verdict := ?_ }
    · show (if i.val / w = k then _ else _) = _
      by_cases hik : i.val / w = k
      · rw [if_pos hik, if_pos (by omega), clearHits, clearHits, hsame i hik]
      · rw [if_neg hik, h.cells i]
        exact if_congr (by omega) rfl rfl
    · simp only [hbyte, exists_below_succ, h.verdict, hg, or_true, if_true]
      by_cases hA : ∃ i : Fin n, i.val / w < k ∧ NewByte current virgin i
      · simp [hA]
      · by_cases hB : ∃ i : Fin n, i.val / w < k ∧ NewBit current virgin i
        · simp [hA, hB]
        · simp [hA, hB]
  · rw [hbit] at hg
    rw [hscan]
    refine { cells := fun i => ?_, verdict := ?_ }
    · rw [h.cells i]
      by_cases hik : i.val / w = k
      · rw [if_neg (by omega), if_pos (by omega),
          clearHits_of_not_newBit fun hN => hg ⟨i, hik, hN⟩]
      · exact if_congr (by omega) rfl rfl
    · -- a word without a new bit has no new byte either
      have hno : ¬∃ i : Fin n, i.val / w = k ∧ NewByte current virgin i := by
        rintro ⟨i, hi, hN⟩
        exact hg ⟨i, hi, hN.newBit⟩
      simp only [exists_below_succ, hg, hno, or_false]
      exact h.verdict

/-- The invariant after any prefix of the words. -/
theorem scanInv_range {w : Nat} (hw : 0 < w) (hdvd : w ∣ n) (current virgin : ByteMap n) :
    ∀ k, k ≤ n / w →
      ScanInv w current virgin k ((List.range k).foldl (scanWord w current) (0, virgin))
  | 0, _ => scanInv_init w current virgin
  | k + 1, hk => by
    rw [List.range_succ, List.foldl_append]
    exact scanInv_step hw hdvd hk (scanInv_range hw hdvd current virgin k (by omega))

/-- **The word scan computes the cell view**: on an array of whole words the
verdict is the one on single cells, and every hit bit is cleared, in the words
the guard skips as well. -/
theorem hasNewBitsWords_eq {w : Nat} (hw : 0 < w) (hdvd : w ∣ n)
    (current virgin : ByteMap n) :
    hasNewBitsWords w current virgin
      = (newBitsVerdict current virgin, clearHits current virgin) := by
  have h := scanInv_range hw hdvd current virgin (n / w) le_rfl
  have hall : ∀ i : Fin n, i.val / w < n / w := by
    intro i
    obtain ⟨c, rfl⟩ := hdvd
    rw [Nat.mul_div_cancel_left c hw]
    exact Nat.div_lt_of_lt_mul i.isLt
  refine Prod.ext ?_ (funext fun i => ?_)
  · rw [hasNewBitsWords, h.verdict]
    simp only [hall, true_and]
    rfl
  · rw [hasNewBitsWords, h.cells i, if_pos (hall i)]

/-! ## Whole sequences of traces -/

/-- Along a run that clears the hits of one trace in each step, a cell stays
virgin until the first trace that hits it. -/
theorem run_clearHits {σ ι : Type*} {step : σ → ι → σ} (virgin : σ → ByteMap n)
    (trace : ι → ByteMap n) (hstep : ∀ s u, virgin (step s u) = clearHits (trace u) (virgin s))
    (s : σ) (us : List ι) (i : Fin n) :
    virgin (run step s us) i = 0xff ↔ virgin s i = 0xff ∧ ∀ u ∈ us, trace u i = 0 := by
  induction us generalizing s with
  | nil => simp
  | cons u us ih =>
    rw [run_cons, ih, hstep, clearHits_eq_ff_iff, List.forall_mem_cons, and_assoc]

/-- `ShowCoverage` counts the cells that are not virgin. -/
theorem showCoverage_eq_card {virgin : ByteMap n} {P : Fin n → Prop} [DecidablePred P]
    (h : ∀ i, virgin i ≠ 0xff ↔ P i) :
    showCoverage virgin = (Finset.univ.filter P).card := by
  have hsame : showCoverage virgin = (List.finRange n).countP fun i => decide (P i) := by
    refine List.countP_congr fun i _ => ?_
    simpa using h i
  rw [hsame, List.countP_eq_length_filter]
  rfl

end DistFuzz.Fuzzer
