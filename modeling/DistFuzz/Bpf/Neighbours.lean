import DistFuzz.Bpf.Injector
import DistFuzz.Lib.Runs

/-!
# Neighbour merging (bpf/dst_fuzz_fault.bpf.c:29–56)

`record_coverage` counts an event in the cell to the left of its hash if that cell is in
use, then in the one to the right of where it is now, and otherwise in its own. Both
tests are guarded at the ends of the map.

- `ownHash`: the event's hash before any move.
- `recordCoverageIn`: the function on a map that fails outside its bounds.
- `Apart`: no two adjacent cells are in use.
- `welcome_of_hash`: in such a map, the cell is in use already or has no neighbour in use.
- `stepCoverage_of_apart`: what a call does to such a map; `neighbour_merging`: whole runs.
-/

namespace DistFuzz.Bpf

open DistFuzz.Lib

/-- The arguments of a call of `record_coverage`. -/
structure CoverageCall where
  isSend : Bool
  length : Int32
  fd : UInt32
  faultInjected : Bool

/-- The first `hash_value` of a call. -/
def ownHash (cfg : Config) (b : Bss) (c : CoverageCall) : UInt64 :=
  ((b.eventIndex + c.length.toInt64.toUInt64 + (c.fd * 97).toUInt64 + (cfg.nodeId * 100).toUInt64
      + (if c.isSend then 10 else 0)) <<< (if c.faultInjected then 1 else 0))
    % UInt64.ofNat mapSize

theorem ownHash_lt (cfg : Config) (b : Bss) (c : CoverageCall) :
    (ownHash cfg b c).toNat < mapSize := toNat_mod_lt _

/-- `hash_value` after the test of the left neighbour. -/
def afterLeft (b : Bss) (hash : UInt64) : UInt64 :=
  if 0 < cell b.fuzzCoverageMap (hash - 1) then (hash - 1) % UInt64.ofNat mapSize else hash

/-- And after that of the right one. -/
def afterRight (b : Bss) (hash : UInt64) : UInt64 :=
  if 0 < cell b.fuzzCoverageMap (hash + 1) then (hash + 1) % UInt64.ofNat mapSize else hash

theorem hashValue_eq (cfg : Config) (b : Bss) (c : CoverageCall) :
    hashValue cfg b c.isSend c.length c.fd c.faultInjected
      = afterRight b (afterLeft b (ownHash cfg b c)) := rfl

/-- `record_coverage`. -/
def stepCoverage (cfg : Config) (b : Bss) (c : CoverageCall) : Bss :=
  recordCoverage cfg b c.isSend c.length c.fd c.faultInjected

/-! ### Accesses

The same function on a map that fails on an index outside of it. -/

/-- `fuzz_coverage_map[tmp]`. -/
def readCell (m : CovMap) (tmp : UInt64) : Option UInt8 :=
  if h : tmp.toNat < mapSize then some (m ⟨tmp.toNat, h⟩) else none

/-- `fuzz_coverage_map[hash_value]++`. -/
def incrCell (m : CovMap) (hash : UInt64) : Option CovMap :=
  if h : hash.toNat < mapSize then some (incr m ⟨hash.toNat, h⟩) else none

/-- The test of a neighbour, which reads the cell only after the comparison. -/
def inUse (m : CovMap) (tmp : UInt64) : Option Bool :=
  if tmp < UInt64.ofNat mapSize then (readCell m tmp).map (0 < ·) else some false

/-- `record_coverage`, or `none` if it accesses the map outside its bounds. -/
def recordCoverageIn (cfg : Config) (b : Bss) (c : CoverageCall) : Option Bss := do
  let m := b.fuzzCoverageMap
  let size := UInt64.ofNat mapSize
  let hash := ownHash cfg b c
  let left ← inUse m (hash - 1)
  let hash := if left then (hash - 1) % size else hash
  let right ← inUse m (hash + 1)
  let hash := if right then (hash + 1) % size else hash
  let m' ← if hash < size then incrCell m hash else some m
  return { b with fuzzCoverageMap := m', eventIndex := b.eventIndex + 1 }

theorem inUse_eq (m : CovMap) (tmp : UInt64) : inUse m tmp = some (decide (0 < cell m tmp)) := by
  unfold inUse readCell cell
  by_cases h : tmp.toNat < mapSize
  · rw [if_pos (lt_ofNat_mapSize.mpr h), dif_pos h, dif_pos h, Option.map_some]
  · rw [if_neg (mt lt_ofNat_mapSize.mp h), dif_neg h]
    rfl

/-- The guards keep every access inside the map. -/
theorem recordCoverageIn_eq (cfg : Config) (b : Bss) (c : CoverageCall) :
    recordCoverageIn cfg b c = some (stepCoverage cfg b c) := by
  have hleft (hash : UInt64) : (if decide (0 < cell b.fuzzCoverageMap (hash - 1)) = true
      then (hash - 1) % UInt64.ofNat mapSize else hash) = afterLeft b hash := by
    simp only [decide_eq_true_eq, afterLeft]
  have hright (hash : UInt64) : (if decide (0 < cell b.fuzzCoverageMap (hash + 1)) = true
      then (hash + 1) % UInt64.ofNat mapSize else hash) = afterRight b hash := by
    simp only [decide_eq_true_eq, afterRight]
  rw [recordCoverageIn, stepCoverage, recordCoverage, hashValue_eq]
  simp only [inUse_eq, Option.bind_eq_bind, Option.bind_some, hleft, hright]
  generalize afterRight b (afterLeft b (ownHash cfg b c)) = hash
  unfold incrCell
  by_cases h : hash.toNat < mapSize
  · rw [if_pos (lt_ofNat_mapSize.mpr h), dif_pos h, dif_pos h]
    rfl
  · rw [if_neg (mt lt_ofNat_mapSize.mp h), dif_neg h]
    rfl

/-! ### Cells in use -/

/-- No two adjacent cells are in use. The first and the last are not adjacent. -/
def Apart (m : CovMap) : Prop :=
  ∀ i j : Fin mapSize, j.val = i.val + 1 → m i = 0 ∨ m j = 0

theorem cell_of_lt {m : CovMap} {i : UInt64} (h : i.toNat < mapSize) :
    cell m i = m ⟨i.toNat, h⟩ := dif_pos h

theorem cell_of_le {m : CovMap} {i : UInt64} (h : mapSize ≤ i.toNat) : cell m i = 0 :=
  dif_neg (Nat.not_lt.mpr h)

theorem lt_of_cell_pos {m : CovMap} {i : UInt64} (h : 0 < cell m i) : i.toNat < mapSize := by
  by_contra hle
  rw [cell_of_le (Nat.le_of_not_lt hle)] at h
  exact absurd h (by decide)

/-- In use, or without a neighbour in use. -/
def Welcome (m : CovMap) (i : Fin mapSize) : Prop :=
  m i ≠ 0 ∨ ∀ j : Fin mapSize, j.val = i.val + 1 ∨ i.val = j.val + 1 → m j = 0

theorem Apart.incr {m : CovMap} (h : Apart m) {i : Fin mapSize} (hi : Welcome m i) :
    Apart (DistFuzz.incr m i) := by
  intro j k hjk
  have hne : j ≠ k := fun heq => by
    rw [heq] at hjk
    omega
  unfold DistFuzz.incr
  by_cases hj : j = i
  · subst hj
    -- the cell to the right was not in use, for either reason
    refine .inr ?_
    rw [if_neg (Ne.symm hne)]
    rcases hi with hused | hfree
    · exact (h j k hjk).resolve_left hused
    · exact hfree k (.inl hjk)
  · rw [if_neg hj]
    by_cases hk : k = i
    · subst hk
      refine .inl ?_
      rcases hi with hused | hfree
      · exact (h j k hjk).resolve_right hused
      · exact hfree j (.inr hjk)
    · rw [if_neg hk]
      exact h j k hjk

/-- The cell to the left is in use: it is taken. Its right neighbour is the hash itself,
which is not in use. -/
theorem after_of_left {b : Bss} (h : Apart b.fuzzCoverageMap) {hash : UInt64}
    (hlt : hash.toNat < mapSize) (hleft : 0 < cell b.fuzzCoverageMap (hash - 1)) :
    hash ≠ 0 ∧ afterRight b (afterLeft b hash) = hash - 1 := by
  have hne : hash ≠ 0 := by
    rintro rfl
    exact absurd (lt_of_cell_pos hleft) (Nat.not_lt.mpr mapSize_le_left_of_zero)
  have hpos : hash.toNat ≠ 0 := fun h0 => hne (UInt64.toNat_inj.mp h0)
  have hin := lt_of_cell_pos hleft
  have hto := toNat_left hne
  have hback : ¬0 < cell b.fuzzCoverageMap (hash - 1 + 1) := by
    rw [cell_of_lt hin, byte_pos_iff] at hleft
    rw [UInt64.sub_add_cancel, cell_of_lt hlt, byte_pos_iff, not_not]
    have hnext : hash.toNat = (hash - 1).toNat + 1 := by omega
    exact (h ⟨_, hin⟩ ⟨_, hlt⟩ hnext).resolve_left hleft
  refine ⟨hne, ?_⟩
  rw [afterLeft, if_pos hleft, mod_mapSize hin, afterRight, if_neg hback]

/-- Neither neighbour is in use. -/
theorem welcome_of_free {m : CovMap} {hash : UInt64} (hlt : hash.toNat < mapSize)
    (hleft : ¬0 < cell m (hash - 1)) (hright : ¬0 < cell m (hash + 1)) :
    Welcome m ⟨hash.toNat, hlt⟩ := by
  refine .inr fun j hj => ?_
  rcases hj with hj | hj
  · have hto := toNat_right hlt
    have hin : (hash + 1).toNat < mapSize := by
      have := j.isLt
      dsimp only at hj
      omega
    rw [cell_of_lt hin, byte_pos_iff, not_not] at hright
    rwa [show j = ⟨(hash + 1).toNat, hin⟩ from Fin.ext (hj.trans hto.symm)]
  · have hne : hash ≠ 0 := by
      rintro rfl
      exact absurd hj (by simp)
    have hto := toNat_left hne
    have hin : (hash - 1).toNat < mapSize := by omega
    rw [cell_of_lt hin, byte_pos_iff, not_not] at hleft
    rwa [show j = ⟨(hash - 1).toNat, hin⟩ from Fin.ext (by dsimp only at hj ⊢; omega)]

/-- Where a hash ends up, in a map whose used cells are apart. -/
theorem welcome_of_hash {b : Bss} (h : Apart b.fuzzCoverageMap) {hash : UInt64}
    (hlt : hash.toNat < mapSize) :
    ∃ i : Fin mapSize, (afterRight b (afterLeft b hash)).toNat = i.val ∧
      i.val ≤ hash.toNat + 1 ∧ hash.toNat ≤ i.val + 1 ∧ Welcome b.fuzzCoverageMap i := by
  have hused {a : UInt64} (ha : 0 < cell b.fuzzCoverageMap a) :
      Welcome b.fuzzCoverageMap ⟨a.toNat, lt_of_cell_pos ha⟩ := by
    rw [cell_of_lt (lt_of_cell_pos ha)] at ha
    exact .inl (byte_pos_iff.mp ha)
  by_cases hleft : 0 < cell b.fuzzCoverageMap (hash - 1)
  · obtain ⟨hne, hafter⟩ := after_of_left h hlt hleft
    have hto := toNat_left hne
    rw [hafter]
    exact ⟨_, rfl, by dsimp only; omega, by dsimp only; omega, hused hleft⟩
  · have hto := toNat_right hlt
    rw [afterLeft, if_neg hleft, afterRight]
    by_cases hright : 0 < cell b.fuzzCoverageMap (hash + 1)
    · rw [if_pos hright, mod_mapSize (lt_of_cell_pos hright)]
      exact ⟨_, rfl, by dsimp only; omega, by dsimp only; omega, hused hright⟩
    · rw [if_neg hright]
      exact ⟨_, rfl, Nat.le_succ _, Nat.le_succ _, welcome_of_free hlt hleft hright⟩

/-! ### Calls and runs -/

/-- What a call should do: touch the map only inside of it, and increment one cell, at most
one away from the hash. -/
structure CountsOnce (cfg : Config) (b : Bss) (c : CoverageCall) : Prop where
  inside : recordCoverageIn cfg b c = some (stepCoverage cfg b c)
  one : ∃ i : Fin mapSize,
    (stepCoverage cfg b c).fuzzCoverageMap = incr b.fuzzCoverageMap i ∧
      i.val ≤ (ownHash cfg b c).toNat + 1 ∧ (ownHash cfg b c).toNat ≤ i.val + 1

theorem stepCoverage_map {cfg : Config} {b : Bss} {c : CoverageCall} {i : Fin mapSize}
    (h : (hashValue cfg b c.isSend c.length c.fd c.faultInjected).toNat = i.val) :
    (stepCoverage cfg b c).fuzzCoverageMap = incr b.fuzzCoverageMap i := by
  unfold stepCoverage recordCoverage
  -- only the value of the hash matters; unfolding it is slow
  generalize hashValue cfg b c.isSend c.length c.fd c.faultInjected = hash at h ⊢
  obtain ⟨n, hn⟩ := i
  subst h
  exact dif_pos hn

theorem stepCoverage_of_apart {cfg : Config} {b : Bss} (h : Apart b.fuzzCoverageMap)
    (c : CoverageCall) :
    CountsOnce cfg b c ∧ Apart (stepCoverage cfg b c).fuzzCoverageMap := by
  obtain ⟨i, hi, hle, hge, hwelcome⟩ := welcome_of_hash h (ownHash_lt cfg b c)
  rw [← hashValue_eq] at hi
  have hmap := stepCoverage_map hi
  refine ⟨⟨recordCoverageIn_eq cfg b c, i, hmap, hle, hge⟩, ?_⟩
  rw [hmap]
  exact h.incr hwelcome

/-- **Neighbour merging.** From an empty map, in every sequence of calls each one stays
inside the map and increments exactly one cell, at its hash or next to it, and at no
time are two adjacent cells in use. -/
theorem neighbour_merging (cfg : Config) (b : Bss) (calls : List CoverageCall) :
    Steps (stepCoverage cfg) (CountsOnce cfg) { b with fuzzCoverageMap := fun _ => 0 } calls ∧
      Always (stepCoverage cfg) (fun b => Apart b.fuzzCoverageMap)
        { b with fuzzCoverageMap := fun _ => 0 } calls := by
  have hstart : Apart fun _ => 0 := fun _ _ _ => .inl rfl
  have hinv (pre : List CoverageCall) : Apart
      (run (stepCoverage cfg) { b with fuzzCoverageMap := fun _ => 0 } pre).fuzzCoverageMap :=
    run_inv' (fun b : Bss => Apart b.fuzzCoverageMap)
      (fun _ c h => (stepCoverage_of_apart h c).2) hstart pre
  exact ⟨steps_iff.mpr fun pre c _ _ => (stepCoverage_of_apart (hinv pre) c).1,
    always_iff.mpr fun pre _ _ => hinv pre⟩

end DistFuzz.Bpf
