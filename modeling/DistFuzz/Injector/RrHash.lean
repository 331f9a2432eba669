import DistFuzz.Injector.HashFormula
import DistFuzz.Injector.Rr

/-!
# The hash of rr (rr/src/dst_fuzz.cc:39–63)

rr's `get_hash_value` is strace's with two changes: the system call is passed as a `bool`,
and the two cells around the hash are looked at first.

- `rrOwnHash`, `rrProbes`: the hash before the cells are looked at, and the cells.
- `rr_inside_iff`: the function stays inside the map unless the hash is the first index, or
  the last one with nothing in the cell before. `record_coverage` of the BPF injector
  compares both indices with the size.
- `rr_agrees_iff`: with nothing in the cells around the hash, both collectors number an
  event alike exactly if it is a `read` or a `write`, as long as nothing lies next to the
  map where rr looks beyond it.
-/

namespace DistFuzz.Injector

/-- The `hash_value` of the source, before the loop. -/
def rrOwnHash (eventIndex : UInt64) (syscallNo : Bool) (position length : UInt64)
    (faultInjected : Bool) : UInt64 :=
  ((eventIndex + (if syscallNo then 10 else 0) + length + position)
    <<< (if faultInjected then 1 else 0)) % UInt64.ofNat mapSize

theorem rrOwnHash_lt (eventIndex : UInt64) (syscallNo : Bool) (position length : UInt64)
    (faultInjected : Bool) :
    (rrOwnHash eventIndex syscallNo position length faultInjected).toNat < mapSize :=
  toNat_mod_lt _

/-- The loop, which takes one turn. -/
def rrNear (s : RrState) (hash : UInt64) : UInt64 × RrState :=
  if 0 < s.fuzzCoverageMap (hash - 1) then (hash - 1, s)
  else if 0 < s.fuzzCoverageMap (hash + 1) then (hash + 1, s)
  else (hash, { s with eventIndex := s.eventIndex + 1 })

theorem rrGetHashValue_eq (s : RrState) (syscallNo : Bool) (position length : UInt64)
    (faultInjected : Bool) :
    rrGetHashValue s syscallNo position length faultInjected
      = rrNear s (rrOwnHash s.eventIndex syscallNo position length faultInjected) := rfl

/-- The indices at which the loop reads the map. -/
def rrProbes (s : RrState) (hash : UInt64) : List UInt64 :=
  (hash - 1) :: if 0 < s.fuzzCoverageMap (hash - 1) then [] else [hash + 1]

/-! ### Bounds -/

/-- A call reads cells of the map only, and returns the index of one. -/
structure RrInside (s : RrState) (syscallNo : Bool) (position length : UInt64)
    (faultInjected : Bool) : Prop where
  reads : ∀ a ∈ rrProbes s (rrOwnHash s.eventIndex syscallNo position length faultInjected),
    a.toNat < mapSize
  result : (rrGetHashValue s syscallNo position length faultInjected).1.toNat < mapSize

/-- At the ends of the map the loop reads beyond it, at the right one only if it gets that
far. -/
theorem ends_of_probes {s : RrState} {hash : UInt64} (hlt : hash.toNat < mapSize)
    (hreads : ∀ a ∈ rrProbes s hash, a.toNat < mapSize) :
    hash ≠ 0 ∧ (hash.toNat + 1 = mapSize → 0 < s.fuzzCoverageMap (hash - 1)) := by
  refine ⟨?_, fun hlast => ?_⟩
  · rintro rfl
    exact absurd (hreads _ List.mem_cons_self) (Nat.not_lt.mpr mapSize_le_left_of_zero)
  · by_contra hempty
    have hmem : hash + 1 ∈ rrProbes s hash := by
      rw [rrProbes, if_neg hempty]
      exact List.mem_cons_of_mem _ List.mem_cons_self
    have hright := hreads _ hmem
    rw [toNat_right hlt] at hright
    omega

/-- Anywhere else it stays inside, and so does what it returns. -/
theorem inside_of_ends {s : RrState} {hash : UInt64} (hlt : hash.toNat < mapSize)
    (hne : hash ≠ 0) (hlast : hash.toNat + 1 = mapSize → 0 < s.fuzzCoverageMap (hash - 1)) :
    (∀ a ∈ rrProbes s hash, a.toNat < mapSize) ∧ (rrNear s hash).1.toNat < mapSize := by
  have hleft := toNat_left hne
  have hright := toNat_right hlt
  unfold rrProbes rrNear
  -- the right neighbour is looked at only if the left one is free
  by_cases hused : 0 < s.fuzzCoverageMap (hash - 1)
  · rw [if_pos hused, if_pos hused]
    refine ⟨fun a ha => ?_, by dsimp only; omega⟩
    rw [List.mem_singleton.mp ha]
    omega
  · have hroom : (hash + 1).toNat < mapSize := by
      have := mt hlast hused
      omega
    rw [if_neg hused, if_neg hused]
    constructor
    · intro a ha
      rcases List.mem_pair.mp ha with rfl | rfl
      · omega
      · exact hroom
    · split
      · exact hroom
      · exact hlt

/-- **The index of rr.** A call stays inside the map exactly if its hash is not the first
index, nor the last one with an empty cell before it. -/
theorem rr_inside_iff (s : RrState) (syscallNo : Bool) (position length : UInt64)
    (faultInjected : Bool) :
    RrInside s syscallNo position length faultInjected
      ↔ rrOwnHash s.eventIndex syscallNo position length faultInjected ≠ 0 ∧
        ((rrOwnHash s.eventIndex syscallNo position length faultInjected).toNat + 1 = mapSize →
          0 < s.fuzzCoverageMap
            (rrOwnHash s.eventIndex syscallNo position length faultInjected - 1)) := by
  have hlt := rrOwnHash_lt s.eventIndex syscallNo position length faultInjected
  constructor
  · intro h
    exact ends_of_probes hlt h.reads
  · intro ⟨hne, hlast⟩
    obtain ⟨hreads, hresult⟩ := inside_of_ends hlt hne hlast
    exact ⟨hreads, hresult⟩

/-- The first event of a recording, a `read` of nothing: the byte before the map is read. -/
theorem first_read_outside :
    rrProbes (.init [] fun _ => 0) (rrOwnHash 0 false 0 0 false) = [0xFFFFFFFFFFFFFFFF, 1] ∧
      ¬RrInside (.init [] fun _ => 0) false 0 0 false := by
  have hprobes :
      rrProbes (.init [] fun _ => 0) (rrOwnHash 0 false 0 0 false) = [0xFFFFFFFFFFFFFFFF, 1] := by
    decide
  refine ⟨hprobes, fun h => ?_⟩
  have hread := h.reads
  rw [show (RrState.init [] fun _ => 0).eventIndex = 0 from rfl, hprobes] at hread
  exact absurd (hread _ List.mem_cons_self) (by decide)

/-! ### rr and strace -/

theorem toNat_rrOwnHash (eventIndex : UInt64) (syscallNo : Bool) (length : UInt64)
    (faultInjected : Bool) :
    (rrOwnHash eventIndex syscallNo 0 length faultInjected).toNat
      = (eventIndex.toNat + (if syscallNo then 10 else 0) + length.toNat)
        * (if faultInjected then 2 else 1) % 2 ^ 23 := by
  have hbool : (if syscallNo then 10 else 0 : UInt64).toNat = if syscallNo then 10 else 0 := by
    cases syscallNo <;> rfl
  rw [rrOwnHash, toNat_hash]
  simp only [UInt64.toNat_add, hbool, show (0 : UInt64).toNat = 0 from rfl]
  cases faultInjected with
  | false =>
    simp only [Bool.false_eq_true, if_false]
    omega
  | true =>
    simp only [if_true]
    omega

theorem syscallKind_lt {scno : UInt64} (h : (syscallKind scno).isSome) : scno.toNat < 329 := by
  unfold syscallKind at h
  split at h
  all_goals first
    | omega
    | exact absurd h (by decide)

/-- Before the loop the hashes agree for the numbers that are their own truth value. -/
theorem ownHash_eq_iff {env : HashEnv} (henv : env.noReduction = false)
    (eventIndex globalIndex : UInt64) {scno : UInt64} (hscno : (syscallKind scno).isSome)
    (length : UInt64) (faultInjected : Bool) :
    rrOwnHash eventIndex (scno != 0) 0 length faultInjected
        = getHashValue env eventIndex globalIndex ⟨scno.toUInt32, length, faultInjected⟩
      ↔ scno.toNat ≤ 1 := by
  have hsmall := syscallKind_lt hscno
  -- `rr` takes the truth value of the number, which is the number for `0` and `1`
  have hbool : (if (scno != 0) = true then 10 else 0) = if scno.toNat = 0 then 0 else 10 := by
    by_cases h0 : scno = 0
    · subst h0
      rfl
    · have hpos : scno.toNat ≠ 0 := fun h => h0 (UInt64.toNat_inj.mp h)
      rw [if_pos (bne_iff_ne.mpr h0), if_neg hpos]
  have hno : scno.toUInt32.toNat = scno.toNat := by
    rw [UInt64.toNat_toUInt32]
    omega
  have hk : (if faultInjected then 2 else 1) ∈ [1, 2] := by cases faultInjected <;> decide
  rw [← UInt64.toNat_inj, toNat_rrOwnHash, toNat_getHashValue henv, hbool, hno]
  generalize (if faultInjected then 2 else 1) = k at hk ⊢
  have hle : 0 < k ∧ k ≤ 2 := by
    rcases List.mem_pair.mp hk with rfl | rfl <;> decide
  rw [hash_cancel hle.1]
  · split <;> omega
  · split <;> omega
  · calc 10 * scno.toNat * k ≤ 10 * 329 * 2 :=
          Nat.mul_le_mul (Nat.mul_le_mul_left _ hsmall.le) hle.2
      _ < 2 ^ 23 := by decide

/-- The cells of the map on both sides of a hash are empty. -/
def NeighboursFree (s : RrState) (hash : UInt64) : Prop :=
  ∀ a : UInt64, a.toNat < mapSize → a.toNat + 1 = hash.toNat ∨ a.toNat = hash.toNat + 1 →
    s.fuzzCoverageMap a = 0

/-- And so is the memory next to the map, if the hash is at one of its ends. -/
def OutsideFree (s : RrState) (hash : UInt64) : Prop :=
  (hash = 0 → s.fuzzCoverageMap (hash - 1) = 0) ∧
    (hash.toNat + 1 = mapSize → s.fuzzCoverageMap (hash + 1) = 0)

theorem probes_free_iff {s : RrState} {hash : UInt64} (hlt : hash.toNat < mapSize)
    (h : NeighboursFree s hash) :
    s.fuzzCoverageMap (hash - 1) = 0 ∧ s.fuzzCoverageMap (hash + 1) = 0 ↔ OutsideFree s hash := by
  refine ⟨fun h' => ⟨fun _ => h'.1, fun _ => h'.2⟩, fun h' => ⟨?_, ?_⟩⟩
  · by_cases h0 : hash = 0
    · exact h'.1 h0
    · have hleft := toNat_left h0
      have hpos : hash.toNat ≠ 0 := fun hz => h0 (UInt64.toNat_inj.mp hz)
      exact h _ (by omega) (.inl (by omega))
  · have hright := toNat_right hlt
    by_cases hlast : hash.toNat + 1 = mapSize
    · exact h'.2 hlast
    · exact h _ (by omega) (.inr hright)

/-- The counter advances exactly if the loop finds nothing, and then the hash is returned. -/
theorem rrNear_advances_iff (s : RrState) (hash : UInt64) :
    (rrNear s hash).2.eventIndex = s.eventIndex + 1
      ↔ s.fuzzCoverageMap (hash - 1) = 0 ∧ s.fuzzCoverageMap (hash + 1) = 0 := by
  have hne : s.eventIndex ≠ s.eventIndex + 1 := by
    intro h
    exact absurd (UInt64.left_eq_add.mp h) (by decide)
  unfold rrNear
  constructor
  -- each of the two returns leaves the counter as it was
  · intro h
    split at h
    · exact absurd h hne
    · next hleft =>
      split at h
      · exact absurd h hne
      · next hright =>
        rw [byte_pos_iff, not_not] at hleft hright
        exact ⟨hleft, hright⟩
  · intro ⟨hleft, hright⟩
    rw [hleft, hright, if_neg (by decide), if_neg (by decide)]

theorem rrNear_of_free {s : RrState} {hash : UInt64} (hleft : s.fuzzCoverageMap (hash - 1) = 0)
    (hright : s.fuzzCoverageMap (hash + 1) = 0) : (rrNear s hash).1 = hash := by
  unfold rrNear
  rw [hleft, hright, if_neg (by decide), if_neg (by decide)]

/-- Both collectors return one index for an event and advance their counter by one. -/
structure RrAgrees (env : HashEnv) (sh : Shared) (s : RrState) (scno length : UInt64)
    (faultInjected : Bool) : Prop where
  index : (rrGetHashValue s (scno != 0) 0 length faultInjected).1
    = getHashValue env s.eventIndex sh.globalIndex ⟨scno.toUInt32, length, faultInjected⟩
  rr : (rrGetHashValue s (scno != 0) 0 length faultInjected).2.eventIndex = s.eventIndex + 1
  strace : (recordEvent sh ⟨env, s.eventIndex⟩
    ⟨scno.toUInt32, length, faultInjected⟩).2.eventIndex = s.eventIndex + 1

/-- **rr and strace.** With the cells around the hash empty, the collectors agree on a
handled system call exactly if it is `read` or `write` and no memory beyond the map is
taken for a neighbour. -/
theorem rr_agrees_iff {env : HashEnv} (henv : env.noReduction = false) (sh : Shared)
    (s : RrState) {scno : UInt64} (hscno : (syscallKind scno).isSome) (length : UInt64)
    (faultInjected : Bool)
    (hfree : NeighboursFree s (rrOwnHash s.eventIndex (scno != 0) 0 length faultInjected)) :
    RrAgrees env sh s scno length faultInjected
      ↔ scno.toNat ≤ 1 ∧
        OutsideFree s (rrOwnHash s.eventIndex (scno != 0) 0 length faultInjected) := by
  have hown := ownHash_eq_iff henv s.eventIndex sh.globalIndex hscno length faultInjected
  have hprobes := probes_free_iff (rrOwnHash_lt ..) hfree
  constructor
  · intro ⟨hindex, hadvance, _⟩
    rw [rrGetHashValue_eq] at hindex hadvance
    have hempty := (rrNear_advances_iff s _).mp hadvance
    rw [rrNear_of_free hempty.1 hempty.2] at hindex
    exact ⟨hown.mp hindex, hprobes.mp hempty⟩
  · intro ⟨hone, houtside⟩
    have hempty := hprobes.mpr houtside
    refine ⟨?_, ?_, rfl⟩
    · rw [rrGetHashValue_eq, rrNear_of_free hempty.1 hempty.2]
      exact hown.mpr hone
    · rw [rrGetHashValue_eq]
      exact (rrNear_advances_iff s _).mpr hempty

/-- A `write` of 100 bytes in an empty map. -/
theorem rr_agrees_write :
    RrAgrees ⟨false, 0⟩ ⟨fun _ => 0, 0⟩ (.init [] fun _ => 0) 1 100 false :=
  (rr_agrees_iff rfl _ _ (by decide) _ _ fun _ _ _ => rfl).mpr
    ⟨by decide, fun _ => rfl, fun _ => rfl⟩

/-- A `sendto` of 100 bytes: cell 110 for rr, 540 for strace. -/
theorem rr_disagrees_sendto :
    (syscallKind 44).isSome ∧
      NeighboursFree (.init [] fun _ => 0) (rrOwnHash 0 (44 != (0 : UInt64)) 0 100 false) ∧
      (rrGetHashValue (.init [] fun _ => 0) (44 != 0) 0 100 false).1 = 110 ∧
      getHashValue ⟨false, 0⟩ 0 0 ⟨44, 100, false⟩ = 540 ∧
      ¬RrAgrees ⟨false, 0⟩ ⟨fun _ => 0, 0⟩ (.init [] fun _ => 0) 44 100 false :=
  ⟨by decide, fun _ _ _ => rfl, by decide, by decide, fun h => absurd h.index (by decide)⟩

end DistFuzz.Injector
