import DistFuzz.Injector.Coverage
import DistFuzz.Fuzzer.Interesting
import Mathlib.Data.List.ReduceOption

/-!
# Hits that are seen, and hits that wrap away
(strace/src/dst_fuzz.c:397–412, fuzz/coverage_collector/coverage_collector.c:94–123)

A cell of the shared map is an 8-bit counter that the injectors increment without
looking: an index that is hit a multiple of 256 times reads `0` afterwards, and
the fuzzer takes it for an index nobody hit. The collector that takes the place
of the map when coverage goes through Kafka stops counting at `255`.

- `hashes`: the hash values a run produces, in any mode and from any number of
  processes. `run_map`: they are all that the map depends on.
- `collect`, `coverageCollector`: the collector's map for the same values.
- `covered_iff_hit_iff`: the map shows exactly the indices that were hit if and
  only if no index was hit a positive multiple of 256 times.
-/

namespace DistFuzz.Injector

open DistFuzz.Lib DistFuzz.Fuzzer

/-! ## The hash values of a run -/

/-- The hash value that an action produces, if any. -/
def hashOf (s : System) : Action → Option (Fin mapSize)
  | .start _ => none
  | .record pid e =>
    s.procs[pid]?.map fun p => hashIndex p.env p.eventIndex s.shared.globalIndex e

/-- The hash values that a run produces, in order. -/
def hashes (s : System) (acts : List Action) : List (Fin mapSize) :=
  (outputs stepSystem hashOf s acts).reduceOption

@[simp] theorem hashes_nil (s : System) : hashes s [] = [] := rfl

theorem hashes_cons (s : System) (a : Action) (acts : List Action) :
    hashes s (a :: acts) = (hashOf s a).toList ++ hashes (stepSystem s a) acts := by
  rw [hashes, outputs]
  cases hashOf s a with
  | none => rfl
  | some i => rfl

/-- An action increments the cell of the value it produces, and no other. -/
theorem stepSystem_map (s : System) (a : Action) :
    (stepSystem s a).shared.fuzzCoverageMap
      = (hashOf s a).toList.foldl incr s.shared.fuzzCoverageMap := by
  cases a with
  | start env => rfl
  | record pid e =>
    rw [stepSystem, hashOf]
    cases s.procs[pid]? with
    | none => rfl
    | some p => rfl

/-- The map after a run is the map before it with the values counted in. -/
theorem run_map (s : System) (acts : List Action) :
    (run stepSystem s acts).shared.fuzzCoverageMap
      = (hashes s acts).foldl incr s.shared.fuzzCoverageMap := by
  induction acts generalizing s with
  | nil => rfl
  | cons a acts ih => rw [run_cons, ih, hashes_cons, List.foldl_append, stepSystem_map]

/-! ## The collector -/

/-- One message of the collector's loop: `coverage_map[index]` counts up to
`255`. -/
def collect (coverageMap : CovMap) (payload : UInt64) : CovMap :=
  fun j =>
    if j.val = (payload % UInt64.ofNat mapSize).toNat then
      (if coverageMap j < 255 then coverageMap j + 1 else coverageMap j)
    else coverageMap j

/-- The collector's map after these messages. -/
def coverageCollector (payloads : List UInt64) : CovMap := payloads.foldl collect fun _ => 0

/-- The message an injector sends for a hash value. -/
def coverageMessage (i : Fin mapSize) : UInt64 := UInt64.ofNat i.val

theorem coverageMessage_index (i : Fin mapSize) :
    (coverageMessage i % UInt64.ofNat mapSize).toNat = i.val := by
  have hmap : mapSize < 2 ^ 64 := mapSize_lt.trans (by omega)
  rw [coverageMessage, UInt64.toNat_mod, UInt64.toNat_ofNat_of_lt' hmap,
    UInt64.toNat_ofNat_of_lt' (i.isLt.trans hmap)]
  exact Nat.mod_eq_of_lt i.isLt

/-- A counter that stops at `255` is never `0` after it was incremented. -/
theorem saturated_ne_zero (b : UInt8) : (if b < 255 then b + 1 else b) ≠ 0 := by
  rw [Ne, ← UInt8.toNat_inj, UInt8.toNat_zero]
  split
  · next hlt =>
    have hlt' : b.toNat < 255 := UInt8.lt_iff_toNat_lt.mp hlt
    rw [UInt8.toNat_add, UInt8.toNat_one, Nat.mod_eq_of_lt (by omega)]
    omega
  · next hge =>
    have hge' : 255 ≤ b.toNat := UInt8.le_iff_toNat_le.mp (UInt8.not_lt.mp hge)
    omega

/-- The collector forgets nothing. -/
theorem foldl_collect_ne_zero_iff (m : CovMap) (hits : List (Fin mapSize)) (j : Fin mapSize) :
    (hits.map coverageMessage).foldl collect m j ≠ 0 ↔ m j ≠ 0 ∨ j ∈ hits := by
  induction hits generalizing m with
  | nil => simp
  | cons i hits ih =>
    rw [List.map_cons, List.foldl_cons, ih, List.mem_cons, collect, coverageMessage_index]
    by_cases hij : j = i
    · subst hij
      rw [if_pos rfl]
      exact ⟨fun _ => .inr (.inl rfl), fun _ => .inl (saturated_ne_zero _)⟩
    · rw [if_neg (Fin.val_ne_of_ne hij)]
      simp [hij]

/-! ## When the map forgets nothing -/

/-- A counter that wraps is `0` after every 256th increment. -/
theorem ofNat_ne_zero_iff (n : Nat) : UInt8.ofNat n ≠ 0 ↔ ¬256 ∣ n := by
  rw [Ne, ← UInt8.toNat_inj, UInt8.toNat_ofNat', UInt8.toNat_zero, Nat.dvd_iff_mod_eq_zero]

/-- An index reads as covered if and only if the number of its hits is not a
multiple of 256. -/
theorem covered_iff {s : System} (hs : s.shared.fuzzCoverageMap = fun _ => 0)
    (acts : List Action) (i : Fin mapSize) :
    (run stepSystem s acts).shared.fuzzCoverageMap i ≠ 0 ↔ ¬256 ∣ (hashes s acts).count i := by
  rw [run_map, foldl_incr_apply, hs, UInt8.zero_add, ofNat_ne_zero_iff]

/-- The indices the map shows are those that were hit, unless one was hit a
multiple of 256 times. -/
theorem covered_iff_hit_iff {s : System} (hs : s.shared.fuzzCoverageMap = fun _ => 0)
    (acts : List Action) :
    (∀ i, (run stepSystem s acts).shared.fuzzCoverageMap i ≠ 0 ↔ i ∈ hashes s acts)
      ↔ ∀ i ∈ hashes s acts, ¬256 ∣ (hashes s acts).count i := by
  refine forall_congr' fun i => ?_
  rw [covered_iff hs]
  by_cases hi : i ∈ hashes s acts
  · simp [hi]
  · -- an index that was not hit has count `0`, a multiple of everything
    simp [hi, List.count_eq_zero.mpr hi]

/-- What `has_new_bits` makes of the map on a fresh virgin map. -/
theorem hasNewBits_covered_iff (m : CovMap) (i : Fin mapSize) :
    (hasNewBits m virgin).2 i ≠ 0xff ↔ m i ≠ 0 := by
  rw [hasNewBits_eq, Ne, clearHits_eq_ff_iff, virgin]
  simp

/-- **No hit is forgotten** if and only if no index is hit a positive multiple of
256 times in the execution: then, and only then, do the map and `has_new_bits`
show exactly the hash values that were produced. The collector always does. -/
theorem no_hit_forgotten_iff (globalIndex : UInt64) (acts : List Action) :
    ((∀ i, (run stepSystem ⟨⟨fun _ => 0, globalIndex⟩, []⟩ acts).shared.fuzzCoverageMap i ≠ 0
          ↔ i ∈ hashes ⟨⟨fun _ => 0, globalIndex⟩, []⟩ acts) ∧
      (∀ i, (hasNewBits (run stepSystem ⟨⟨fun _ => 0, globalIndex⟩, []⟩
            acts).shared.fuzzCoverageMap virgin).2 i ≠ 0xff
          ↔ i ∈ hashes ⟨⟨fun _ => 0, globalIndex⟩, []⟩ acts)
      ↔ ∀ i ∈ hashes ⟨⟨fun _ => 0, globalIndex⟩, []⟩ acts,
          ¬256 ∣ (hashes ⟨⟨fun _ => 0, globalIndex⟩, []⟩ acts).count i) ∧
    ∀ i, coverageCollector ((hashes ⟨⟨fun _ => 0, globalIndex⟩, []⟩ acts).map coverageMessage) i
        ≠ 0 ↔ i ∈ hashes ⟨⟨fun _ => 0, globalIndex⟩, []⟩ acts := by
  refine ⟨?_, fun i => ?_⟩
  · simp only [hasNewBits_covered_iff, and_self]
    exact covered_iff_hit_iff rfl acts
  · rw [coverageCollector, foldl_collect_ne_zero_iff]
    simp

/-- One process reads a message of 256 bytes, one byte at a time: each read asks
for what is left of it. -/
def bytewiseReads : List Action :=
  .start ⟨false, 0⟩ ::
    (List.range 256).map fun k => .record 0 ⟨0, UInt64.ofNat (256 - k), false⟩

theorem lt_mapSize_256 : 256 < mapSize := by
  rw [mapSize]
  omega

/-- The reads all hash to index 256, which then reads as not covered. -/
theorem bytewiseReads_forgotten :
    (⟨256, lt_mapSize_256⟩ : Fin mapSize) ∈ hashes ⟨⟨fun _ => 0, 0⟩, []⟩ bytewiseReads ∧
    (run stepSystem ⟨⟨fun _ => 0, 0⟩, []⟩ bytewiseReads).shared.fuzzCoverageMap
      ⟨256, lt_mapSize_256⟩ = 0 := by
  have hhash : hashes ⟨⟨fun _ => 0, 0⟩, []⟩ bytewiseReads
      = List.replicate 256 ⟨256, lt_mapSize_256⟩ := by
    decide +kernel
  refine ⟨?_, ?_⟩
  · rw [hhash]
    exact List.mem_replicate.mpr ⟨by omega, rfl⟩
  · by_contra hne
    rw [← Ne, covered_iff rfl, hhash, List.count_replicate_self] at hne
    exact hne (dvd_refl 256)

end DistFuzz.Injector
