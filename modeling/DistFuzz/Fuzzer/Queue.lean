import DistFuzz.CoverageMap
import DistFuzz.Lib.Runs
import Mathlib.Data.Finset.Card
import Mathlib.Data.Fintype.Basic
import Mathlib.Logic.Function.Basic

/-!
# The seed queue and its culling (fuzz/fuzzer/old/QueueCulling.cpp)

Every index of the coverage map has at most one *top* seed: the last one, among
those that hit the index, whose score (execution time times length) did not
exceed the score of the top before it. `CullQueue` walks over the indices and
marks as favored the top of each index that no favored seed chosen so far hits.

- `Seed`, `SeedQueue`: the list `queue`, the array `queueTop` (positions in the
  queue; none is `queue.end()`), and the flags `scoreChange` and `pendFavor`.
- `updateQueueTop`, `cullQueue`: the two functions, as loops over all indices.
- `TopInv`: tops hit their index, `topCount` counts the indices a seed is top
  of, and a seed keeps its trace as long as it is top of one
  (`topInv_updateQueueTop`).
- `topTurns`, `topTurns_keeps`: the state inside a call of `updateQueueTop`, and
  the rule by which an invariant of its turns holds there; `Frame`: what any other
  function leaves as it was.
- `cullQueue_covers`, `cullQueue_pendFavor`: what a cull that was not skipped
  establishes; `cullQueue_seeds`: what no cull changes.
-/

namespace DistFuzz.Fuzzer

open DistFuzz.Lib

/-! ## Data -/

/-- `bitset<MAP_SIZE>`. -/
abbrev TraceBits := Fin mapSize → Bool

/-- `struct seed`. In place of `cksum`, the `hash32` of a trace, stands the trace
itself; it is none as long as the checksum is `0`. -/
structure Seed where
  wasFuzzed : Bool
  favored : Bool
  fileName : String
  fileLen : UInt64
  execTime : UInt64
  trace : Option TraceBits
  topCount : UInt32
  recorded : Option CovMap

/-- A seed as `AddToQueue` makes it. -/
def Seed.new (fileName : String) (fileLen : UInt64) : Seed :=
  { wasFuzzed := false, favored := false, fileName := fileName, fileLen := fileLen,
    execTime := 0, trace := none, topCount := 0, recorded := none }

/-- What `UpdateQueueTop` compares: `execTime * fileLen` in `u64`. -/
def Seed.score (s : Seed) : UInt64 := s.execTime * s.fileLen

/-- The trace of the seed hits index `i`. -/
def Seed.Hits (s : Seed) (i : Fin mapSize) : Prop := ∃ tr, s.trace = some tr ∧ tr i = true

/-- The seed with the mark of `CullQueue`. -/
def Seed.favor (s : Seed) : Seed := { s with favored := true }

/-- The seed without what `UpdateQueueTop` changes. -/
def Seed.untopped (s : Seed) : Seed := { s with trace := none, topCount := 0 }

/-- The seed without the mark. -/
def Seed.unfavored (s : Seed) : Seed := { s with favored := false }

theorem Seed.fields_of_untopped_eq {s s' : Seed} (h : s.untopped = s'.untopped) :
    s.favored = s'.favored ∧ s.wasFuzzed = s'.wasFuzzed ∧ s.recorded = s'.recorded := by
  have hfav := congrArg Seed.favored h
  have hfuzz := congrArg Seed.wasFuzzed h
  have hrec := congrArg Seed.recorded h
  exact ⟨hfav, hfuzz, hrec⟩

theorem Seed.fields_of_unfavored_eq {s s' : Seed} (h : s.unfavored = s'.unfavored) :
    s.wasFuzzed = s'.wasFuzzed ∧ s.trace = s'.trace ∧ s.recorded = s'.recorded := by
  have hfuzz := congrArg Seed.wasFuzzed h
  have htrace := congrArg Seed.trace h
  have hrec := congrArg Seed.recorded h
  exact ⟨hfuzz, htrace, hrec⟩

/-- The queue and what its culling works on. -/
structure SeedQueue where
  queue : List Seed
  queueTop : Fin mapSize → Option Nat
  scoreChange : Bool
  pendFavor : Bool

/-- A queue with these seeds and no tops yet. -/
def SeedQueue.ofList (seeds : List Seed) : SeedQueue :=
  { queue := seeds, queueTop := fun _ => none, scoreChange := false, pendFavor := false }

/-! ## `UpdateQueueTop` -/

/-- `MinimizeBit`. -/
def minimizeBit (globalTraceBit : CovMap) : TraceBits := fun i => globalTraceBit i != 0

/-- `if (!--topCount)` the trace is deleted. -/
def Seed.release (s : Seed) : Seed :=
  { s with
    topCount := s.topCount - 1
    trace := if s.topCount - 1 = 0 then none else s.trace }

/-- `topCount++`, and the trace is kept from now on. -/
def Seed.take (globalTraceBit : CovMap) (s : Seed) : Seed :=
  { s with
    topCount := s.topCount + 1
    trace := some (s.trace.getD (minimizeBit globalTraceBit)) }

namespace SeedQueue

/-- The score of the seed at a position. -/
def scoreAt (q : SeedQueue) (t : Nat) : UInt64 := (q.queue[t]?.map Seed.score).getD 0

/-- The top of index `i`, if any, loses it. -/
def release (q : SeedQueue) (t : Nat) : SeedQueue :=
  { q with queue := q.queue.modify t Seed.release }

/-- Seed `s` becomes the top of index `i`. -/
def take (q : SeedQueue) (s : Nat) (globalTraceBit : CovMap) (i : Fin mapSize) : SeedQueue :=
  { q with
    queueTop := Function.update q.queueTop i (some s)
    queue := q.queue.modify s (Seed.take globalTraceBit)
    scoreChange := true }

/-- The body of the loop of `UpdateQueueTop`. -/
def topStep (s : Nat) (score : UInt64) (globalTraceBit : CovMap) (q : SeedQueue)
    (i : Fin mapSize) : SeedQueue :=
  if globalTraceBit i = 0 then q
  else match q.queueTop i with
    | none => q.take s globalTraceBit i
    | some t =>
      if q.scoreAt t < score then q else (q.release t).take s globalTraceBit i

/-- `UpdateQueueTop`. -/
def updateQueueTop (q : SeedQueue) (s : Nat) (globalTraceBit : CovMap) : SeedQueue :=
  (List.finRange mapSize).foldl (topStep s (q.scoreAt s) globalTraceBit) q

/-- The first `k` turns of that loop. -/
def topTurns (q : SeedQueue) (s : Nat) (globalTraceBit : CovMap) (k : Nat) : SeedQueue :=
  ((List.finRange mapSize).take k).foldl (topStep s (q.scoreAt s) globalTraceBit) q

theorem topTurns_all (q : SeedQueue) (s : Nat) (tr : CovMap) :
    q.topTurns s tr mapSize = q.updateQueueTop s tr := by
  rw [topTurns, List.take_of_length_le (by rw [List.length_finRange]), updateQueueTop]

/-! ## `CullQueue` -/

/-- The body of the loop of `CullQueue`, with `traceRecord` beside the queue. -/
def cullStep (st : SeedQueue × TraceBits) (i : Fin mapSize) : SeedQueue × TraceBits :=
  match st.1.queueTop i with
  | none => st
  | some t =>
    if st.2 i then st
    else
      ({ st.1 with
         queue := st.1.queue.modify t Seed.favor
         pendFavor := st.1.pendFavor || st.1.queue[t]?.any fun s => !s.wasFuzzed },
       fun k => st.2 k || ((st.1.queue[t]?.bind Seed.trace).any fun tr => tr k))

/-- What `CullQueue` resets before its loop. -/
def cullInit (q : SeedQueue) : SeedQueue × TraceBits :=
  ({ q with scoreChange := false, pendFavor := false, queue := q.queue.map Seed.unfavored },
   fun _ => false)

/-- The loop of `CullQueue`. -/
def cullLoop (q : SeedQueue) : SeedQueue × TraceBits :=
  (List.finRange mapSize).foldl cullStep q.cullInit

/-- `CullQueue`. -/
def cullQueue (q : SeedQueue) : SeedQueue :=
  if q.scoreChange = false then q else q.cullLoop.1

end SeedQueue

/-! ## Changing one seed -/

section Modify

variable {α β : Type*} {l : List α} {t : Nat} {f : α → α}

/-- A view that `f` does not touch sees no change. -/
theorem map_modify_of_eq {g : α → β} (h : ∀ a, g (f a) = g a) :
    (l.modify t f).map g = l.map g := by
  refine List.ext_getElem? fun k => ?_
  rw [List.getElem?_map, List.getElem?_map, List.getElem?_modify]
  cases l[k]? with
  | none => rfl
  | some a =>
    by_cases htk : t = k
    · simp [htk, h]
    · simp [htk]

/-- The elements after a change: the changed one, and the others. -/
theorem mem_modify_iff {a : α} :
    a ∈ l.modify t f ↔
      (∃ b, l[t]? = some b ∧ f b = a) ∨ ∃ k, k ≠ t ∧ l[k]? = some a := by
  rw [List.mem_iff_getElem?]
  constructor
  · rintro ⟨k, hk⟩
    rw [List.getElem?_modify] at hk
    by_cases htk : t = k
    · subst htk
      cases hb : l[t]? with
      | none => simp [hb] at hk
      | some b => exact .inl ⟨b, rfl, by simpa [hb] using hk⟩
    · exact .inr ⟨k, Ne.symm htk, by simpa [htk] using hk⟩
  · rintro (⟨b, hb, hfb⟩ | ⟨k, hk, ha⟩)
    · exact ⟨t, by simp [hb, hfb]⟩
    · exact ⟨k, by simp [ha, Ne.symm hk]⟩

/-- Whether some element has a property that `f` does not touch. -/
theorem exists_mem_modify {P : α → Prop} (hP : ∀ a, P (f a) ↔ P a) :
    (∃ a ∈ l.modify t f, P a) ↔ ∃ a ∈ l, P a := by
  constructor
  · rintro ⟨a, ha, hp⟩
    rcases mem_modify_iff.mp ha with ⟨b, hb, rfl⟩ | ⟨k, -, hk⟩
    · exact ⟨b, List.mem_of_getElem? hb, (hP b).mp hp⟩
    · exact ⟨a, List.mem_of_getElem? hk, hp⟩
  · rintro ⟨a, ha, hp⟩
    obtain ⟨k, hk⟩ := List.mem_iff_getElem?.mp ha
    by_cases hkt : k = t
    · subst hkt
      exact ⟨f a, mem_modify_iff.mpr (.inl ⟨a, hk, rfl⟩), (hP a).mpr hp⟩
    · exact ⟨a, mem_modify_iff.mpr (.inr ⟨k, hkt, hk⟩), hp⟩

/-- The element at a position after a change. -/
theorem getElem?_modify_eq_some {k : Nat} {a : α} :
    (l.modify t f)[k]? = some a ↔ ∃ b, l[k]? = some b ∧ a = if k = t then f b else b := by
  rw [List.getElem?_modify]
  cases l[k]? with
  | none => simp
  | some b =>
    by_cases htk : t = k
    · simp [htk, eq_comm]
    · simp [htk, Ne.symm htk, eq_comm]

/-- Lists with the same view agree position by position. -/
theorem getElem?_of_map_eq {l' : List α} {g : α → β} (h : l.map g = l'.map g) {k : Nat} {a : α}
    (ha : l[k]? = some a) : ∃ b, l'[k]? = some b ∧ g b = g a := by
  have hget := congrArg (·[k]?) h
  simp only [List.getElem?_map, ha, Option.map_some] at hget
  exact Option.map_eq_some_iff.mp hget.symm

end Modify

namespace SeedQueue

/-! ## Tops -/

/-- The indices whose top is seed `t`. -/
def topIndices (queueTop : Fin mapSize → Option Nat) (t : Nat) : Finset (Fin mapSize) :=
  Finset.univ.filter fun i => queueTop i = some t

/-- The state of the tops when every seed `t` has been passed to `UpdateQueueTop`
with the trace `traceOf t` only, any number of times. -/
structure TopInv (traceOf : Nat → CovMap) (q : SeedQueue) : Prop where
  top : ∀ i t, q.queueTop i = some t → t < q.queue.length ∧ traceOf t i ≠ 0
  count : ∀ t s, q.queue[t]? = some s → s.topCount.toNat = (topIndices q.queueTop t).card
  trace : ∀ t s, q.queue[t]? = some s →
    s.trace = if s.topCount = 0 then none else some (minimizeBit (traceOf t))

theorem topInv_ofList {seeds : List Seed} (traceOf : Nat → CovMap)
    (h : ∀ s ∈ seeds, s.topCount = 0 ∧ s.trace = none) : TopInv traceOf (ofList seeds) where
  top := fun i t h => (nomatch h)
  count := fun t s hs => by
    rw [(h s (List.mem_of_getElem? hs)).1]
    simp [topIndices, ofList]
  trace := fun t s hs => by
    obtain ⟨hcount, htrace⟩ := h s (List.mem_of_getElem? hs)
    rw [htrace, if_pos hcount]

theorem topIndices_update_none (queueTop : Fin mapSize → Option Nat) (i : Fin mapSize) (t : Nat) :
    topIndices (Function.update queueTop i none) t = (topIndices queueTop t).erase i := by
  ext k
  by_cases hk : k = i
  · simp [topIndices, hk]
  · simp [topIndices, hk]

theorem topIndices_update_some {queueTop : Fin mapSize → Option Nat} {i : Fin mapSize}
    (hi : queueTop i = none) (s t : Nat) :
    topIndices (Function.update queueTop i (some s)) t
      = if t = s then insert i (topIndices queueTop t) else topIndices queueTop t := by
  ext k
  by_cases hk : k = i
  · subst hk
    by_cases hts : t = s
    · simp [topIndices, hts]
    · simp [topIndices, hts, hi, Ne.symm hts]
  · by_cases hts : t = s
    · simp [topIndices, hk, hts]
    · simp [topIndices, hk, hts]

theorem card_topIndices_lt {queueTop : Fin mapSize → Option Nat} {i : Fin mapSize} {t : Nat}
    (hi : i ∉ topIndices queueTop t) : (topIndices queueTop t).card < mapSize := by
  have hle := Finset.card_le_univ (insert i (topIndices queueTop t))
  rwa [Finset.card_insert_of_notMem hi, Fintype.card_fin] at hle

/-- Counts are counts of indices, and a seed has a trace exactly if it is counted. -/
structure Counted (q : SeedQueue) : Prop where
  top : ∀ i t, q.queueTop i = some t → t < q.queue.length
  count : ∀ t s, q.queue[t]? = some s → s.topCount.toNat = (topIndices q.queueTop t).card
  trace : ∀ (t : Nat) (s : Seed), q.queue[t]? = some s → (s.trace.isSome = true ↔ 0 < s.topCount)

section Counted

variable {q : SeedQueue} (h : Counted q) {i : Fin mapSize} {t : Nat} {s : Seed}
include h

/-- A seed that is top of some index has a positive count. -/
theorem Counted.one_le_topCount (hi : q.queueTop i = some t) (hs : q.queue[t]? = some s) :
    1 ≤ s.topCount := by
  rw [UInt32.le_iff_toNat_le, h.count t s hs]
  exact Finset.card_pos.mpr ⟨i, by simp [topIndices, hi]⟩

theorem Counted.topCount_ne_zero (hi : q.queueTop i = some t) (hs : q.queue[t]? = some s) :
    s.topCount ≠ 0 := by
  intro hzero
  have hle := h.one_le_topCount hi hs
  rw [hzero] at hle
  exact absurd hle (by decide)

/-- Counting one more index does not wrap: there are fewer of them than `2 ^ 32`. -/
theorem Counted.topCount_succ (hi : q.queueTop i = none) (hs : q.queue[t]? = some s) :
    (s.topCount + 1).toNat = s.topCount.toNat + 1 := by
  have hnot : i ∉ topIndices q.queueTop t := by simp [topIndices, hi]
  have hlt := card_topIndices_lt hnot
  rw [← h.count t s hs] at hlt
  rw [UInt32.toNat_add]
  exact Nat.mod_eq_of_lt (Nat.lt_of_le_of_lt hlt mapSize_lt)

/-- The top of an index gives it up. -/
theorem Counted.vacate (hi : q.queueTop i = some t) :
    Counted { q.release t with queueTop := Function.update q.queueTop i none } := by
  refine { top := fun k t' hk => ?_, count := fun t' s hs => ?_, trace := fun t' s hs => ?_ }
  · by_cases hki : k = i
    · subst hki
      simp at hk
    · rw [show (q.release t).queue.length = q.queue.length from List.length_modify ..]
      exact h.top k t' (by simpa [hki] using hk)
  · obtain ⟨s₀, hs₀, rfl⟩ := getElem?_modify_eq_some.mp hs
    have hcount := h.count t' s₀ hs₀
    show _ = (topIndices (Function.update q.queueTop i none) t').card
    rw [topIndices_update_none]
    by_cases ht : t' = t
    · subst ht
      rw [if_pos rfl, Finset.card_erase_of_mem (by simp [topIndices, hi]), ← hcount]
      exact UInt32.toNat_sub_of_le _ _ (h.one_le_topCount hi hs₀)
    · rw [if_neg ht, Finset.erase_eq_of_notMem (by simp [topIndices, hi, Ne.symm ht])]
      exact hcount
  · obtain ⟨s₀, hs₀, rfl⟩ := getElem?_modify_eq_some.mp hs
    have htrace := h.trace t' s₀ hs₀
    by_cases ht : t' = t
    · subst ht
      -- the last index takes the trace along
      have hpos : 0 < s₀.topCount := UInt32.pos_iff_ne_zero.mpr (h.topCount_ne_zero hi hs₀)
      rw [if_pos rfl, Seed.release]
      dsimp only
      split
      · next hlast => simp [hlast]
      · next hlast => simp [htrace.mpr hpos, UInt32.pos_iff_ne_zero, hlast]
    · rw [if_neg ht]
      exact htrace

/-- A seed becomes the top of an index without one. -/
theorem Counted.take (hlt : t < q.queue.length) (hi : q.queueTop i = none) (tr : CovMap) :
    Counted (q.take t tr i) := by
  have hnot : ∀ t, i ∉ topIndices q.queueTop t := fun t => by simp [topIndices, hi]
  refine { top := fun k t' hk => ?_, count := fun t' x hx => ?_, trace := fun t' x hx => ?_ }
  · rw [show (q.take t tr i).queue.length = q.queue.length from List.length_modify ..]
    by_cases hki : k = i
    · subst hki
      obtain rfl : t = t' := by simpa [SeedQueue.take] using hk
      exact hlt
    · exact h.top k t' (by simpa [SeedQueue.take, hki] using hk)
  · obtain ⟨x₀, hx₀, rfl⟩ := getElem?_modify_eq_some.mp hx
    have hcount := h.count t' x₀ hx₀
    show _ = (topIndices (Function.update q.queueTop i (some t)) t').card
    rw [topIndices_update_some hi]
    by_cases hts : t' = t
    · rw [if_pos hts, if_pos hts, Finset.card_insert_of_notMem (hnot t'), ← hcount]
      exact h.topCount_succ hi hx₀
    · rw [if_neg hts, if_neg hts]
      exact hcount
  · obtain ⟨x₀, hx₀, rfl⟩ := getElem?_modify_eq_some.mp hx
    by_cases hts : t' = t
    · rw [if_pos hts]
      refine iff_of_true rfl ?_
      show 0 < x₀.topCount + 1
      rw [UInt32.lt_iff_toNat_lt, h.topCount_succ hi hx₀]
      exact Nat.succ_pos _
    · rw [if_neg hts]
      exact h.trace t' x₀ hx₀

end Counted

theorem TopInv.counted {traceOf : Nat → CovMap} {q : SeedQueue} (h : TopInv traceOf q) :
    Counted q where
  top i t hi := (h.top i t hi).1
  count := h.count
  trace t s hs := by
    rw [h.trace t s hs, UInt32.pos_iff_ne_zero]
    split
    · next hzero => simp [hzero]
    · next hpos => simp [hpos]

/-- From `q` to `q'` nothing happens to the tops: seeds may change apart from their
traces and counts, and seeds without either may be added. -/
structure Frame (q q' : SeedQueue) : Prop where
  queueTop : q'.queueTop = q.queueTop
  length : q.queue.length ≤ q'.queue.length
  seeds : ∀ (t : Nat) (s' : Seed), q'.queue[t]? = some s' →
    (∃ s, q.queue[t]? = some s ∧ s'.trace = s.trace ∧ s'.topCount = s.topCount) ∨
    (q.queue.length ≤ t ∧ s'.trace = none ∧ s'.topCount = 0)

theorem frame_modify (q : SeedQueue) {f : Seed → Seed}
    (hf : ∀ s, (f s).trace = s.trace ∧ (f s).topCount = s.topCount) (k : Nat) :
    Frame q { q with queue := q.queue.modify k f } := by
  refine { queueTop := rfl, length := (List.length_modify ..).ge, seeds := fun t s' hs' => .inl ?_ }
  obtain ⟨s, hs, rfl⟩ := getElem?_modify_eq_some.mp hs'
  refine ⟨s, hs, ?_⟩
  split
  · exact hf s
  · exact ⟨rfl, rfl⟩

theorem frame_append (q : SeedQueue) {s : Seed} (htrace : s.trace = none)
    (hcount : s.topCount = 0) : Frame q { q with queue := q.queue ++ [s] } := by
  refine { queueTop := rfl, length := by simp, seeds := fun t s' hs' => ?_ }
  by_cases ht : t < q.queue.length
  · exact .inl ⟨s', by rwa [List.getElem?_append_left ht] at hs', rfl, rfl⟩
  · obtain rfl : s' = s := by
      have hmem := List.mem_of_getElem? ((List.getElem?_append_right (not_lt.mp ht)).symm.trans hs')
      exact List.mem_singleton.mp hmem
    exact .inr ⟨not_lt.mp ht, htrace, hcount⟩

theorem Counted.frame {q q' : SeedQueue} (h : Counted q) (hframe : Frame q q') : Counted q' := by
  refine { top := fun i t hi => ?_, count := fun t s' hs' => ?_, trace := fun t s' hs' => ?_ }
  · rw [hframe.queueTop] at hi
    exact (h.top i t hi).trans_le hframe.length
  · rw [hframe.queueTop]
    rcases hframe.seeds t s' hs' with ⟨s, hs, -, hcount⟩ | ⟨hnew, -, hcount⟩
    · rw [hcount]
      exact h.count t s hs
    · -- a seed that was added is top of no index
      have hnone : topIndices q.queueTop t = ∅ := by
        refine Finset.filter_eq_empty_iff.mpr fun i _ hi => ?_
        exact absurd (h.top i t hi) (not_lt.mpr hnew)
      rw [hcount, hnone]
      rfl
  · rcases hframe.seeds t s' hs' with ⟨s, hs, htrace, hcount⟩ | ⟨-, htrace, hcount⟩
    · rw [htrace, hcount]
      exact h.trace t s hs
    · simp [htrace, hcount]

theorem TopInv.frame {traceOf : Nat → CovMap} {q q' : SeedQueue} (h : TopInv traceOf q)
    (hframe : Frame q q') : TopInv traceOf q' := by
  have hcounted := h.counted.frame hframe
  refine { top := fun i t hi => ⟨hcounted.top i t hi, ?_⟩, count := hcounted.count,
           trace := fun t s' hs' => ?_ }
  · rw [hframe.queueTop] at hi
    exact (h.top i t hi).2
  · rcases hframe.seeds t s' hs' with ⟨s, hs, htrace, hcount⟩ | ⟨-, htrace, hcount⟩
    · rw [htrace, hcount]
      exact h.trace t s hs
    · rw [htrace, if_pos hcount]

/-- The top of an index gives it up. -/
theorem TopInv.vacate {traceOf : Nat → CovMap} {q : SeedQueue} (h : TopInv traceOf q)
    {i : Fin mapSize} {t : Nat} (hi : q.queueTop i = some t) :
    TopInv traceOf
      { q.release t with queueTop := Function.update q.queueTop i none } := by
  have hcounted := h.counted.vacate hi
  refine { top := fun k t' hk => ⟨hcounted.top k t' hk, ?_⟩, count := hcounted.count,
           trace := fun t' s hs => ?_ }
  · by_cases hki : k = i
    · subst hki
      simp at hk
    · exact (h.top k t' (by simpa [hki] using hk)).2
  · obtain ⟨s₀, hs₀, rfl⟩ := getElem?_modify_eq_some.mp hs
    have htrace := h.trace t' s₀ hs₀
    by_cases ht : t' = t
    · subst ht
      rw [if_neg (h.counted.topCount_ne_zero hi hs₀)] at htrace
      rw [if_pos rfl, Seed.release, htrace]
    · rw [if_neg ht]
      exact htrace

/-- A seed that hits an index without a top becomes its top. -/
theorem TopInv.take {traceOf : Nat → CovMap} {q : SeedQueue} (h : TopInv traceOf q)
    {i : Fin mapSize} {s : Nat} (hs : s < q.queue.length) (hhit : traceOf s i ≠ 0)
    (hi : q.queueTop i = none) : TopInv traceOf (q.take s (traceOf s) i) := by
  have hcounted := h.counted.take hs hi (traceOf s)
  refine { top := fun k t hk => ⟨hcounted.top k t hk, ?_⟩, count := hcounted.count,
           trace := fun t x hx => ?_ }
  · by_cases hki : k = i
    · subst hki
      obtain rfl : s = t := by simpa [SeedQueue.take] using hk
      exact hhit
    · exact (h.top k t (by simpa [SeedQueue.take, hki] using hk)).2
  · obtain ⟨x₀, hx₀, rfl⟩ := getElem?_modify_eq_some.mp hx
    have htrace := h.trace t x₀ hx₀
    by_cases hts : t = s
    · subst hts
      have hpos : x₀.topCount + 1 ≠ 0 := by
        intro hzero
        have hsucc := h.counted.topCount_succ hi hx₀
        rw [hzero, UInt32.toNat_zero] at hsucc
        omega
      -- a trace that is there already is the one that would be made now
      rw [if_pos rfl]
      show some (x₀.trace.getD (minimizeBit (traceOf t))) = if x₀.topCount + 1 = 0 then _ else _
      rw [if_neg hpos, htrace]
      split <;> rfl
    · rw [if_neg hts]
      exact htrace

/-- The two things a turn of the loop can do: nothing, if the index is not hit or has
a top with a lower score, or seed `s` becomes the top of the index. -/
theorem topStep_cases (s : Nat) (score : UInt64) (tr : CovMap) (q : SeedQueue)
    (i : Fin mapSize) :
    (topStep s score tr q i = q ∧
      (tr i ≠ 0 → ∃ t, q.queueTop i = some t ∧ q.scoreAt t < score)) ∨
    (tr i ≠ 0 ∧ (∀ t, q.queueTop i = some t → score ≤ q.scoreAt t) ∧
      ∃ seeds, seeds.map Seed.untopped = q.queue.map Seed.untopped ∧
        topStep s score tr q i =
          { q with queue := seeds, queueTop := Function.update q.queueTop i (some s),
                   scoreChange := true }) := by
  have hrelease : ∀ x : Seed, x.release.untopped = x.untopped := fun x => rfl
  have htake : ∀ x : Seed, (x.take tr).untopped = x.untopped := fun x => rfl
  rw [topStep]
  by_cases hhit : tr i = 0
  · exact .inl ⟨if_pos hhit, fun h => absurd hhit h⟩
  · rw [if_neg hhit]
    cases hi : q.queueTop i with
    | none =>
      exact .inr ⟨hhit, fun t ht => absurd ht (by simp), _, map_modify_of_eq htake, rfl⟩
    | some t =>
      by_cases hscore : q.scoreAt t < score
      · exact .inl ⟨if_pos hscore, fun _ => ⟨t, rfl, hscore⟩⟩
      · refine .inr ⟨hhit, ?_, _, ?_, if_neg hscore⟩
        · rintro t' ⟨⟩
          exact UInt64.not_lt.mp hscore
        · exact (map_modify_of_eq htake).trans (map_modify_of_eq hrelease)

theorem topStep_length (s : Nat) (score : UInt64) (tr : CovMap) (q : SeedQueue)
    (i : Fin mapSize) : (topStep s score tr q i).queue.length = q.queue.length := by
  rcases topStep_cases s score tr q i with ⟨heq, -⟩ | ⟨-, -, seeds, hseeds, heq⟩
  · rw [heq]
  · rw [heq]
    simpa using congrArg List.length hseeds

section Turn

variable {s : Nat} {tr : CovMap} (Inv : SeedQueue → Prop)
  (hvacate : ∀ q i t, Inv q → q.queueTop i = some t →
    Inv { q.release t with queueTop := Function.update q.queueTop i none })
  (htake : ∀ q i, Inv q → s < q.queue.length → tr i ≠ 0 → q.queueTop i = none →
    Inv (q.take s tr i))
include hvacate htake

/-- The rule of one turn of the loop of `UpdateQueueTop`: a turn keeps what is kept
when the top of an index gives it up, and when the seed becomes the top of an index
that it hits and that has none. -/
theorem topStep_keeps {q : SeedQueue} (h : Inv q) (hs : s < q.queue.length) (score : UInt64)
    (i : Fin mapSize) : Inv (topStep s score tr q i) := by
  rw [topStep]
  by_cases hhit : tr i = 0
  · rw [if_pos hhit]
    exact h
  · rw [if_neg hhit]
    cases hi : q.queueTop i with
    | none => exact htake q i h hs hhit hi
    | some t =>
      dsimp only
      split
      · exact h
      · -- the old top gives the index up, then the seed takes it
        have hvac := htake _ i (hvacate q i t h hi) (by simpa [release] using hs) hhit (by simp)
        simpa [SeedQueue.take, release] using hvac

/-- The rule of the first `k` turns. -/
theorem topTurns_keeps {q : SeedQueue} (h : Inv q) (hs : s < q.queue.length) {k : Nat}
    (hk : k ≤ mapSize) : Inv (q.topTurns s tr k) := by
  have hloop : Inv (q.topTurns s tr k) ∧ s < (q.topTurns s tr k).queue.length := by
    refine foldl_finRange_take_inv hk (fun _ q' => Inv q' ∧ s < q'.queue.length) ⟨h, hs⟩ ?_
    rintro i q' ⟨h', hs'⟩
    refine ⟨topStep_keeps Inv hvacate htake h' hs' _ i, ?_⟩
    rwa [topStep_length]
  exact hloop.1

end Turn

/-- What the loop of `UpdateQueueTop` has done to `q` before turn `k`: an index has a top if it
had one or was hit below `k`, and a top that is new is the new seed. -/
structure UpdateInv (q : SeedQueue) (s : Nat) (tr : CovMap) (k : Nat) (q' : SeedQueue) :
    Prop where
  seeds : q'.queue.map Seed.untopped = q.queue.map Seed.untopped
  pendFavor : q'.pendFavor = q.pendFavor
  owner : ∀ i t, q'.queueTop i = some t → t = s ∨ q.queueTop i = some t
  tops : ∀ i, (q'.queueTop i).isSome ↔ (q.queueTop i).isSome ∨ (i.val < k ∧ tr i ≠ 0)
  flagged : (∀ i, (q.queueTop i).isSome → q.scoreChange = true) →
    ∀ i, (q'.queueTop i).isSome → q'.scoreChange = true

theorem updateInv_step {q q' : SeedQueue} {s : Nat} {tr : CovMap} (score : UInt64)
    (i : Fin mapSize) (h : UpdateInv q s tr i.val q') :
    UpdateInv q s tr (i.val + 1) (topStep s score tr q' i) := by
  have hlt : ∀ {k : Fin mapSize}, k ≠ i → (k.val < i.val + 1 ↔ k.val < i.val) := by
    intro k hk
    have := Fin.val_ne_of_ne hk
    omega
  rcases topStep_cases s score tr q' i with ⟨hsame, hbeaten⟩ | ⟨hhit, -, seeds, hseeds, hnew⟩
  · rw [hsame]
    refine { h with tops := fun k => ?_ }
    by_cases hk : k = i
    · subst hk
      have := h.tops k
      simp only [lt_self_iff_false, false_and, or_false] at this
      rw [this]
      refine ⟨.inl, fun hor => hor.elim id fun hand => this.mp ?_⟩
      obtain ⟨t, ht, -⟩ := hbeaten hand.2
      rw [ht]
      rfl
    · rw [h.tops k, hlt hk]
  · rw [hnew]
    refine { seeds := hseeds.trans h.seeds, pendFavor := h.pendFavor, owner := fun k t hk => ?_,
             tops := fun k => ?_, flagged := fun _ _ _ => rfl }
    · by_cases hki : k = i
      · subst hki
        exact .inl (by simpa using hk.symm)
      · exact h.owner k t (by simpa [hki] using hk)
    · by_cases hk : k = i
      · subst hk
        simp [hhit]
      · rw [hlt hk, ← h.tops k]
        simp [hk]

theorem topTurns_spec (q : SeedQueue) (s : Nat) (tr : CovMap) {k : Nat} (hk : k ≤ mapSize) :
    UpdateInv q s tr k (q.topTurns s tr k) := by
  refine foldl_finRange_take_inv hk (UpdateInv q s tr) ?_ fun i q' h => updateInv_step _ i h
  exact { seeds := rfl, pendFavor := rfl, owner := fun i t h => .inr h,
          tops := fun i => by simp, flagged := fun h => h }

/-- `UpdateQueueTop` gives every index the trace hits a top and touches nothing
of the seeds but their traces and counts. -/
theorem updateQueueTop_spec (q : SeedQueue) (s : Nat) (tr : CovMap) :
    UpdateInv q s tr mapSize (q.updateQueueTop s tr) := by
  rw [← topTurns_all]
  exact topTurns_spec q s tr (Nat.le_refl mapSize)

/-- `UpdateQueueTop` keeps the tops in order. -/
theorem topInv_updateQueueTop {traceOf : Nat → CovMap} {q : SeedQueue} (h : TopInv traceOf q)
    {s : Nat} (hs : s < q.queue.length) : TopInv traceOf (q.updateQueueTop s (traceOf s)) := by
  rw [← topTurns_all]
  refine topTurns_keeps (TopInv traceOf) ?_ ?_ h hs (Nat.le_refl mapSize)
  · intro q' i t h' hi
    exact h'.vacate hi
  · intro q' i h' hs' hhit hi
    exact h'.take hs' hhit hi

/-- A call of `UpdateQueueTop` keeps the counts right after every turn, whatever the
trace. -/
theorem Counted.topTurns {q : SeedQueue} (h : Counted q) {s : Nat} (hs : s < q.queue.length)
    (tr : CovMap) {k : Nat} (hk : k ≤ mapSize) : Counted (q.topTurns s tr k) := by
  refine topTurns_keeps Counted ?_ ?_ h hs hk
  · intro q' i t h' hi
    exact h'.vacate hi
  · intro q' i h' hs' _ hi
    exact h'.take hs' hi tr

/-! ## Culling -/

theorem cullQueue_of_unchanged {q : SeedQueue} (h : q.scoreChange = false) : q.cullQueue = q :=
  if_pos h

/-- What the loop of `CullQueue` has established before turn `k`: the favored
seeds are those chosen so far, `traceRecord` holds what they hit, and that
includes every earlier index with a top. -/
structure CullInv (q : SeedQueue) (k : Nat) (st : SeedQueue × TraceBits) : Prop where
  seeds : st.1.queue.map Seed.unfavored = q.queue.map Seed.unfavored
  queueTop : st.1.queueTop = q.queueTop
  scoreChange : st.1.scoreChange = false
  pendFavor : st.1.pendFavor = true ↔
    ∃ s ∈ st.1.queue, s.favored = true ∧ s.wasFuzzed = false
  record : ∀ i, st.2 i = true → ∃ s ∈ st.1.queue, s.favored = true ∧ s.Hits i
  covered : (∀ i t, q.queueTop i = some t → ∃ s, q.queue[t]? = some s ∧ s.Hits i) →
    ∀ i : Fin mapSize, i.val < k → (q.queueTop i).isSome → st.2 i = true

/-- Favored seeds with a property that does not depend on the mark, after seed
`t` got the mark. -/
theorem exists_favored_modify {l : List Seed} {t : Nat} {P : Seed → Prop}
    (hP : ∀ s, P s.favor ↔ P s) :
    (∃ s ∈ l.modify t Seed.favor, s.favored = true ∧ P s) ↔
      (∃ s ∈ l, s.favored = true ∧ P s) ∨ ∃ s, l[t]? = some s ∧ P s := by
  constructor
  · rintro ⟨s, hs, hfav, hp⟩
    rcases mem_modify_iff.mp hs with ⟨b, hb, rfl⟩ | ⟨k, -, hk⟩
    · exact .inr ⟨b, hb, (hP b).mp hp⟩
    · exact .inl ⟨s, List.mem_of_getElem? hk, hfav, hp⟩
  · rintro (⟨s, hs, hfav, hp⟩ | ⟨s, hs, hp⟩)
    · obtain ⟨k, hk⟩ := List.mem_iff_getElem?.mp hs
      by_cases hkt : k = t
      · subst hkt
        exact ⟨_, mem_modify_iff.mpr (.inl ⟨s, hk, rfl⟩), rfl, (hP s).mpr hp⟩
      · exact ⟨s, mem_modify_iff.mpr (.inr ⟨k, hkt, hk⟩), hfav, hp⟩
    · exact ⟨_, mem_modify_iff.mpr (.inl ⟨s, hs, rfl⟩), rfl, (hP s).mpr hp⟩

/-- What marking seed `t` leaves recorded: the indices there were and those it hits. -/
theorem record_or_iff (queue : List Seed) (record : TraceBits) (t : Nat) (k : Fin mapSize) :
    (record k || ((queue[t]?.bind Seed.trace).any fun tr => tr k)) = true
      ↔ record k = true ∨ ∃ s, queue[t]? = some s ∧ s.Hits k := by
  rw [Bool.or_eq_true, Option.any_eq_true]
  refine or_congr_right ⟨?_, ?_⟩
  · rintro ⟨tr, htr, hk⟩
    obtain ⟨s, hs, hst⟩ := Option.bind_eq_some_iff.mp htr
    exact ⟨s, hs, tr, hst, hk⟩
  · rintro ⟨s, hs, tr, htr, hk⟩
    exact ⟨tr, Option.bind_eq_some_iff.mpr ⟨s, hs, htr⟩, hk⟩

/-- The two things a turn of the loop can do: nothing, if the index has no top or is
recorded, or its top is marked and what that hits is recorded. -/
theorem cullStep_cases (st : SeedQueue × TraceBits) (i : Fin mapSize) :
    (cullStep st i = st ∧ ((st.1.queueTop i).isSome = true → st.2 i = true)) ∨
    ∃ t, st.1.queueTop i = some t ∧ st.2 i = false ∧
      cullStep st i =
        ({ st.1 with
           queue := st.1.queue.modify t Seed.favor
           pendFavor := st.1.pendFavor || st.1.queue[t]?.any fun s => !s.wasFuzzed },
         fun k => st.2 k || ((st.1.queue[t]?.bind Seed.trace).any fun tr => tr k)) := by
  rw [cullStep]
  cases hi : st.1.queueTop i with
  | none => exact .inl ⟨rfl, fun hsome => absurd hsome (by simp)⟩
  | some t =>
    by_cases hrec : st.2 i = true
    · exact .inl ⟨if_pos hrec, fun _ => hrec⟩
    · exact .inr ⟨t, rfl, Bool.eq_false_of_not_eq_true hrec, if_neg hrec⟩

theorem cullInv_step {q : SeedQueue} {st : SeedQueue × TraceBits} (i : Fin mapSize)
    (h : CullInv q i.val st) : CullInv q (i.val + 1) (cullStep st i) := by
  rcases cullStep_cases st i with ⟨hsame, hcovered⟩ | ⟨t, hi, -, hmark⟩
  · -- a turn that does nothing has found index `i` covered already
    rw [hsame]
    refine { h with covered := fun hq k hk hsome => ?_ }
    by_cases hki : k = i
    · subst hki
      exact hcovered (by rwa [h.queueTop])
    · have := Fin.val_ne_of_ne hki
      exact h.covered hq k (by omega) hsome
  · rw [hmark]
    have hrecord := record_or_iff st.1.queue st.2 t
    refine { seeds := ?_, queueTop := h.queueTop, scoreChange := h.scoreChange,
             pendFavor := ?_, record := fun k hk => ?_, covered := fun hq k hk hsome => ?_ }
    · exact (map_modify_of_eq (f := Seed.favor) fun _ => rfl).trans h.seeds
    · rw [exists_favored_modify (P := fun s => s.wasFuzzed = false) fun _ => Iff.rfl,
        ← h.pendFavor, Bool.or_eq_true, Option.any_eq_true]
      simp
    · rw [exists_favored_modify (P := fun s => s.Hits k) fun _ => Iff.rfl]
      exact ((hrecord k).mp hk).imp_left (h.record k)
    · refine (hrecord k).mpr ?_
      by_cases hki : k = i
      · -- the seed just marked is the top of index `i`, so it hits it
        subst hki
        rw [h.queueTop] at hi
        obtain ⟨s', hs', tr, htr, htrk⟩ := hq k t hi
        obtain ⟨s, hs, heq⟩ := getElem?_of_map_eq h.seeds.symm hs'
        obtain ⟨-, htrace, -⟩ := Seed.fields_of_unfavored_eq heq
        exact .inr ⟨s, hs, tr, htrace.trans htr, htrk⟩
      · have := Fin.val_ne_of_ne hki
        exact .inl (h.covered hq k (by omega) hsome)

theorem cullQueue_of_changed {q : SeedQueue} (h : q.scoreChange = true) :
    q.cullQueue = q.cullLoop.1 := if_neg (by simp [h])

theorem cullLoop_spec (q : SeedQueue) : CullInv q mapSize q.cullLoop := by
  refine foldl_finRange_inv (CullInv q) ?_ fun i st h => cullInv_step i h
  exact
    { seeds := by simp [cullInit, Seed.unfavored, Function.comp_def]
      queueTop := rfl
      scoreChange := rfl
      pendFavor := by simp [cullInit, Seed.unfavored]
      record := fun i hi => (nomatch hi)
      covered := fun _ i hi => (nomatch hi) }

/-- No cull changes more of a seed than its mark. -/
theorem cullQueue_seeds (q : SeedQueue) :
    q.cullQueue.queue.map Seed.unfavored = q.queue.map Seed.unfavored := by
  cases hchange : q.scoreChange with
  | false => rw [cullQueue_of_unchanged hchange]
  | true =>
    rw [cullQueue_of_changed hchange]
    exact (cullLoop_spec q).seeds

/-- No cull changes the tops. -/
theorem cullQueue_queueTop (q : SeedQueue) : q.cullQueue.queueTop = q.queueTop := by
  cases hchange : q.scoreChange with
  | false => rw [cullQueue_of_unchanged hchange]
  | true =>
    rw [cullQueue_of_changed hchange]
    exact (cullLoop_spec q).queueTop

theorem frame_cullQueue (q : SeedQueue) : Frame q q.cullQueue := by
  have hlen := congrArg List.length q.cullQueue_seeds
  simp only [List.length_map] at hlen
  refine { queueTop := q.cullQueue_queueTop, length := hlen.ge, seeds := fun t s' hs' => .inl ?_ }
  obtain ⟨s, hs, heq⟩ := getElem?_of_map_eq q.cullQueue_seeds hs'
  exact ⟨s, hs, (congrArg Seed.trace heq).symm, (congrArg Seed.topCount heq).symm⟩

/-- A cull leaves `scoreChange` unset. -/
theorem cullQueue_scoreChange (q : SeedQueue) : q.cullQueue.scoreChange = false := by
  cases hchange : q.scoreChange with
  | false => rw [cullQueue_of_unchanged hchange, hchange]
  | true =>
    rw [cullQueue_of_changed hchange]
    exact (cullLoop_spec q).scoreChange

/-- A cull that is not skipped sets `pendFavor` exactly when a favored seed was
not fuzzed yet. -/
theorem cullQueue_pendFavor {q : SeedQueue} (hchange : q.scoreChange = true) :
    q.cullQueue.pendFavor = true ↔
      ∃ s ∈ q.cullQueue.queue, s.favored = true ∧ s.wasFuzzed = false := by
  rw [cullQueue_of_changed hchange]
  exact (cullLoop_spec q).pendFavor

/-- A seed that is top of an index has its trace, and hits the index. -/
theorem TopInv.hits {traceOf : Nat → CovMap} {q : SeedQueue} (h : TopInv traceOf q)
    {i : Fin mapSize} {t : Nat} (hi : q.queueTop i = some t) :
    ∃ s, q.queue[t]? = some s ∧ s.Hits i := by
  obtain ⟨hlen, hhit⟩ := h.top i t hi
  have hget : q.queue[t]? = some q.queue[t] := List.getElem?_eq_getElem hlen
  refine ⟨_, hget, minimizeBit (traceOf t), ?_, ?_⟩
  · rw [h.trace t _ hget, if_neg (h.counted.topCount_ne_zero hi hget)]
  · simpa [minimizeBit] using hhit

/-- A cull that is not skipped covers every index that has a top. -/
theorem cullQueue_covers {q : SeedQueue} {traceOf : Nat → CovMap} (h : TopInv traceOf q)
    (hchange : q.scoreChange = true) {i : Fin mapSize} (hi : (q.queueTop i).isSome) :
    ∃ s ∈ q.cullQueue.queue, s.favored = true ∧ s.Hits i := by
  have hinv := cullLoop_spec q
  rw [cullQueue_of_changed hchange]
  exact hinv.record i (hinv.covered (fun _ _ hk => h.hits hk) i i.isLt hi)

end SeedQueue

end DistFuzz.Fuzzer
