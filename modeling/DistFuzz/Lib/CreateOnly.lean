import Mathlib.Data.List.Nodup
import Mathlib.Logic.Function.Basic

/-!
# Stores that are only written once

A store from names to contents in which a name can be created and not be overwritten, as
with `O_CREAT | O_EXCL`. Creating a list of entries fails at the first name that is there
already.

- `create`, `createAll`: the operations.
- `createAll_eq_filled`: a list of names that are new and differ is created, and then
  the store is `filled` with it.
- `filled_of_mem`, `filled_of_notMem`: what is found there.
-/

namespace DistFuzz.Lib

variable {κ ν : Type*} [DecidableEq κ]

/-- One entry, unless the name exists. -/
def create (d : κ → Option ν) (e : κ × ν) : Option (κ → Option ν) :=
  if (d e.1).isSome then none else some (Function.update d e.1 (some e.2))

/-- One entry after the other. -/
def createAll (d : κ → Option ν) (es : List (κ × ν)) : Option (κ → Option ν) :=
  es.foldlM create d

/-- The store with these entries in it. -/
def filled (d : κ → Option ν) (es : List (κ × ν)) : κ → Option ν :=
  es.foldl (fun d e => Function.update d e.1 (some e.2)) d

theorem filled_cons (d : κ → Option ν) (e : κ × ν) (es : List (κ × ν)) :
    filled d (e :: es) = filled (Function.update d e.1 (some e.2)) es := rfl

theorem filled_of_notMem (d : κ → Option ν) {es : List (κ × ν)} {k : κ}
    (hk : k ∉ es.map Prod.fst) : filled d es k = d k := by
  induction es generalizing d with
  | nil => rfl
  | cons e es ih =>
    rw [List.map_cons, List.mem_cons, not_or] at hk
    rw [filled_cons, ih _ hk.2, Function.update_of_ne hk.1]

theorem filled_of_mem (d : κ → Option ν) {es : List (κ × ν)} (hnodup : (es.map Prod.fst).Nodup)
    {e : κ × ν} (he : e ∈ es) : filled d es e.1 = some e.2 := by
  induction es generalizing d with
  | nil => exact absurd he List.not_mem_nil
  | cons e' es ih =>
    rw [List.map_cons, List.nodup_cons] at hnodup
    rw [filled_cons]
    rcases List.mem_cons.mp he with rfl | he
    · rw [filled_of_notMem _ hnodup.1, Function.update_self]
    · exact ih _ hnodup.2 he

theorem createAll_cons (d : κ → Option ν) (e : κ × ν) (es : List (κ × ν)) :
    createAll d (e :: es) = (create d e).bind fun d => createAll d es := rfl

/-- A list of new names is created as a whole. -/
theorem createAll_eq_filled {d : κ → Option ν} {es : List (κ × ν)}
    (hnodup : (es.map Prod.fst).Nodup) (hnew : ∀ e ∈ es, d e.1 = none) :
    createAll d es = some (filled d es) := by
  induction es generalizing d with
  | nil => rfl
  | cons e es ih =>
    rw [List.map_cons, List.nodup_cons] at hnodup
    have hcreate : create d e = some (Function.update d e.1 (some e.2)) := by
      rw [create, hnew e List.mem_cons_self]
      rfl
    rw [createAll_cons, hcreate, Option.bind_some, filled_cons]
    refine ih hnodup.2 fun e' he' => ?_
    have hne : e'.1 ≠ e.1 := fun heq => hnodup.1 (heq ▸ List.mem_map_of_mem he')
    rw [Function.update_of_ne hne]
    exact hnew e' (List.mem_cons_of_mem _ he')

end DistFuzz.Lib
