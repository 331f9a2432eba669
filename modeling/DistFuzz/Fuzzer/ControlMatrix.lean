import DistFuzz.Lib.Runs
import DistFuzz.Fuzzer.Stages

/-!
# Concurrency fuzzing (DelayInsertionEngin.cpp)

A control matrix holds pairs of program points that the target is to run one after the
other; after an execution the target reports the pairs that did (the travel matrix) and
those that came close (the adjacency matrix). `control_matrix_mutate` executes a control
matrix, collects its elements that the target travelled, and tries the neighbours of
these and of all the travelled ones, one at a time. Only a build without
`NO_CONCURRENCY_FUZZ` has it.

- `compareMatrixElement`, `isControlMatrixTriggered`, `hasNewTravelMatrixElement`: the scans
  of the matrices. `reached` are the control elements that a scan gets to: it ends where a
  hash of the travel matrix and one of the control matrix are zero.
- `collectEnabled`, `oneElementCmTest`, `mutateBasedOnAdjacency`, `controlMatrixMutate`.
- `matching`: what is stored, one element for each travel element that it matches.
- `enabled_fit_iff`: when the stores stay within the array and miss no element.
-/

namespace DistFuzz.Fuzzer

open DistFuzz.Lib

/-! ## Matrices -/

/-- `CONTROL_MATRIX_SIZE`. -/
def controlMatrixSize : Nat := 2 ^ 10

/-- `ADJACENCY_MATRIX_SIZE`. -/
def adjacencyMatrixSize : Nat := 2 ^ 16

/-- `TRAVEL_MATRIX_SIZE`. -/
def travelMatrixSize : Nat := 2 ^ 24

/-- `matrix_element`. -/
structure MatrixElement where
  hash1 : UInt64
  hash2 : UInt64
deriving DecidableEq, Repr

/-- What fills a matrix after `memset`, and ends the part of it that is used. -/
def MatrixElement.zero : MatrixElement := ⟨0, 0⟩

/-- `matrix[i].hash_1 == 0 && matrix[i].hash_2 == 0`. -/
def MatrixElement.isEnd (e : MatrixElement) : Bool := e.hash1 == 0 && e.hash2 == 0

/-- An array of `n` elements. -/
structure Elements (n : Nat) where
  elements : List MatrixElement
  length_eq : elements.length = n

namespace Elements

variable {n : Nat}

/-- Zeros, with these elements stored at the front. -/
def ofFront (front : List MatrixElement) (h : front.length ≤ n) : Elements n where
  elements := front ++ List.replicate (n - front.length) .zero
  length_eq := by
    rw [List.length_append, List.length_replicate]
    omega

/-- `memset(matrix, 0, …)`. -/
def zeros : Elements n := ofFront [] (Nat.zero_le n)

/-- `matrix[i] = e`. -/
def store (m : Elements n) (i : Nat) (e : MatrixElement) : Option (Elements n) :=
  if i < n then some ⟨m.elements.set i e, by rw [List.length_set, m.length_eq]⟩ else none

/-- The elements that a loop with `if (matrix[i].hash_1 == 0 && matrix[i].hash_2 == 0) break;`
at its head gets to. -/
def used (m : Elements n) : List MatrixElement := m.elements.takeWhile fun e => !e.isEnd

end Elements

abbrev ControlMatrix := Elements controlMatrixSize

abbrev AdjacencyMatrix := Elements adjacencyMatrixSize

abbrev TravelMatrix := Elements travelMatrixSize

/-! ## Scans -/

/-- `compare_matrix_element`. -/
def compareMatrixElement (me1 me2 : MatrixElement) : Bool :=
  if me1.hash1 = me2.hash1 ∧ me1.hash2 = me2.hash2 then true
  else if me1.hash1 = me2.hash2 ∧ me1.hash2 = me2.hash1 then true
  else false

/-- The control elements that the outer loop of a scan gets to. The test that ends it is
`tmp_travel_matrix[i].hash_1 == 0 && tmp_control_matrix[i].hash_2 == 0`. -/
def reached (control : ControlMatrix) (travel : TravelMatrix) : List MatrixElement :=
  ((travel.elements.zip control.elements).takeWhile
    fun tc => !(tc.1.hash1 == 0 && tc.2.hash2 == 0)).map Prod.snd

/-- `is_control_matrix_triggered`. -/
def isControlMatrixTriggered (control : ControlMatrix) (travel : TravelMatrix) : Bool :=
  (reached control travel).any fun c => travel.used.any fun t => compareMatrixElement c t

/-- The loop of `hashes2hash`. -/
def hashes2hashLoop (hashSum newHash : UInt64) : UInt64 :=
  if hashSum ≠ 0 then hashes2hashLoop (hashSum >>> 4) (131 * newHash + (hashSum ^^^ 15))
  else newHash
termination_by hashSum.toNat
decreasing_by
  have hpos : hashSum.toNat ≠ 0 := fun h => by
    rename_i hne
    exact hne (UInt64.toNat_inj.mp h)
  have hshift : (hashSum >>> 4).toNat = hashSum.toNat / 2 ^ 4 := by
    rw [UInt64.toNat_shiftRight, Nat.shiftRight_eq_div_pow]
    rfl
  omega

/-- `hashes2hash`. -/
def hashes2hash (hash1 hash2 : UInt64) : UInt64 := hashes2hashLoop (hash1 + hash2) 0

/-- `has_new_travel_matrix_element`: the flag, and `tmp_total_travel` after it. -/
def hasNewTravelMatrixElement (travel : TravelMatrix) (totalTravel : Finset UInt64) :
    Bool × Finset UInt64 :=
  travel.used.foldl (fun (flag, total) e =>
    let hash := hashes2hash e.hash1 e.hash2
    if hash ∉ total then (true, insert hash total) else (flag, total)) (false, totalTravel)

/-! ## The stage -/

/-- What the target writes to the shared matrices during an execution. -/
structure Report where
  adjacency : AdjacencyMatrix
  travel : TravelMatrix

/-- The globals of the stage. `tested` are the control matrices that were executed;
`enableNum` is the counter of `control_matrix_mutate`. -/
structure DelayState where
  adjacencyMatrix : AdjacencyMatrix
  travelMatrix : TravelMatrix
  totalTravel : Finset UInt64
  unreachableControlMatrix : Finset UInt64
  enableControlMatrix : ControlMatrix
  enableNum : Nat
  newControlMatrix : ControlMatrix
  tested : List ControlMatrix

/-- The part of `enable_control_matrix` that was stored to. -/
def DelayState.enabled (s : DelayState) : List MatrixElement :=
  s.enableControlMatrix.elements.take s.enableNum

section Stage

-- what the target reports may depend on all that was executed before
variable (target : List ControlMatrix → ControlMatrix → Report)

/-- `FuzzUnit` with a control matrix, as far as the stage sees it. It always returns 0. -/
def DelayState.fuzzUnit (s : DelayState) (cm : ControlMatrix) : DelayState :=
  let report := target s.tested cm
  { s with
    adjacencyMatrix := report.adjacency
    travelMatrix := report.travel
    totalTravel := (hasNewTravelMatrixElement report.travel s.totalTravel).2
    tested := s.tested ++ [cm] }

/-- `one_element_cm_test`. -/
def oneElementCmTest (hash1 hash2 : UInt64) (s : DelayState) : DelayState :=
  let hashTotal := hashes2hash hash1 hash2
  if hashTotal ∈ s.totalTravel then s
  else if hashTotal ∈ s.unreachableControlMatrix then s
  else
    let new := (s.newControlMatrix.store 0 ⟨hash1, hash2⟩).getD s.newControlMatrix
    let s := { s with newControlMatrix := new }.fuzzUnit target new
    if isControlMatrixTriggered new s.travelMatrix = false then
      { s with unreachableControlMatrix := insert hashTotal s.unreachableControlMatrix }
    else s

/-- The tests of `mutate_based_on_adjacency` for one element and one neighbour. -/
def testNeighbour (cm am : MatrixElement) (s : DelayState) : DelayState :=
  let s := if cm.hash1 = am.hash1 then oneElementCmTest target cm.hash2 am.hash2 s else s
  let s := if cm.hash1 = am.hash2 then oneElementCmTest target cm.hash2 am.hash1 s else s
  let s := if cm.hash2 = am.hash1 then oneElementCmTest target cm.hash1 am.hash2 s else s
  if cm.hash2 = am.hash2 then oneElementCmTest target cm.hash1 am.hash1 s else s

/-- `mutate_based_on_adjacency`. -/
def mutateBasedOnAdjacency (matrix : List MatrixElement) (tmpAm : AdjacencyMatrix)
    (s : DelayState) : DelayState :=
  (matrix.takeWhile fun e => !e.isEnd).foldl
    (fun s cm => tmpAm.used.foldl (fun s am => testNeighbour target cm am s) s) s

/-- `enable_control_matrix[enable_num] = …; enable_num++;` -/
def storeEnabled (c : MatrixElement) : Prog Halt DelayState Unit := update .fault fun s =>
  (s.enableControlMatrix.store s.enableNum c).map fun m =>
    { s with enableControlMatrix := m, enableNum := s.enableNum + 1 }

/-- The nested loops that collect the control elements which the target travelled. -/
def collectEnabled (control : ControlMatrix) (travel : TravelMatrix) :
    Prog Halt DelayState Unit :=
  forEach (reached control travel) () fun c _ =>
    forEach travel.used () fun t _ =>
      if compareMatrixElement c t then storeEnabled c else pure ()

/-- `control_matrix_mutate`. -/
def controlMatrixMutate (control : ControlMatrix) : Prog Halt DelayState Unit := do
  update .fault fun s => some { s.fuzzUnit target control with
    enableControlMatrix := .zeros
    enableNum := 0 }
  let tmpAdjacency ← access .fault fun s => some s.adjacencyMatrix
  let tmpTravel ← access .fault fun s => some s.travelMatrix
  collectEnabled control tmpTravel
  update .fault fun s =>
    let s := { s with newControlMatrix := .zeros }
    let s := if 0 < s.enableNum then mutateBasedOnAdjacency target s.enabled tmpAdjacency s else s
    some (mutateBasedOnAdjacency target tmpTravel.elements tmpAdjacency s)

end Stage

/-! ## What is stored -/

/-- What the loops store: a control element once for each travel element it matches. -/
def matching (control : ControlMatrix) (travel : TravelMatrix) : List MatrixElement :=
  (reached control travel).flatMap fun c =>
    (travel.used.filter fun t => compareMatrixElement c t).map fun _ => c

theorem collectEnabled_eq (control : ControlMatrix) (travel : TravelMatrix) :
    collectEnabled control travel
      = forEach (matching control travel) () fun c _ => storeEnabled c := by
  rw [matching, forEach_flatMap, collectEnabled]
  congr 1
  funext c u
  have hmap : forEach ((travel.used.filter fun t => compareMatrixElement c t).map fun _ => c) u
      (fun c _ => storeEnabled c)
      = forEach (travel.used.filter fun t => compareMatrixElement c t) u
        fun _ _ => storeEnabled c := List.foldlM_map
  rw [hmap, forEach_filter]

/-- `xs` were stored, and nothing else happened: they are the elements in front of the array, and
`enable_num` counts them. -/
structure Stored (s₀ : DelayState) (xs : List MatrixElement) (s : DelayState) : Prop where
  num : s.enableNum = xs.length
  fits : xs.length ≤ controlMatrixSize
  enabled : s.enabled = xs
  frame : s = { s₀ with enableControlMatrix := s.enableControlMatrix, enableNum := s.enableNum }

/-- A store is within the array as long as there were fewer than it has elements. -/
theorem storeEnabled_triple {s₀ : DelayState} {total xs : List MatrixElement} {c : MatrixElement}
    (htotal : xs.length < total.length) :
    Triple (Stored s₀ xs) (storeEnabled c) (fun _ => Stored s₀ (xs ++ [c]))
      fun e _ => e = .fault ∧ controlMatrixSize < total.length := by
  refine triple_update_or (fun s hs s' hstore => ?_) fun s hs hstore => ?_
  · rw [Option.map_eq_some_iff] at hstore
    obtain ⟨m, hm, rfl⟩ := hstore
    rw [Elements.store] at hm
    split at hm
    · next hlt =>
      obtain rfl := Option.some.inj hm
      have hnum := hs.num
      have hlen : s.enableNum < s.enableControlMatrix.elements.length := by
        rwa [s.enableControlMatrix.length_eq]
      refine ⟨by rw [List.length_append, ← hnum]; rfl, ?_, ?_, ?_⟩
      · rw [List.length_append, ← hnum]
        exact hlt
      -- the element that was stored is the last one of those in front
      · show (s.enableControlMatrix.elements.set s.enableNum c).take (s.enableNum + 1) = _
        rw [List.take_add_one, List.getElem?_set_self hlen, List.take_set_of_le (Nat.le_refl _),
          ← hs.enabled]
        rfl
      · rw [hs.frame]
    · cases hm
  · rw [Option.map_eq_none_iff, Elements.store] at hstore
    split at hstore
    · cases hstore
    · next hge =>
      have hnum := hs.num
      exact ⟨rfl, by omega⟩

theorem stores_triple {s₀ : DelayState} (hs₀ : s₀.enableNum = 0) (xs : List MatrixElement) :
    Triple (fun s => s = s₀) (forEach xs () fun c _ => storeEnabled c) (fun _ => Stored s₀ xs)
      fun e _ => e = .fault ∧ controlMatrixSize < xs.length := by
  -- what is stored before this turn is what the loop has passed
  have hturn : ∀ done c rest, xs = done ++ c :: rest → ∀ _ : Unit,
      Triple (Stored s₀ done) (storeEnabled c) (fun _ => Stored s₀ (done ++ [c]))
        fun e _ => e = .fault ∧ controlMatrixSize < xs.length := by
    rintro done c rest rfl -
    refine storeEnabled_triple ?_
    rw [List.length_append, List.length_cons]
    omega
  refine (triple_forEach (fun done _ => Stored s₀ done) hturn ()).mono ?_ (fun _ s hs => hs)
    fun e s he => he
  rintro s rfl
  exact ⟨hs₀, Nat.zero_le _, by rw [DelayState.enabled, hs₀]; rfl, rfl⟩

/-! ## The tests that follow -/

section Frame

variable (target : List ControlMatrix → ControlMatrix → Report)

/-- The tests leave what was collected as it is. -/
theorem oneElementCmTest_enabled (hash1 hash2 : UInt64) (s : DelayState) :
    (oneElementCmTest target hash1 hash2 s).enabled = s.enabled := by
  rw [oneElementCmTest]
  dsimp only
  split
  · rfl
  · split
    · rfl
    · split <;> rfl

theorem testNeighbour_enabled (cm am : MatrixElement) (s : DelayState) :
    (testNeighbour target cm am s).enabled = s.enabled := by
  have htest : ∀ (c : Prop) [Decidable c] (hash1 hash2 : UInt64) (s : DelayState),
      (if c then oneElementCmTest target hash1 hash2 s else s).enabled = s.enabled := by
    intro c _ hash1 hash2 s
    split
    · exact oneElementCmTest_enabled target hash1 hash2 s
    · rfl
  rw [testNeighbour, htest, htest, htest, htest]

theorem mutateBasedOnAdjacency_enabled (matrix : List MatrixElement) (tmpAm : AdjacencyMatrix)
    (s : DelayState) : (mutateBasedOnAdjacency target matrix tmpAm s).enabled = s.enabled := by
  refine run_inv' (fun s' : DelayState => s'.enabled = s.enabled) (fun s' cm hs' => ?_) rfl _
  refine run_inv' (fun s' : DelayState => s'.enabled = s.enabled) (fun s' am hs' => ?_) hs'
    tmpAm.used
  rw [testNeighbour_enabled, hs']

/-- **The whole stage**: it ends, with the matching elements collected, if there is room
for them, and otherwise stores past the end of the array. -/
theorem controlMatrixMutate_triple (control : ControlMatrix) (s₀ : DelayState) :
    Triple (fun s => s = s₀) (controlMatrixMutate target control)
      (fun _ s => s.enabled = matching control (target s₀.tested control).travel ∧
        (matching control (target s₀.tested control).travel).length ≤ controlMatrixSize)
      fun e _ => e = .fault ∧
        controlMatrixSize < (matching control (target s₀.tested control).travel).length := by
  generalize htravel : (target s₀.tested control).travel = travel
  -- the unit is run and the array is cleared before the first store
  have hexec : ∃ s₁ : DelayState, s₁.travelMatrix = travel ∧ s₁.enableNum = 0 ∧
      some { s₀.fuzzUnit target control with enableControlMatrix := .zeros, enableNum := 0 }
        = some s₁ := ⟨_, htravel, rfl, rfl⟩
  obtain ⟨s₁, hs₁, hnum, hstart⟩ := hexec
  refine (triple_update (R := fun _ s => s = s₁) fun s hs => ⟨s₁, hs ▸ hstart, rfl⟩).bind fun _ =>
    (triple_access (Q := fun _ s => s = s₁) fun s hs => ⟨_, rfl, hs⟩).bind fun tmpAdjacency =>
    (triple_access (Q := fun t s => t = travel ∧ s = s₁) fun s hs => ⟨_, rfl, hs ▸ hs₁, hs⟩).bind
      fun tmpTravel => Triple.given ?_
  rintro rfl
  rw [collectEnabled_eq]
  refine (stores_triple hnum _).bind fun _ => triple_update fun s hs => ⟨_, rfl, ?_, hs.fits⟩
  rw [mutateBasedOnAdjacency_enabled, ← hs.enabled]
  split
  · rw [mutateBasedOnAdjacency_enabled]
    rfl
  · rfl

end Frame

/-! ## The result -/

/-- Two elements are the same up to the order of their hashes. -/
def SamePair (a b : MatrixElement) : Prop := a = b ∨ a = ⟨b.hash2, b.hash1⟩

theorem compareMatrixElement_iff {a b : MatrixElement} :
    compareMatrixElement a b = true ↔ SamePair a b := by
  obtain ⟨a1, a2⟩ := a
  obtain ⟨b1, b2⟩ := b
  simp only [compareMatrixElement, SamePair, MatrixElement.mk.injEq]
  split
  · next h => exact iff_of_true rfl (.inl h)
  · next h => simp only [h, false_or, Bool.if_false_right, Bool.and_true, decide_eq_true_iff]

theorem mem_matching {control : ControlMatrix} {travel : TravelMatrix} {e : MatrixElement} :
    e ∈ matching control travel ↔ e ∈ reached control travel ∧ ∃ t ∈ travel.used, SamePair e t := by
  simp only [matching, List.mem_flatMap, List.mem_map, List.mem_filter, compareMatrixElement_iff]
  constructor
  · rintro ⟨c, hc, t, ht, rfl⟩
    exact ⟨hc, t, ht⟩
  · rintro ⟨he, t, ht⟩
    exact ⟨e, he, t, ht, rfl⟩

theorem reached_subset (control : ControlMatrix) (travel : TravelMatrix) :
    reached control travel ⊆ control.elements := by
  intro c hc
  obtain ⟨⟨t, c⟩, htc, rfl⟩ := List.mem_map.mp hc
  exact (List.of_mem_zip ((List.takeWhile_sublist _).subset htc)).2

/-- The stage collects exactly the control elements that were travelled. -/
def CollectsTravelled (target : List ControlMatrix → ControlMatrix → Report)
    (control : ControlMatrix) (s : DelayState) : Prop :=
  ∃ s', (controlMatrixMutate target control).exec s = (.ok (), s') ∧ ∀ e, e ∈ s'.enabled ↔
    e ∈ control.elements ∧ ∃ t ∈ (target s.tested control).travel.used, SamePair e t

/-- What is there has room, and is reached. The loop over the control matrix may end early, so an
element that was travelled need not be. -/
def FitsAndReached (control : ControlMatrix) (travel : TravelMatrix) : Prop :=
  (matching control travel).length ≤ controlMatrixSize ∧
    ∀ c ∈ control.elements, (∃ t ∈ travel.used, SamePair c t) → c ∈ reached control travel

theorem CollectsTravelled.fitsAndReached {target : List ControlMatrix → ControlMatrix → Report}
    {control : ControlMatrix} {s : DelayState} (h : CollectsTravelled target control s) :
    FitsAndReached control (target s.tested control).travel := by
  obtain ⟨s', hexec, hcollects⟩ := h
  have hend := controlMatrixMutate_triple target control s s rfl
  rw [hexec] at hend
  refine ⟨hend.2, fun c hc htravelled => ?_⟩
  have hc' := (hcollects c).mpr ⟨hc, htravelled⟩
  rw [hend.1, mem_matching] at hc'
  exact hc'.1

/-- Where there is no room for them, the stage stores past the end. -/
theorem controlMatrixMutate_overflows {target : List ControlMatrix → ControlMatrix → Report}
    {control : ControlMatrix} {s : DelayState}
    (h : controlMatrixSize < (matching control (target s.tested control).travel).length) :
    ∃ s', (controlMatrixMutate target control).exec s = (.error .fault, s') := by
  have hrun := (controlMatrixMutate_triple target control s).mono (fun s hs => hs)
    (fun _ s hs => Nat.not_lt.mpr hs.2 h) fun e s he => he
  obtain ⟨e, s', hexec, rfl, -⟩ := hrun.fails rfl
  exact ⟨s', hexec⟩

/-- **Enabled control elements fit**: `control_matrix_mutate` stores within
`enable_control_matrix` and collects the control elements that were travelled, if and only
if there are at most `CONTROL_MATRIX_SIZE` pairs of a reached control element and a travel
element which match, and every control element that was travelled is reached. -/
theorem enabled_fit_iff (target : List ControlMatrix → ControlMatrix → Report)
    (control : ControlMatrix) (s : DelayState) :
    CollectsTravelled target control s
      ↔ FitsAndReached control (target s.tested control).travel := by
  refine ⟨CollectsTravelled.fitsAndReached, ?_⟩
  rintro ⟨hfits, hreached⟩
  -- with room for all of them the stage cannot fault
  have hrun := (controlMatrixMutate_triple target control s).mono (fun s hs => hs)
    (fun _ s hs => hs) fun e s he => Nat.not_lt.mpr hfits he.2
  obtain ⟨⟨⟩, s', hexec, henabled, -⟩ := hrun.returns rfl
  refine ⟨s', hexec, fun e => ?_⟩
  rw [henabled, mem_matching]
  constructor
  · exact fun he => ⟨reached_subset _ _ he.1, he.2⟩
  · exact fun he => ⟨hreached e he.1 he.2, he.2⟩

theorem used_ofFront {n : Nat} {front : List MatrixElement} (h : front.length ≤ n)
    (hfront : ∀ e ∈ front, e.isEnd = false) : (Elements.ofFront front h).used = front := by
  have hall : ∀ e ∈ front, (!e.isEnd) = true := fun e he => by rw [hfront e he]; rfl
  rw [Elements.used, Elements.ofFront, List.takeWhile_append_of_pos hall]
  cases n - front.length with
  | zero => exact List.append_nil _
  | succ k => exact List.append_nil _

/-- Before the first execution. -/
def DelayState.init : DelayState := ⟨.zeros, .zeros, ∅, ∅, .zeros, 0, .zeros, []⟩

/-- A target that reports this travel matrix. -/
def travels (travel : TravelMatrix) : List ControlMatrix → ControlMatrix → Report :=
  fun _ _ => ⟨.zeros, travel⟩

@[simp] theorem travels_travel (travel : TravelMatrix) (tested : List ControlMatrix)
    (cm : ControlMatrix) : (travels travel tested cm).travel = travel := rfl

def onePair : ControlMatrix := .ofFront [⟨1, 2⟩] (by decide)

/-- One pair of program points, 1025 times. -/
def manyTimes : TravelMatrix := .ofFront (List.replicate 1025 ⟨1, 2⟩) (by
  rw [List.length_replicate]
  decide)

def twoPairs : ControlMatrix := .ofFront [⟨7, 7⟩, ⟨5, 0⟩] (by decide)

def zeroHash : TravelMatrix := .ofFront [⟨5, 0⟩] (by decide)

theorem lt_matching_manyTimes :
    controlMatrixSize < (matching onePair manyTimes).length := by
  have hreached : ∃ rest, reached onePair manyTimes = ⟨1, 2⟩ :: rest := ⟨_, rfl⟩
  obtain ⟨rest, hreached⟩ := hreached
  have hused : manyTimes.used = List.replicate 1025 ⟨1, 2⟩ :=
    used_ofFront _ fun e he => by rw [List.eq_of_mem_replicate he]; rfl
  have hfilter : (List.replicate 1025 (⟨1, 2⟩ : MatrixElement)).filter
      (fun t => compareMatrixElement ⟨1, 2⟩ t) = List.replicate 1025 ⟨1, 2⟩ :=
    List.filter_replicate_of_pos rfl
  rw [matching, hreached, hused, List.flatMap_cons, List.length_append, List.length_map, hfilter,
    List.length_replicate]
  exact Nat.lt_of_lt_of_le (by decide) (Nat.le_add_right 1025 _)

/-- The 1025th store is past the end of the array. The second control element has a zero hash
and the travel matrix is over: the loop ends before it. -/
theorem enabled_overflow_and_missed :
    (∃ s, (controlMatrixMutate (travels manyTimes) onePair).exec .init = (.error .fault, s)) ∧
      ¬CollectsTravelled (travels zeroHash) twoPairs .init := by
  constructor
  · refine controlMatrixMutate_overflows ?_
    rw [travels_travel]
    exact lt_matching_manyTimes
  · intro h
    -- the outer loop ends at a zero hash, and the second element is not looked at
    have hreached : reached twoPairs zeroHash = [⟨7, 7⟩] := rfl
    have hused : zeroHash.used = [⟨5, 0⟩] := used_ofFront _ (by decide)
    have hfits := h.fitsAndReached
    rw [travels_travel] at hfits
    have hmem := hfits.2 ⟨5, 0⟩ (List.mem_append_left _ (by decide))
      ⟨⟨5, 0⟩, hused ▸ List.mem_singleton_self _, .inl rfl⟩
    rw [hreached] at hmem
    exact absurd hmem (by decide)

end DistFuzz.Fuzzer
