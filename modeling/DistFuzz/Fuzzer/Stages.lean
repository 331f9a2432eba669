import DistFuzz.Lib.Outcome
import DistFuzz.Fuzzer.Havoc

/-!
# Deterministic stages: what they share (FuzzOne.cpp:324–756)

A deterministic stage walks over the seed, changes a few bits or bytes in place,
executes the changed buffer through `FuzzUnit` and changes it back. It stops with
`return 1` when `FuzzUnit` fails. All memory is accessed through checked blocks;
what an execution returns and the trace it leaves are arbitrary.

- `StageState`: the buffer, `useful_byte`, the automatic dictionary, and the cases
  tried so far, each with the window the stage was at.
- `Stage.fuzzUnit`, `anyUseful`, `loadWindow`, `storeWindow`: the steps of a stage.
- `windowTurn`, `windowStage`: the stages that store values to each window of `w`
  bytes in turn.
- `windowStage_logs`: what they try, in order, and that they put back what they
  changed.
- `calm`, `casesOf`: the cases of a stage in which no execution fails.
-/

namespace DistFuzz.Fuzzer

open DistFuzz.Lib

/-! ## Data -/

/-- `MIN_TOKEN_SIZE`. -/
def minTokenSize : Nat := 1

/-- `MAX_TOKEN_SIZE`. -/
def maxTokenSize : Nat := 32

/-- A token of the dictionary. -/
structure Token where
  bytes : List UInt8
  min_le : minTokenSize ≤ bytes.length
  le_max : bytes.length ≤ maxTokenSize
deriving DecidableEq

/-- `map<string, u32>`: tokens and their counts. The order of the keys is not kept:
whoever walks the map sorts what it finds. -/
structure TokenMap where
  entries : List (Token × UInt32)
  nodup : (entries.map Prod.fst).Nodup

/-- Consecutive bits of the buffer, numbered as `FLIP_BIT` numbers them. -/
structure Window where
  first : Nat
  bits : Nat
deriving DecidableEq, Repr

/-- `w` bytes from position `i` on. -/
def byteWindow (i w : Nat) : Window := ⟨8 * i, 8 * w⟩

/-- A case that was executed, and the window that the stage was at. -/
structure Trial where
  window : Window
  case : List UInt8
deriving DecidableEq, Repr

/-- What a stage works on. `added` are the tokens that `AddToken` was called with. -/
structure StageState where
  filemap : Block
  usefulByte : List Bool
  autoToken : TokenMap
  added : List Token
  trials : List Trial

/-- Why a stage ends early: an access outside of a buffer, `return 1` after a failed
execution, or it still runs. -/
inductive Halt where
  | fault
  | failed
  | running
deriving DecidableEq, Repr

/-- The programs of the stages. -/
abbrev Stage := Prog Halt StageState

/-- What `FuzzUnit` returns, and `hash32(globalTraceBit, MAP_SIZE, HASH_CONST)` after
it. -/
structure UnitOutcome where
  failed : Bool
  cksum : UInt32

/-- The program under test: how the `n`-th execution of a stage goes. -/
abbrev Target := Nat → List UInt8 → UnitOutcome

/-! ## Steps -/

variable (target : Target)

/-- A case was tried. -/
def StageState.tried (s : StageState) (t : Trial) : StageState :=
  { s with trials := s.trials ++ [t] }

/-- `FuzzUnit(argv, mem, len)`. The length is a `u64` here and passes through the `u32` of
`WriteToTestcase`. The `write` there is taken to write all of the case: Linux writes at most
`0x7ffff000` bytes, and for a longer case `WriteToTestcase` exits, which is not modelled. -/
def Stage.fuzzUnit (window : Window) (mem : StageState → Block) (len : UInt64) :
    Stage UInt32 := fun s =>
  match (mem s).read 0 len.toUInt32.toNat with
  | none => (.error .fault, s)
  | some case =>
    let outcome := target s.trials.length case
    if outcome.failed then (.error .failed, s.tried ⟨window, case⟩)
    else (.ok outcome.cksum, s.tried ⟨window, case⟩)

/-- `useful_byte[i]`. -/
def usefulAt (i : Nat) : Stage Bool := access .fault fun s => s.usefulByte[i]?

/-- Whether one of the `n` bytes from `i` on is useful; it stops at the first. -/
def anyUseful : (i n : Nat) → Stage Bool
  | _, 0 => pure false
  | i, n + 1 => do
    if ← usefulAt i then pure true else anyUseful (i + 1) n

/-- `*(T *)(filemap + i)` for a type of `w` bytes. -/
def loadWindow (w i : Nat) : Stage (BitVec (8 * w)) :=
  access .fault fun s => (s.filemap.read i w).map fun xs => loadBytes w fun j => xs.getD j 0

/-- `*(T *)(filemap + i) = x`. -/
def storeWindow {w : Nat} (i : Nat) (x : BitVec (8 * w)) : Stage Unit :=
  update .fault fun s => (s.filemap.storeWord i x).map fun b => { s with filemap := b }

/-- One turn of a stage that goes through the windows of `w` bytes: a window without a
useful byte is skipped; `tries orig` are the values that are stored one after the
other where `orig` stood. -/
def windowTurn (w : Nat) (tries : BitVec (8 * w) → List (BitVec (8 * w))) (len : UInt64)
    (i : Nat) : Stage Unit := do
  if ← anyUseful i w then
    let orig ← loadWindow w i
    forEach (tries orig) () fun x _ => do
      storeWindow i x
      let _ ← Stage.fuzzUnit target (byteWindow i w) StageState.filemap len
    storeWindow i orig

/-- `if (len < w) return 0; for (i = 0; i < len - (w - 1); i++)`. -/
def windowStage (w : Nat) (tries : BitVec (8 * w) → List (BitVec (8 * w))) (len : UInt64) :
    Stage Unit := do
  if len < UInt64.ofNat w then return
  forRange (len - UInt64.ofNat (w - 1)).toNat () fun i _ => windowTurn target w tries len i

/-! ## What the steps do -/

variable {target}

/-- The only reason for a stage to end early, if its accesses are in bounds: a call of `FuzzUnit`
that returned an error. -/
def UnitFailed (target : Target) (e : Halt) : Prop :=
  e = .failed ∧ ∃ n case, (target n case).failed = true

/-- The stage tries `ts`, in this order. -/
abbrev StageLogs {α : Type} (target : Target) (K : StageState → Prop) (x : Stage α)
    (K' : α → StageState → Prop) (ts : List Trial) : Prop :=
  Logs StageState.trials (UnitFailed target) K x K' ts

theorem fuzzUnit_logs {K : StageState → Prop} {window : Window} {mem : StageState → Block}
    {len : UInt64} {K' : UInt32 → StageState → Prop} {case : List UInt8}
    (h : ∀ s, K s → (mem s).read 0 len.toUInt32.toNat = some case ∧
      K' (target s.trials.length case).cksum (s.tried ⟨window, case⟩)) :
    StageLogs target K (Stage.fuzzUnit target window mem len) K' [⟨window, case⟩] := by
  rintro s₀ hs s rfl
  obtain ⟨hread, hK'⟩ := h s hs
  show EndsIn _ _ (Stage.fuzzUnit target window mem len s)
  rw [Stage.fuzzUnit, hread]
  dsimp only
  by_cases hfail : (target s.trials.length case).failed = true
  · rw [if_pos hfail]
    exact ⟨⟨rfl, _, _, hfail⟩, List.prefix_refl _⟩
  · rw [if_neg hfail]
    exact ⟨hK', rfl⟩

/-- The window holds a useful byte. -/
def usefulIn (useful : List Bool) (i n : Nat) : Bool := ((useful.drop i).take n).any id

theorem usefulIn_succ {useful : List Bool} {i : Nat} (hi : i < useful.length) (n : Nat) :
    usefulIn useful i (n + 1) = (useful.getD i false || usefulIn useful (i + 1) n) := by
  rw [usefulIn, List.drop_eq_getElem_cons hi, List.take_succ_cons, List.any_cons,
    List.getD_eq_getElem _ _ hi]
  rfl

theorem anyUseful_logs {K : StageState → Prop} {useful : List Bool} {i n : Nat}
    (hK : ∀ s, K s → s.usefulByte = useful) (h : i + n ≤ useful.length) :
    StageLogs target K (anyUseful i n) (fun b s => b = usefulIn useful i n ∧ K s) [] := by
  induction n generalizing i with
  | zero => exact logs_pure fun s hs => ⟨by simp [usefulIn], hs⟩
  | succ n ih =>
    have hi : i < useful.length := by omega
    have hread : StageLogs target K (usefulAt i)
        (fun b s => b = useful.getD i false ∧ K s) [] := by
      refine logs_access fun s hs => ⟨_, List.getElem?_eq_getElem (by rwa [hK s hs]), ?_, hs⟩
      rw [List.getD_eq_getElem _ _ hi]
      exact getElem_congr_coll (hK s hs)
    rw [usefulIn_succ hi]
    refine hread.before fun b => ?_
    cases hb : useful.getD i false with
    | true =>
      refine logs_of_start fun s hs => ?_
      rw [hs.1, if_pos rfl]
      exact logs_pure fun s hs => ⟨rfl, hs.2⟩
    | false =>
      refine logs_of_start fun s hs => ?_
      rw [hs.1, if_neg Bool.false_ne_true, Bool.false_or]
      exact (ih (by omega)).mono (fun s hs => hs.2) fun b s hs => hs

/-- The buffer is the seed, and this is `useful_byte`. A stage is entered like this, and is to be
left like this. -/
def Intact (seed : Block) (useful : List Bool) (s : StageState) : Prop :=
  s.filemap = seed ∧ s.usefulByte = useful

/-- The buffer is the seed with a word stored at `i`. -/
def Changed (seed : Block) (useful : List Bool) (w i : Nat) (s : StageState) : Prop :=
  (∃ x : BitVec (8 * w), s.filemap.bytes = overwrite seed.bytes i (wordBytes x)) ∧
    s.usefulByte = useful

section Windows

variable {seed : Block} {useful : List Bool} {w i : Nat}

theorem Intact.changed (hi : i + w ≤ seed.size) {s : StageState} (h : Intact seed useful s) :
    Changed seed useful w i s := by
  refine ⟨⟨wordAt w seed.bytes i, ?_⟩, h.2⟩
  rw [wordBytes_wordAt hi, overwrite_same hi, h.1]

theorem Changed.size (hi : i + w ≤ seed.size) {s : StageState}
    (h : Changed seed useful w i s) : s.filemap.size = seed.size := by
  obtain ⟨⟨x, hx⟩, -⟩ := h
  rw [Block.size, hx]
  exact length_overwrite (by rwa [length_wordBytes])

theorem loadWindow_logs (hi : i + w ≤ seed.size) :
    StageLogs target (Intact seed useful) (loadWindow w i)
      (fun x s => x = wordAt w seed.bytes i ∧ Intact seed useful s) [] := by
  refine logs_access fun s hs => ⟨wordAt w seed.bytes i, ?_, rfl, hs⟩
  rw [hs.1, Block.read_eq hi, Option.map_some, loadBytes_take]

/-- What is stored hides what was stored before. -/
theorem storeWindow_logs (hi : i + w ≤ seed.size) (x : BitVec (8 * w)) :
    StageLogs target (Changed seed useful w i) (storeWindow i x)
      (fun _ s => s.filemap.bytes = overwrite seed.bytes i (wordBytes x) ∧
        s.usefulByte = useful) [] := by
  refine logs_update fun s hs => ?_
  obtain ⟨b, hstore, hb⟩ := Block.storeWord_eq x (hs.size hi ▸ hi)
  obtain ⟨⟨y, hy⟩, huseful⟩ := hs
  refine ⟨{ s with filemap := b }, by rw [hstore, Option.map_some], ⟨?_, huseful⟩, rfl⟩
  rw [hb, hy, overwrite_of_le (by rw [length_wordBytes, length_wordBytes])]
  rwa [length_wordBytes]

/-- The trials of one window. -/
def windowTrials (seed : Block) (w : Nat) (len : UInt64) (i : Nat) (xs : List (BitVec (8 * w))) :
    List Trial :=
  xs.map fun x => ⟨byteWindow i w, caseOf len (overwrite seed.bytes i (wordBytes x))⟩

theorem tryValue_logs (hi : i + w ≤ seed.size) {len : UInt64} (hlen : len.toNat = seed.size)
    (x : BitVec (8 * w)) :
    StageLogs target (Changed seed useful w i)
      (do
        storeWindow i x
        let _ ← Stage.fuzzUnit target (byteWindow i w) StageState.filemap len)
      (fun _ => Changed seed useful w i)
      [⟨byteWindow i w, caseOf len (overwrite seed.bytes i (wordBytes x))⟩] := by
  have hpure : ∀ cksum : UInt32, StageLogs target (Changed seed useful w i) (pure () : Stage Unit)
      (fun _ => Changed seed useful w i) [] := fun _ => logs_pure fun s hs => hs
  refine (storeWindow_logs hi x).before fun _ => Logs.after (fuzzUnit_logs fun s hs => ?_) hpure
  have hsize : s.filemap.size = seed.size := by
    rw [Block.size, hs.1]
    exact length_overwrite (by rwa [length_wordBytes])
  refine ⟨?_, ⟨x, hs.1⟩, hs.2⟩
  rw [read_case (hlen.trans hsize.symm).le, hs.1]

theorem tryValues_logs (hi : i + w ≤ seed.size) {len : UInt64} (hlen : len.toNat = seed.size)
    (xs : List (BitVec (8 * w))) :
    StageLogs target (Changed seed useful w i)
      (forEach xs () fun x _ => do
        storeWindow i x
        let _ ← Stage.fuzzUnit target (byteWindow i w) StageState.filemap len)
      (fun _ => Changed seed useful w i) (windowTrials seed w len i xs) := by
  rw [windowTrials, List.map_eq_flatMap]
  exact logs_forEach (fun _ _ => Changed seed useful w i) _
    (fun _ x _ _ _ => tryValue_logs hi hlen x) ()

/-- The trials of one turn. -/
def turnTrials (seed : Block) (useful : List Bool) (w : Nat)
    (tries : BitVec (8 * w) → List (BitVec (8 * w))) (len : UInt64) (i : Nat) : List Trial :=
  if usefulIn useful i w then windowTrials seed w len i (tries (wordAt w seed.bytes i)) else []

/-- **One window**: if one of its bytes is useful each value is tried in turn, and the
seed is put back. -/
theorem windowTurn_logs {tries : BitVec (8 * w) → List (BitVec (8 * w))} {len : UInt64}
    (hlen : len.toNat = seed.size) (huseful : useful.length = seed.size)
    (hi : i + w ≤ seed.size) :
    StageLogs target (Intact seed useful) (windowTurn target w tries len i)
      (fun _ => Intact seed useful) (turnTrials seed useful w tries len i) := by
  refine (anyUseful_logs (fun s hs => hs.2) (by rwa [huseful])).before fun b => ?_
  refine logs_of_start fun s hs => ?_
  rw [hs.1]
  refine logs_ite (fun _ => ?_) fun _ => logs_pure fun s hs => hs.2
  refine ((loadWindow_logs hi).mono (fun s hs => hs.2) fun x s hs => hs).before fun orig => ?_
  refine logs_of_start fun s hs => ?_
  rw [hs.1]
  have hback : StageLogs target (Changed seed useful w i)
      (storeWindow i (wordAt w seed.bytes i)) (fun _ => Intact seed useful) [] := by
    refine (storeWindow_logs hi _).mono (fun s hs => hs) fun _ s hs => ⟨?_, hs.2⟩
    refine Block.eq_of_bytes ?_
    rw [hs.1, wordBytes_wordAt hi, overwrite_same hi]
  exact ((tryValues_logs hi hlen _).after fun _ => hback).mono (fun s hs => hs.2.changed hi)
    fun _ s hs => hs

/-- The trials of a whole stage. -/
def stageTrials (seed : Block) (useful : List Bool) (w : Nat)
    (tries : BitVec (8 * w) → List (BitVec (8 * w))) (len : UInt64) : List Trial :=
  (List.range (seed.size + 1 - w)).flatMap (turnTrials seed useful w tries len)

/-- **The stages over windows** try each value at each window with a useful byte and
leave the buffer as it was. -/
theorem windowStage_logs {tries : BitVec (8 * w) → List (BitVec (8 * w))} {len : UInt64}
    (hw : 0 < w) (hsmall : w < 2 ^ 64) (hlen : len.toNat = seed.size)
    (huseful : useful.length = seed.size) :
    StageLogs target (Intact seed useful) (windowStage target w tries len)
      (fun _ => Intact seed useful) (stageTrials seed useful w tries len) := by
  have hofw : (UInt64.ofNat w).toNat = w := UInt64.toNat_ofNat_of_lt hsmall
  have hofw' : (UInt64.ofNat (w - 1)).toNat = w - 1 :=
    UInt64.toNat_ofNat_of_lt (Nat.lt_of_le_of_lt (Nat.sub_le w 1) hsmall)
  rw [windowStage, stageTrials]
  by_cases hshort : len < UInt64.ofNat w
  · rw [if_pos hshort]
    rw [UInt64.lt_iff_toNat_lt, hofw, hlen] at hshort
    rw [show seed.size + 1 - w = 0 by omega]
    exact logs_pure fun s hs => hs
  · rw [if_neg hshort]
    rw [UInt64.lt_iff_toNat_lt, hofw, hlen] at hshort
    have hsub : (len - UInt64.ofNat (w - 1)).toNat = seed.size + 1 - w := by
      rw [UInt64.toNat_sub_of_le _ _ (by rw [UInt64.le_iff_toNat_le]; omega), hofw', hlen]
      omega
    rw [hsub]
    have hturn : ∀ i, i < seed.size + 1 - w → ∀ _ : Unit,
        StageLogs target (Intact seed useful) (windowTurn target w tries len i)
          (fun _ => Intact seed useful) (turnTrials seed useful w tries len i) :=
      fun i hi _ => windowTurn_logs hlen huseful (by omega)
    exact logs_forRange (fun _ _ => Intact seed useful) (turnTrials seed useful w tries len)
      hturn ()

end Windows

/-! ## Runs without a failure -/

/-- `len`, as `FuzzMain` passes it on. -/
def seedLen (seed : Block) : UInt64 := UInt64.ofNat seed.size

theorem toNat_seedLen (seed : Block) : (seedLen seed).toNat = seed.size := by
  have hlt : seed.size < 2 ^ 63 := seed.length_lt
  exact UInt64.toNat_ofNat_of_lt (Nat.lt_trans hlt (by decide))

/-- Before a stage: the seed is in the buffer and nothing has been tried. -/
def StageState.start (seed : Block) (useful : List Bool) : StageState :=
  ⟨seed, useful, ⟨[], List.nodup_nil⟩, [], []⟩

/-- A target whose executions do not fail. -/
def calm (cksum : Nat → List UInt8 → UInt32) : Target := fun n case => ⟨false, cksum n case⟩

theorem not_unitFailed_calm (cksum : Nat → List UInt8 → UInt32) (e : Halt) :
    ¬UnitFailed (calm cksum) e := by
  rintro ⟨-, n, case, h⟩
  cases h

/-- The cases that a stage executes. -/
def casesOf (x : Stage Unit) (s : StageState) : List (List UInt8) :=
  (x.exec s).2.trials.map Trial.case

theorem casesOf_eq {Err : Halt → Prop} {x : Stage Unit} {K : StageState → Prop}
    {K' : Unit → StageState → Prop} {ts : List Trial} {s : StageState}
    (h : Logs StageState.trials Err K x K' ts) (hno : ∀ e, ¬Err e) (hs : K s)
    (htrials : s.trials = []) : casesOf x s = ts.map Trial.case := by
  obtain ⟨a, s', hrun, -, hlog⟩ := h.returns hno hs
  rw [casesOf, hrun, hlog, htrials, List.nil_append]

/-- All bytes are useful. -/
def allUseful (seed : Block) : List Bool := List.replicate seed.size true

theorem length_allUseful (seed : Block) : (allUseful seed).length = seed.size :=
  List.length_replicate

theorem usefulIn_allUseful {seed : Block} {i n : Nat} (hn : 0 < n) (hi : i + n ≤ seed.size) :
    usefulIn (allUseful seed) i n = true := by
  rw [usefulIn, List.any_eq_true]
  refine ⟨true, ?_, rfl⟩
  rw [allUseful, List.drop_replicate, List.take_replicate, List.mem_replicate]
  exact ⟨by omega, rfl⟩

theorem intact_start (seed : Block) (useful : List Bool) :
    Intact seed useful (.start seed useful) := ⟨rfl, rfl⟩

/-- With all bytes useful, a stage over windows executes every value at every window. -/
theorem mem_casesOf {seed : Block} {w i : Nat} {tries : BitVec (8 * w) → List (BitVec (8 * w))}
    {Err : Halt → Prop} {x : Stage Unit} {K' : Unit → StageState → Prop}
    (h : Logs StageState.trials Err (Intact seed (allUseful seed)) x K'
      (stageTrials seed (allUseful seed) w tries (seedLen seed)))
    (hno : ∀ e, ¬Err e) (hsmall : seed.size < 2 ^ 32) (hw : 0 < w) (hi : i + w ≤ seed.size)
    {v : BitVec (8 * w)} (hv : v ∈ tries (wordAt w seed.bytes i)) :
    overwrite seed.bytes i (wordBytes v) ∈ casesOf x (.start seed (allUseful seed)) := by
  have hcase : caseOf (seedLen seed) (overwrite seed.bytes i (wordBytes v))
      = overwrite seed.bytes i (wordBytes v) := by
    refine caseOf_eq ?_ (by rwa [toNat_seedLen])
    rw [length_overwrite (by rwa [length_wordBytes]), toNat_seedLen]
    rfl
  rw [casesOf_eq h hno (intact_start _ _) rfl]
  refine List.mem_map.mpr ⟨⟨byteWindow i w, _⟩, ?_, hcase⟩
  refine List.mem_flatMap.mpr ⟨i, List.mem_range.mpr (by omega), ?_⟩
  rw [turnTrials, if_pos (usefulIn_allUseful hw hi)]
  exact List.mem_map.mpr ⟨v, hv, rfl⟩

end DistFuzz.Fuzzer
