import DistFuzz.Injector.Event

/-!
# The rr injector (rr/src/dst_fuzz.cc)

The record/replay tracer carries a smaller copy of the strace injector: the
same exempt files and the same byte `≥ 50` to inject, but only delays and
failures, and a hash that folds an event into a neighbouring cell that was hit
before.

- `RrState`: the static variables. The map is indexed with a `uint64_t` that
  the code does not check, so it is a function on all of them.
- `rrGetHashValue`, `rrHandleRandomEvent`, `rrDispatch`, `dstFuzz`: the functions of the
  source, with the length of a call taken as `dst_fuzz` computed it.
-/

namespace DistFuzz.Injector

/-- The static variables of the rr injector. -/
structure RrState where
  random : RandomFile
  eventIndex : UInt64
  fuzzCoverageMap : UInt64 → UInt8

/-- A system call of a recorded task: number, first argument, length, and what
is looked up while handling it. -/
structure RrCall where
  scno : UInt64
  fd : Int32
  length : UInt64
  isFuzzing : Bool
  filePath : Option (List Char)

/-- What is injected: a delay in milliseconds or a result. -/
inductive RrFault where
  | delay (ms : UInt16)
  | fail (result : Int64)
deriving DecidableEq, Repr

/-- How a call ended: ignored, or recorded with the fault injected, if any. -/
inductive RrOutcome where
  | ignored
  | recorded (fault : Option RrFault)
deriving DecidableEq, Repr

/-- rr's `get_hash_value` (dst_fuzz.cc:39–63): `syscall_no` is a `bool`, and the
cell next to the hash is taken if it was hit; `event_index` advances only if
neither neighbour was. -/
def rrGetHashValue (s : RrState) (syscallNo : Bool) (position length : UInt64)
    (faultInjected : Bool) : UInt64 × RrState :=
  let hashValue :=
    ((s.eventIndex + (if syscallNo then 10 else 0) + length + position)
      <<< (if faultInjected then 1 else 0)) % UInt64.ofNat mapSize
  if 0 < s.fuzzCoverageMap (hashValue - 1) then (hashValue - 1, s)
  else if 0 < s.fuzzCoverageMap (hashValue + 1) then (hashValue + 1, s)
  else (hashValue, { s with eventIndex := s.eventIndex + 1 })

/-- The label `EXIT` (dst_fuzz.cc:230–236). -/
def rrExit (s : RrState) (c : RrCall) (fault : Option RrFault) : RrState × RrOutcome :=
  let h := rrGetHashValue s (c.scno != 0) 0 c.length fault.isSome
  ({ h.2 with
     fuzzCoverageMap := fun a =>
       if a = h.1 then h.2.fuzzCoverageMap a + 1 else h.2.fuzzCoverageMap a },
   .recorded fault)

/-- The switch on the second byte (dst_fuzz.cc:199–228). -/
def rrInject (r : RandomFile) (isEventfd : Bool) (errorCodes : List Int64) :
    RrFault × RandomFile :=
  let b := r.getRandomUint8
  if b.1 % 2 == 0 then
    let ms := b.2.getRandomUint16
    (.delay (ms.1 % 1000), ms.2)
  else if isEventfd then
    (.fail (-11), b.2)
  else
    let e := b.2.getRandomUint8
    (.fail (-(errorCodes.getD (e.1.toNat % errorCodes.length) 0)), e.2)

/-- rr's `handle_random_event`. -/
def rrHandleRandomEvent (env : InjectorEnv) (s : RrState) (c : RrCall)
    (errorCodes : List Int64) : RrState × RrOutcome :=
  if !c.isFuzzing then (s, .ignored)
  else if c.fd < 3 then (s, .ignored)
  else match c.filePath.bind (fileKind env) with
    | none => (s, .ignored)
    | some kind =>
      if env.noFault then rrExit s c none
      else
        let b := s.random.getRandomUint8
        if b.1 < 50 then rrExit { s with random := b.2 } c none
        else
          let f := rrInject b.2 kind.isEventfd errorCodes
          rrExit { s with random := f.2 } c (some f.1)

/-- The switch of rr's `dst_fuzz`, which handles the calls the strace injector
handles. -/
def rrDispatch (env : InjectorEnv) (s : RrState) (c : RrCall) : RrState × RrOutcome :=
  match syscallKind c.scno with
  | none => (s, .ignored)
  | some (isSend, _) =>
    rrHandleRandomEvent env s c (if isSend then writeErrorCodes else readErrorCodes)

/-- rr's `dst_fuzz`: cell `0` is cleared after every system call, handled or
not. -/
def dstFuzz (env : InjectorEnv) (s : RrState) (c : RrCall) : RrState × RrOutcome :=
  let h := rrDispatch env s c
  ({ h.1 with
     fuzzCoverageMap := fun a => if a = 0 then 0 else h.1.fuzzCoverageMap a }, h.2)

/-- An rr injector that has loaded its random file and handled nothing. -/
def RrState.init (file : List UInt8) (cells : UInt64 → UInt8) : RrState :=
  { random := .load file, eventIndex := 0, fuzzCoverageMap := cells }

/-! ## What a call can do -/

theorem rrGetHashValue_random (s : RrState) (syscallNo : Bool) (position length : UInt64)
    (faultInjected : Bool) :
    (rrGetHashValue s syscallNo position length faultInjected).2.random = s.random := by
  rw [rrGetHashValue]
  generalize _ % UInt64.ofNat mapSize = hashValue
  split
  · rfl
  · split <;> rfl

@[simp] theorem rrExit_random (s : RrState) (c : RrCall) (fault : Option RrFault) :
    (rrExit s c fault).1.random = s.random := by
  show (rrGetHashValue s (c.scno != 0) 0 c.length fault.isSome).2.random = s.random
  exact rrGetHashValue_random ..

@[simp] theorem rrExit_outcome (s : RrState) (c : RrCall) (fault : Option RrFault) :
    (rrExit s c fault).2 = .recorded fault := rfl

theorem rrInject_reads (r : RandomFile) (isEventfd : Bool) (errorCodes : List Int64) :
    RandomFile.Reads r (rrInject r isEventfd errorCodes).2 := by
  rw [rrInject]
  dsimp only
  split
  · exact (RandomFile.reads_uint8 r).trans (RandomFile.reads_uint16 _)
  · split
    · exact RandomFile.reads_uint8 r
    · exact (RandomFile.reads_uint8 r).trans (RandomFile.reads_uint8 _)

/-- A call injects nothing and draws one byte at most, or it draws a byte that
is at least `50`, injects, and draws some more. -/
theorem dstFuzz_cases (env : InjectorEnv) (s : RrState) (c : RrCall) :
    ((∀ f, (dstFuzz env s c).2 ≠ .recorded (some f)) ∧
      RandomFile.Reads s.random (dstFuzz env s c).1.random) ∨
    (∃ f, (dstFuzz env s c).2 = .recorded (some f) ∧ 50 ≤ s.random.getRandomUint8.1 ∧
      RandomFile.Reads s.random.getRandomUint8.2 (dstFuzz env s c).1.random) := by
  rw [dstFuzz, rrDispatch]
  dsimp only
  -- the source's early returns, in order; a byte is drawn behind the last of them
  split
  · exact .inl ⟨fun f h => (nomatch h), .refl _⟩
  · rw [rrHandleRandomEvent]
    split
    · exact .inl ⟨fun f h => (nomatch h), .refl _⟩
    · split
      · exact .inl ⟨fun f h => (nomatch h), .refl _⟩
      · split
        · exact .inl ⟨fun f h => (nomatch h), .refl _⟩
        · next kind hkind =>
          split
          · refine .inl ⟨fun f h => ?_, ?_⟩
            · rw [rrExit_outcome] at h
              cases h
            · rw [rrExit_random]
              exact .refl _
          · dsimp only
            split
            · refine .inl ⟨fun f h => ?_, ?_⟩
              · rw [rrExit_outcome] at h
                cases h
              · rw [rrExit_random]
                exact RandomFile.reads_uint8 _
            · next hb =>
              refine .inr ⟨_, rrExit_outcome _ _ _, UInt8.not_lt.mp hb, ?_⟩
              rw [rrExit_random]
              exact rrInject_reads _ _ _

end DistFuzz.Injector
