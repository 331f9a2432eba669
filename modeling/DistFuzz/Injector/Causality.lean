import DistFuzz.Injector.SyscallStop

/-!
# What an injector learns from its stream (strace/src/dst_fuzz.c, strace/src/syscall.c)

The random stream and the shared memory are the only two things an injector shares
with anybody: the one with the fuzzer that wrote the file, the other with the other
nodes. Two strace processes that are the same but for these two are compared here
input by input. The bytes decide what is injected; the shared memory is written
and decides nothing.

- `StreamPair`: a way to compare two streams that deliver the same bytes for as
  long as the first of them is `ok`. `StreamPair.same`, the identity, and
  `StreamPair.front`, two files that agree up to some offset.
- `InjectorState.beside`: the same injector over another stream and another memory.
- `Alike`: two injectors that are the same but for related streams and memories;
  `alike_enter`, the step: `dst_fuzz_syscall_enter` keeps them alike and decides the
  same, if the first stream is still `ok` afterwards.
- `Quiet`: the parts of strace that do not touch the injector; `called_stepStrace`: an
  input calls it once or not at all.
- `AlikeStrace`, `alike_stepStrace`: the same for a whole strace process.
-/

namespace DistFuzz.Injector

open RandomFile

/-! ## Two streams -/

/-- A relation of streams under which, for as long as the first one is `ok`, a read
gives the same byte on both sides. -/
structure StreamPair where
  ok : RandomFile → Prop
  rel : RandomFile → RandomFile → Prop
  ok_before : ∀ {r : RandomFile}, ok r.readByte.2 → ok r
  read : ∀ {r r' : RandomFile}, rel r r' → ok r.readByte.2 →
    r'.readByte.1 = r.readByte.1 ∧ rel r.readByte.2 r'.readByte.2

namespace StreamPair

/-- One stream. -/
def same : StreamPair where
  ok _ := True
  rel r r' := r' = r
  ok_before _ := trivial
  read h _ := h ▸ ⟨rfl, rfl⟩

/-- Two files that agree before offset `k`, which is inside the first. -/
structure AgreeBefore (k : Nat) (file file' : List UInt8) : Prop where
  short : file.length < 2 ^ 32
  inside : k < file.length
  reaches : k ≤ file'.length
  agree : ∀ i < k, file'[i]? = file[i]?

/-- Byte `k` has not been read. The index of a file of `2 ^ 32` bytes or more wraps
and says nothing about that. -/
def Unread (k : Nat) (r : RandomFile) : Prop := r.Short → r.fuzzFileIndex.toNat ≤ k

/-- Two streams at one index in two files. -/
def OverFiles (file file' : List UInt8) (r r' : RandomFile) : Prop :=
  r.fuzzFileArray = file ∧ r' = { r with fuzzFileArray := file' }

theorem unread_before {k : Nat} {r : RandomFile} (hok : Unread k r.readByte.2) : Unread k r := by
  intro hshort
  have hindex := hok (readByte_short hshort)
  by_cases hin : r.fuzzFileIndex.toNat < r.fuzzFileArray.length
  · rw [readByte_inside hin, index_succ hshort hin] at hindex
    exact Nat.le_of_succ_le hindex
  · rwa [readByte_atEnd (Nat.le_of_not_lt hin)] at hindex

/-- The first stream stays before byte `k`, so the byte it reads is one on which the
files agree. -/
theorem read_overFiles {k : Nat} {file file' : List UInt8} (h : AgreeBefore k file file')
    {r r' : RandomFile} (hr : OverFiles file file' r r') (hok : Unread k r.readByte.2) :
    r'.readByte.1 = r.readByte.1 ∧ OverFiles file file' r.readByte.2 r'.readByte.2 := by
  obtain ⟨harray, rfl⟩ := hr
  have hshort : r.Short := by
    rw [Short, harray]
    exact h.short
  have hbefore := unread_before hok hshort
  have hinside := h.inside
  have hreaches := h.reaches
  have hin : r.fuzzFileIndex.toNat < r.fuzzFileArray.length := by
    rw [harray]
    omega
  have hindex := hok (readByte_short hshort)
  rw [readByte_inside hin, index_succ hshort hin] at hindex
  -- the byte after which the index is still at most `k` is before `k`
  have hlt : r.fuzzFileIndex.toNat < k := Nat.lt_of_succ_le hindex
  have hbyte := h.agree _ hlt
  rw [← harray, List.getElem?_eq_getElem hin, List.getElem?_eq_getElem (by omega)] at hbyte
  rw [readByte_inside hin, readByte_inside (r := { r with fuzzFileArray := file' })
    (Nat.lt_of_lt_of_le hlt hreaches)]
  exact ⟨Option.some.inj hbyte, harray, rfl⟩

/-- Two files that agree before `k`, for as long as byte `k` has not been read. -/
def front {k : Nat} {file file' : List UInt8} (h : AgreeBefore k file file') : StreamPair where
  ok := Unread k
  rel := OverFiles file file'
  ok_before := unread_before
  read := read_overFiles h

variable (S : StreamPair) {r r' : RandomFile}

theorem ok_of_reads (h : Reads r r') (hok : S.ok r') : S.ok r := by
  induction h with
  | refl => exact hok
  | step _ ih => exact S.ok_before (ih hok)

theorem uint8 (hr : S.rel r r') (hok : S.ok r.getRandomUint8.2) :
    r'.getRandomUint8.1 = r.getRandomUint8.1 ∧ S.rel r.getRandomUint8.2 r'.getRandomUint8.2 :=
  S.read hr hok

theorem uint16 (hr : S.rel r r') (hok : S.ok r.getRandomUint16.2) :
    r'.getRandomUint16.1 = r.getRandomUint16.1 ∧
      S.rel r.getRandomUint16.2 r'.getRandomUint16.2 := by
  have hhigh := S.read hr (S.ok_before hok)
  have hlow := S.read hhigh.2 hok
  refine ⟨?_, hlow.2⟩
  rw [getRandomUint16, getRandomUint16]
  dsimp only
  rw [hhigh.1, hlow.1]

end StreamPair

/-! ## Two injectors -/

/-- The same injector over another stream and another shared memory. -/
def InjectorState.beside (s : InjectorState) (r : RandomFile) (sh : Shared) : InjectorState :=
  { s with random := r, shared := sh }

section Alike

variable (S : StreamPair) (T : Shared → Shared → Prop)

/-- Two injectors that differ in the stream and the shared memory only, and there as
`S` and `T` say. -/
inductive Alike (s : InjectorState) : InjectorState → Prop where
  | beside {r : RandomFile} {sh : Shared} (hr : S.rel s.random r) (hsh : T s.shared sh) :
    Alike s (s.beside r sh)

/-- The results of one call, with the same decision: the two injectors are alike after it, and the
tracee and the outcome are the same. -/
structure AlikeHandled (h h' : Handled) : Prop where
  injector : Alike S T h.injector h'.injector
  tcp : h'.tcp = h.tcp
  outcome : h'.outcome = h.outcome

/-- Recording one event on both sides keeps the memories related. -/
def Records : Prop :=
  ∀ (sh sh' : Shared) (p : NodeProcess) (e : Recorded), T sh sh' →
    T (recordEvent sh p e).1 (recordEvent sh' p e).1

variable {S T} {s s' : InjectorState} {r : RandomFile} {sh : Shared}

theorem alike_exitEvent (hT : Records T) (hr : S.rel s.random r) (hsh : T s.shared sh)
    (tcp : Tcb) (length : UInt64) (e : EventRecord) :
    AlikeHandled S T (exitEvent s tcp length e) (exitEvent (s.beside r sh) tcp length e) :=
  ⟨.beside hr (hT _ _ s.proc _ hsh), rfl, rfl⟩

/-- The choice of the event is the same on both sides. -/
theorem chooseEvent_alike {r r' : RandomFile} (hr : S.rel r r') (isSend : Bool) (kind : FileKind)
    (net : Bool) (hok : S.ok (chooseEvent isSend kind r net).random) :
    (chooseEvent isSend kind r' net).index = (chooseEvent isSend kind r net).index ∧
    (chooseEvent isSend kind r' net).netPartition = (chooseEvent isSend kind r net).netPartition ∧
    S.rel (chooseEvent isSend kind r net).random (chooseEvent isSend kind r' net).random := by
  by_cases hpart : (net && !kind.isFile) = true
  · -- the byte that decides whether the partition heals is the same
    have hfirst : S.ok r.getRandomUint8.2 := by
      rw [chooseEvent, if_pos hpart] at hok
      dsimp only at hok
      split at hok
      · exact S.ok_before hok
      · exact hok
    obtain ⟨hbyte, hrest⟩ := S.uint8 hr hfirst
    rw [chooseEvent, if_pos hpart] at hok
    rw [chooseEvent, chooseEvent, if_pos hpart, if_pos hpart]
    dsimp only at hok ⊢
    rw [hbyte]
    by_cases hheal : (r.getRandomUint8.1 % 2 == 0) = true
    · rw [if_pos hheal] at hok
      rw [if_pos hheal, if_pos hheal]
      obtain ⟨hindex, hnext⟩ := S.uint8 hrest hok
      exact ⟨by rw [drawIndex, drawIndex, hindex], rfl, hnext⟩
    · rw [if_neg hheal, if_neg hheal]
      exact ⟨rfl, rfl, hrest⟩
  · rw [chooseEvent, if_neg hpart] at hok
    rw [chooseEvent, chooseEvent, if_neg hpart, if_neg hpart]
    obtain ⟨hindex, hnext⟩ := S.uint8 hr hok
    exact ⟨by rw [drawIndex, drawIndex, hindex], rfl, hnext⟩

/-- What the switch needs of the streams in one of its cases: it ends with a stream
that is related to the one beside it, and dies or goes on together. -/
def AlikeApplied (S : StreamPair) (sh : Shared) (o o' : Option (InjectorState × Tcb)) : Prop :=
  ∃ r₂, o' = o.map (Prod.map (·.beside r₂ sh) id) ∧ ∀ p ∈ o, S.rel p.1.random r₂

theorem alikeApplied_some {t : InjectorState} (hr : S.rel t.random r) (tcp : Tcb) :
    AlikeApplied S sh (some (t, tcp)) (some (t.beside r sh, tcp)) := by
  refine ⟨r, rfl, fun p hp => ?_⟩
  obtain rfl := Option.some.inj hp
  exact hr

theorem alikeApplied_retval {t : InjectorState} (hr : S.rel t.random r) (tcp : Tcb)
    (rval : Int64) :
    AlikeApplied S sh (injectRetval t tcp rval) (injectRetval (t.beside r sh) tcp rval) := by
  refine ⟨r, ?_, fun p hp => ?_⟩
  · rw [injectRetval, injectRetval, Option.map_map]
    rfl
  · rw [(@injectRetval_frame t p.1 tcp p.2 rval hp).2.2.2]
    exact hr

/-- Whether the table of delays is full does not depend on the delay. -/
theorem allocDelayData_cases (vec : List UInt16) :
    (∀ ms, allocDelayData vec ms = none) ∨
      ∀ ms, allocDelayData vec ms = some (UInt16.ofNat vec.length, vec ++ [ms]) := by
  by_cases hfull : (UInt16.ofNat vec.length).toNat < vec.length
  · exact .inl fun ms => if_pos hfull
  · exact .inr fun ms => if_neg hfull

theorem alikeApplied_delay (hr : S.rel s.random r) (tcp : Tcb)
    (hok : ∀ p ∈ injectDelay s tcp, S.ok p.1.random) :
    AlikeApplied S sh (injectDelay s tcp) (injectDelay (s.beside r sh) tcp) := by
  have hbeside : injectDelay (s.beside r sh) tcp =
      (allocDelayData s.delayDataVec (r.getRandomUint16.1 % 1000)).map _ := rfl
  rcases allocDelayData_cases s.delayDataVec with hnone | hsome
  · rw [hbeside, injectDelay, hnone, hnone]
    exact ⟨r, rfl, fun p hp => by cases hp⟩
  · rw [injectDelay, hsome] at hok
    obtain ⟨hms, hnext⟩ := S.uint16 hr (hok _ rfl)
    rw [hbeside, injectDelay, hsome, hsome, hms]
    exact alikeApplied_some hnext _

/-- Whether the table of return values is full does not depend on the value. -/
theorem retvalNew_cases (vec : List Int64) :
    (∀ rval, retvalNew vec rval = none) ∨ ∀ rval, (retvalNew vec rval).isSome := by
  by_cases hfull : (UInt16.ofNat vec.length).toNat < vec.length
  · exact .inl fun rval => if_pos hfull
  · exact .inr fun rval => by rw [retvalNew, if_neg hfull]; rfl

theorem alikeApplied_fail (hr : S.rel s.random r) (tcp : Tcb) (isEventfd : Bool)
    (errorCodes : List Int64) (hok : ∀ p ∈ injectFail s tcp isEventfd errorCodes, S.ok p.1.random) :
    AlikeApplied S sh (injectFail s tcp isEventfd errorCodes)
      (injectFail (s.beside r sh) tcp isEventfd errorCodes) := by
  cases isEventfd with
  | true => exact alikeApplied_retval hr tcp (-11)
  | false =>
    rw [injectFail, if_neg Bool.false_ne_true] at hok
    rw [injectFail, injectFail, if_neg Bool.false_ne_true, if_neg Bool.false_ne_true]
    dsimp only at hok ⊢
    -- with a full table nothing is drawn into it, whatever the byte
    rcases retvalNew_cases s.retvalVec with hnone | hsome
    · have hleft : ∀ r' sh' rval,
          injectRetval { s with random := r', shared := sh' } tcp rval = none := by
        intro r' sh' rval
        rw [injectRetval]
        show (retvalNew s.retvalVec rval).map _ = none
        rw [hnone]
        rfl
      exact ⟨r, by rw [hleft _ s.shared]; exact hleft .., fun p hp => by
        rw [hleft _ s.shared] at hp
        cases hp⟩
    · obtain ⟨slot, hslot⟩ := Option.isSome_iff_exists.mp (hsome (-(errorCodes.getD
        (s.random.getRandomUint8.1.toNat % errorCodes.length) 0)))
      obtain ⟨hbyte, hnext⟩ := S.uint8 hr
        (hok _ (by rw [injectRetval, hslot]; exact rfl))
      show AlikeApplied S sh _ (injectRetval
        (({ s with random := s.random.getRandomUint8.2 } : InjectorState).beside
          r.getRandomUint8.2 sh) tcp (-(errorCodes.getD
            (r.getRandomUint8.1.toNat % errorCodes.length) 0)))
      rw [hbyte]
      exact alikeApplied_retval hnext tcp _

/-- The case of the switch that runs does the same on both sides. -/
theorem alikeApplied_applyEvent (hr : S.rel s.random r) (c : Call) (kind : FileKind)
    (length : UInt64) (errorCodes : List Int64) (ev : Option InjectEvent)
    (hok : ∀ p ∈ applyEvent s c kind length errorCodes ev, S.ok p.1.random) :
    AlikeApplied S sh (applyEvent s c kind length errorCodes ev)
      (applyEvent (s.beside r sh) c kind length errorCodes ev) := by
  cases ev with
  | none => exact alikeApplied_some hr _
  | some ev =>
    cases ev with
    | delay => exact alikeApplied_delay hr c.tcp hok
    | fail => exact alikeApplied_fail hr c.tcp kind.isEventfd errorCodes hok
    | lost => exact alikeApplied_retval hr c.tcp _
    | dup => exact alikeApplied_some (t := { s with storedRegs := some c.regs }) hr _
    | netpart => exact alikeApplied_retval (t := { s with netPartition := true }) hr c.tcp (-1)
    | numInjectEvents => exact alikeApplied_some hr _

/-! ## One call -/

/-- The switch leaves the shared memory alone. -/
theorem applyEvent_shared {t : InjectorState} {c : Call} {kind : FileKind} {length : UInt64}
    {errorCodes : List Int64} {ev : Option InjectEvent} {tcp : Tcb}
    (h : applyEvent s c kind length errorCodes ev = some (t, tcp)) : t.shared = s.shared := by
  -- all faults that return a value go through `injectRetval`
  have hretval : ∀ (s₀ : InjectorState) (rval : Int64),
      injectRetval s₀ c.tcp rval = some (t, tcp) → t.shared = s₀.shared := by
    intro s₀ rval h
    rw [injectRetval, Option.map_eq_some_iff] at h
    obtain ⟨slot, -, heq⟩ := h
    obtain ⟨rfl, -⟩ := Prod.mk.inj heq
    rfl
  cases ev with
  | none =>
    obtain ⟨rfl, -⟩ := Prod.mk.inj (Option.some.inj h)
    rfl
  | some ev =>
    cases ev with
    | delay =>
      rw [applyEvent, injectDelay, Option.map_eq_some_iff] at h
      obtain ⟨slot, -, heq⟩ := h
      obtain ⟨rfl, -⟩ := Prod.mk.inj heq
      rfl
    | fail =>
      rw [applyEvent, injectFail] at h
      split at h
      · exact hretval _ _ h
      · exact hretval { s with random := s.random.getRandomUint8.2 } _ h
    | lost => exact hretval _ _ h
    | dup =>
      obtain ⟨rfl, -⟩ := Prod.mk.inj (Option.some.inj h)
      rfl
    | netpart => exact hretval { s with netPartition := true } _ h
    | numInjectEvents =>
      obtain ⟨rfl, -⟩ := Prod.mk.inj (Option.some.inj h)
      rfl

/-- The injector with the choice made. -/
def chosen (s : InjectorState) (kind : FileKind) (isSend : Bool) : InjectorState :=
  { s with
    random := (chooseEvent isSend kind s.random s.netPartition).random
    netPartition := (chooseEvent isSend kind s.random s.netPartition).netPartition }

/-- The event that was chosen. -/
def chosenEvent (s : InjectorState) (c : Call) (kind : FileKind) (isSend : Bool) :
    Option InjectEvent :=
  (chooseEvent isSend kind s.random s.netPartition).event c.pastEvents

/-- The two ends of an injection: the table the event needs is full and the tracer
dies, or the event is recorded. -/
theorem injectFault_cases (s : InjectorState) (c : Call) (kind : FileKind) (isSend : Bool)
    (length : UInt64) (errorCodes : List Int64) :
    (applyEvent (chosen s kind isSend) c kind length errorCodes (chosenEvent s c kind isSend)
        = none ∧
      injectFault s c kind isSend length errorCodes =
        ⟨{ chosen s kind isSend with died := true }, c.tcp,
          .died ⟨isSend, kind.isFile, true,
            (chooseEvent isSend kind s.random s.netPartition).index,
            chosenEvent s c kind isSend⟩⟩) ∨
    ∃ t tcp, applyEvent (chosen s kind isSend) c kind length errorCodes
        (chosenEvent s c kind isSend) = some (t, tcp) ∧
      injectFault s c kind isSend length errorCodes =
        exitEvent t tcp length ⟨isSend, kind.isFile, true,
          (chooseEvent isSend kind s.random s.netPartition).index,
          chosenEvent s c kind isSend⟩ := by
  generalize hres : injectFault s c kind isSend length errorCodes = res
  unfold injectFault at hres
  dsimp only at hres
  split at hres
  · next happ => exact .inl ⟨happ, hres.symm⟩
  · next t tcp happ => exact .inr ⟨t, tcp, happ, hres.symm⟩

theorem alike_injectFault (hT : Records T) (hr : S.rel s.random r) (hsh : T s.shared sh)
    (c : Call) (kind : FileKind) (isSend : Bool) (length : UInt64) (errorCodes : List Int64)
    (hok : S.ok (injectFault s c kind isSend length errorCodes).injector.random) :
    AlikeHandled S T (injectFault s c kind isSend length errorCodes)
      (injectFault (s.beside r sh) c kind isSend length errorCodes) := by
  have hends := injectFault_cases s c kind isSend length errorCodes
  -- the choice reads no further than the whole injection
  have hchosen : S.ok (chosen s kind isSend).random := by
    rcases hends with ⟨-, heq⟩ | ⟨t, tcp, happ, heq⟩
    · rw [heq] at hok
      exact hok
    · rw [heq] at hok
      exact S.ok_of_reads (applyEvent_frame happ).2.2.2 hok
  obtain ⟨hindex, hnet, hrandom⟩ := chooseEvent_alike hr isSend kind s.netPartition hchosen
  have hbeside : chosen (s.beside r sh) kind isSend = (chosen s kind isSend).beside
      (chooseEvent isSend kind r s.netPartition).random sh := by
    show InjectorState.mk _ _ _ _ _ _ _ _ = _
    rw [show (s.beside r sh).netPartition = s.netPartition from rfl,
      show (s.beside r sh).random = r from rfl, hnet]
    rfl
  have hevent : chosenEvent (s.beside r sh) c kind isSend = chosenEvent s c kind isSend := by
    show Choice.event (chooseEvent isSend kind r s.netPartition) c.pastEvents = _
    rw [Choice.event, hindex]
    rfl
  have happlied : AlikeApplied S sh
      (applyEvent (chosen s kind isSend) c kind length errorCodes (chosenEvent s c kind isSend))
      (applyEvent (chosen (s.beside r sh) kind isSend) c kind length errorCodes
        (chosenEvent (s.beside r sh) c kind isSend)) := by
    rw [hbeside, hevent]
    refine alikeApplied_applyEvent hrandom c kind length errorCodes _ fun p hp => ?_
    rcases hends with ⟨hnone, -⟩ | ⟨t, tcp, hsome, heq⟩
    · rw [hnone] at hp
      cases hp
    · obtain rfl := Option.some.inj (hsome.symm.trans hp)
      rw [heq] at hok
      exact hok
  obtain ⟨r₂, happ, hrel⟩ := happlied
  have hindex' : (chooseEvent isSend kind (s.beside r sh).random
      (s.beside r sh).netPartition).index = _ := hindex
  -- both tracers die, or both record the event
  rcases hends with ⟨hnone, heq⟩ | ⟨t, tcp, hsome, heq⟩ <;>
    rcases injectFault_cases (s.beside r sh) c kind isSend length errorCodes with
      ⟨hnone', heq'⟩ | ⟨t', tcp', hsome', heq'⟩
  · rw [heq, heq', hevent, hindex', hbeside]
    exact ⟨.beside hrandom hsh, rfl, rfl⟩
  · rw [hnone, hsome'] at happ
    cases happ
  · rw [hsome, hnone'] at happ
    cases happ
  · rw [hsome, hsome'] at happ
    obtain ⟨hstate, htcp⟩ := Prod.mk.inj (Option.some.inj happ)
    rw [heq, heq', hevent, hindex', hstate, htcp]
    refine alike_exitEvent hT (hrel _ hsome) ?_ tcp length _
    rw [applyEvent_shared hsome]
    exact hsh

theorem alike_decideFault (hT : Records T) (hr : S.rel s.random r) (hsh : T s.shared sh)
    (env : InjectorEnv) (c : Call) (kind : FileKind) (isSend : Bool) (length : UInt64)
    (errorCodes : List Int64)
    (hok : S.ok (decideFault env s c kind isSend length errorCodes).injector.random) :
    AlikeHandled S T (decideFault env s c kind isSend length errorCodes)
      (decideFault env (s.beside r sh) c kind isSend length errorCodes) := by
  cases hno : env.noFault with
  | true =>
    rw [decideFault, decideFault, if_pos hno, if_pos hno]
    exact alike_exitEvent hT hr hsh c.tcp length _
  | false =>
    have hno' : ¬env.noFault = true := by rw [hno]; exact Bool.false_ne_true
    rw [decideFault, if_neg hno'] at hok
    rw [decideFault, decideFault, if_neg hno', if_neg hno']
    dsimp only at hok ⊢
    -- the first byte is read in any case, so it is in the common part
    have hfirst : S.ok s.random.getRandomUint8.2 := by
      split at hok
      · exact hok
      · exact S.ok_of_reads (injectFault_frame { s with random := s.random.getRandomUint8.2 } c kind
          isSend length errorCodes).1 hok
    obtain ⟨hbyte, hnext⟩ := S.uint8 hr hfirst
    rw [show (s.beside r sh).random = r from rfl, hbyte]
    split at hok
    · next hlt =>
      rw [if_pos hlt, if_pos hlt]
      exact alike_exitEvent (s := { s with random := s.random.getRandomUint8.2 }) hT hnext hsh
        c.tcp length _
    · next hge =>
      rw [if_neg hge, if_neg hge]
      exact alike_injectFault (s := { s with random := s.random.getRandomUint8.2 }) hT hnext hsh
        c kind isSend length errorCodes hok

/-- **One call.** `dst_fuzz_syscall_enter` keeps two injectors alike and decides the
same about the call, if the first has not left the part of its stream that the two
have in common. -/
theorem alike_enter (hT : Records T) (ha : Alike S T s s') (env : InjectorEnv) (c : Call)
    (hok : S.ok (dstFuzzSyscallEnter env s c).injector.random) :
    AlikeHandled S T (dstFuzzSyscallEnter env s c) (dstFuzzSyscallEnter env s' c) := by
  obtain @⟨r, sh, hr, hsh⟩ := ha
  cases hsys : syscallKind c.tcp.scno with
  | none =>
    rw [dstFuzzSyscallEnter, dstFuzzSyscallEnter, hsys]
    exact ⟨.beside hr hsh, rfl, rfl⟩
  | some ds =>
    obtain ⟨isSend, source⟩ := ds
    rw [dstFuzzSyscallEnter, hsys] at hok
    rw [dstFuzzSyscallEnter, dstFuzzSyscallEnter, hsys]
    dsimp only at hok ⊢
    rw [handleRandomEvent] at hok
    rw [handleRandomEvent, handleRandomEvent]
    rw [show (s.beside r sh).died = s.died from rfl,
      show (s.beside r sh).storedRegs = s.storedRegs from rfl]
    -- the early returns do not look at the stream
    by_cases hdied : s.died = true
    · rw [if_pos hdied, if_pos hdied]
      exact ⟨.beside hr hsh, rfl, rfl⟩
    · rw [if_neg hdied] at hok
      rw [if_neg hdied, if_neg hdied]
      cases hregs : s.storedRegs with
      | some regs => exact ⟨.beside hr hsh, rfl, rfl⟩
      | none =>
        rw [hregs] at hok
        cases hscr : screen env c with
        | none => exact ⟨.beside hr hsh, rfl, rfl⟩
        | some kind =>
          rw [hscr] at hok
          exact alike_decideFault hT hr hsh env c kind isSend _ _ hok

/-! ## One stop of a tracee -/

/-- The half with another injector in it. -/
def Half.over (h : Half) (inj : InjectorState) : Half := { h with injector := inj }

/-- A part of strace that neither reads nor writes the injector, so that it may be run beside any
other injector with the same effect on the tracee. -/
def Quiet (f : Half → Half) : Prop := ∀ h inj, f (h.over inj) = (f h).over inj

theorem Quiet.injector {f : Half → Half} (hf : Quiet f) (h : Half) :
    (f h).injector = h.injector := by
  have hself := hf h h.injector
  rw [show h.over h.injector = h from rfl] at hself
  rw [hself]
  rfl

theorem Quiet.comp {f g : Half → Half} (hg : Quiet g) (hf : Quiet f) : Quiet (g ∘ f) :=
  fun h inj => by rw [Function.comp_apply, hf, hg, Function.comp_apply]

/-- A choice by what is in the trace control block. -/
theorem Quiet.ite {f g : Half → Half} (hf : Quiet f) (hg : Quiet g) (p : Tcb → Bool) :
    Quiet fun h => if p h.tcp then f h else g h := by
  intro h inj
  show (if p h.tcp then f (h.over inj) else g (h.over inj)) = _
  rw [hf, hg]
  exact (apply_ite (Half.over · inj) (p h.tcp = true) (f h) (g h)).symm

theorem quiet_id : Quiet id := fun _ _ => rfl

theorem quiet_write (w : Writer) (f : Tcb → UInt32 → UInt32) :
    Quiet fun h => h.write w (f h.tcp) := fun _ _ => rfl

theorem quiet_decode (stop : SyscallStop) : Quiet (syscallEnteringDecode · stop) :=
  fun _ _ => rfl

theorem quiet_revealExec (stop : SyscallStop) : Quiet (revealExec · stop) := by
  intro h inj
  cases hhide : h.tcp.has tcbHideLog with
  | false =>
    have hhide' : (h.over inj).tcp.has tcbHideLog = false := hhide
    simp only [revealExec, hhide, hhide', Bool.false_eq_true, if_false]
  | true =>
    have hhide' : (h.over inj).tcp.has tcbHideLog = true := hhide
    simp only [revealExec, hhide, hhide', if_true]
    cases stop.isExec with
    | false => rfl
    | true => rfl

theorem quiet_tamper (stop : SyscallStop) : Quiet (tamperWithSyscallEntering · stop) := by
  intro h inj
  dsimp only
  unfold tamperWithSyscallEntering
  rw [show (h.over inj).tcp = h.tcp from rfl]
  split
  · rfl
  · split
    · rfl
    · rfl

theorem quiet_exiting (stop : SyscallStop) : Quiet (traceExiting · stop) := by
  have hdecode : Quiet syscallExitingDecode :=
    (quiet_write .syscallExitingDecode fun _ => (· ||| tcbHideLog)).ite quiet_id
      fun tcp => !tcp.has tcbFiltered && tcp.has tcbCheckExecSyscall
  have htamper : Quiet fun h =>
      if h.tcp.has (tcbTampered ||| tcbInjectDelayExit ||| tcbInjectPokeExit) then
        h.write .syscallExitingTrace (· ||| tamperExitingFlags h.tcp stop)
      else h :=
    (quiet_write .syscallExitingTrace fun tcp => (· ||| tamperExitingFlags tcp stop)).ite quiet_id
      fun tcp => tcp.has (tcbTampered ||| tcbInjectDelayExit ||| tcbInjectPokeExit)
  have hprint : Quiet fun h =>
      if stop.resumed || h.tcp.has tcbReprint then
        h.write .syscallExitingTrace (· &&& ~~~tcbReprint)
      else h :=
    (quiet_write .syscallExitingTrace fun _ => (· &&& ~~~tcbReprint)).ite quiet_id
      fun tcp => stop.resumed || tcp.has tcbReprint
  have htrace : Quiet fun h =>
      if !h.tcp.has tcbFiltered && stop.resultRead then syscallExitingTrace h stop else h :=
    (hprint.comp htamper).ite quiet_id fun tcp => !tcp.has tcbFiltered && stop.resultRead
  -- the registers that are set at the end are no part of the half
  have hfinish : Quiet fun h => (syscallExitingFinish h stop.call.regs).1 :=
    quiet_write .syscallExitingFinish fun _ => (· &&& ~~~(tcbInsyscall ||| tcbTampered |||
      tcbInjectDelayExit ||| tcbInjectPokeExit ||| tcbTamperedDelayed ||| tcbTamperedPoked))
  exact hfinish.comp (htrace.comp hdecode)

/-! ## Where the injector is called -/

variable (S T) in
/-- Two halves that are the same but for injectors that are alike. -/
inductive AlikeHalf (h : Half) : Half → Prop where
  | over {inj : InjectorState} (ha : Alike S T h.injector inj) : AlikeHalf h (h.over inj)

theorem AlikeHalf.quiet {h h' : Half} (ha : AlikeHalf S T h h') {f : Half → Half}
    (hf : Quiet f) : AlikeHalf S T (f h) (f h') := by
  obtain ⟨hinj⟩ := ha
  rw [hf]
  refine .over ?_
  rw [hf.injector]
  exact hinj

theorem Alike.died (ha : Alike S T s s') : s'.died = s.died := by
  obtain ⟨-, -⟩ := ha
  rfl

theorem Alike.shared (ha : Alike S T s s') : T s.shared s'.shared := by
  obtain ⟨-, hsh⟩ := ha
  exact hsh

theorem AlikeHalf.injector {h h' : Half} (ha : AlikeHalf S T h h') :
    Alike S T h.injector h'.injector := by
  obtain ⟨hinj⟩ := ha
  exact hinj

theorem AlikeHalf.died {h h' : Half} (ha : AlikeHalf S T h h') :
    h'.injector.died = h.injector.died := ha.injector.died

theorem AlikeHalf.tcp {h h' : Half} (ha : AlikeHalf S T h h') : h'.tcp = h.tcp := by
  obtain ⟨-⟩ := ha
  rfl

theorem alikeHalf_fuzzSyscallEnter (hT : Records T) {h h' : Half} (ha : AlikeHalf S T h h')
    (env : InjectorEnv) (stop : SyscallStop)
    (hok : S.ok (fuzzSyscallEnter env h stop).injector.random) :
    AlikeHalf S T (fuzzSyscallEnter env h stop) (fuzzSyscallEnter env h' stop) := by
  obtain @⟨inj, hinj⟩ := ha
  obtain ⟨hres, htcp, -⟩ := alike_enter hT hinj env { stop.call with tcp := h.tcp } hok
  have heq : fuzzSyscallEnter env (h.over inj) stop = (fuzzSyscallEnter env h stop).over
      (dstFuzzSyscallEnter env inj { stop.call with tcp := h.tcp }).injector := by
    rw [fuzzSyscallEnter, fuzzSyscallEnter, Half.over, Half.over]
    dsimp only at htcp ⊢
    rw [htcp]
  rw [heq]
  exact .over hres

/-- The stream after the injection is the one the whole entering half ends with. -/
theorem alikeHalf_enteringTrace (hT : Records T) {h h' : Half} (ha : AlikeHalf S T h h')
    (env : InjectorEnv) (stop : SyscallStop)
    (hok : S.ok (syscallEnteringTrace env h stop).injector.random) :
    AlikeHalf S T (syscallEnteringTrace env h stop) (syscallEnteringTrace env h' stop) := by
  have hreveal := ha.quiet (quiet_revealExec stop)
  rw [syscallEnteringTrace] at hok
  rw [syscallEnteringTrace, syscallEnteringTrace]
  dsimp only at hok ⊢
  rw [hreveal.tcp]
  by_cases hfilter : isFiltered (revealExec h stop).tcp stop = true
  · rw [if_pos hfilter, if_pos hfilter]
    exact hreveal.quiet (quiet_write _ fun _ => _)
  · rw [if_neg hfilter] at hok
    rw [if_neg hfilter, if_neg hfilter]
    have hclear := hreveal.quiet (quiet_write .syscallEnteringTrace fun _ => (· &&& ~~~tcbFiltered))
    -- what follows the injector does not draw
    have hentered : S.ok (fuzzSyscallEnter env
        ((revealExec h stop).write .syscallEnteringTrace (· &&& ~~~tcbFiltered))
        stop).injector.random := by
      split at hok
      · exact hok
      · split at hok
        · rwa [(quiet_tamper stop).injector] at hok
        · exact hok
    have hfuzz := alikeHalf_fuzzSyscallEnter hT hclear env stop hentered
    rw [hfuzz.died, hfuzz.tcp]
    split
    · exact hfuzz
    · split
      · exact hfuzz.quiet (quiet_tamper stop)
      · exact hfuzz

theorem alikeHalf_traceSyscall (hT : Records T) {h h' : Half} (ha : AlikeHalf S T h h')
    (env : InjectorEnv) (stop : SyscallStop)
    (hok : S.ok (traceSyscall env h stop).injector.random) :
    AlikeHalf S T (traceSyscall env h stop) (traceSyscall env h' stop) := by
  rw [traceSyscall] at hok
  rw [traceSyscall, traceSyscall, ha.tcp]
  cases hent : h.tcp.entering with
  | false => exact ha.quiet (quiet_exiting stop)
  | true =>
    have hfinish : Quiet syscallEnteringFinish :=
      quiet_write .syscallEnteringFinish fun _ => (· ||| tcbInsyscall)
    have hdecode := ha.quiet (quiet_decode stop)
    rw [if_pos hent, traceEntering] at hok
    rw [if_pos rfl, if_pos rfl, traceEntering, traceEntering]
    dsimp only at hok ⊢
    -- only a call that was decoded reaches the injector
    cases hstop : stop.decoded with
    | bailOut => exact hdecode
    | error => exact hdecode.quiet hfinish
    | ok =>
      rw [hstop] at hok
      dsimp only at hok ⊢
      have hrandom : S.ok
          (syscallEnteringTrace env (syscallEnteringDecode h stop) stop).injector.random := by
        split at hok
        · exact hok
        · rwa [hfinish.injector] at hok
      have htrace := alikeHalf_enteringTrace hT hdecode env stop hrandom
      rw [htrace.died]
      split
      · exact htrace
      · exact htrace.quiet hfinish

theorem alikeHalf_stopBeforeExecve (hT : Records T) {h h' : Half} (ha : AlikeHalf S T h h')
    (env : InjectorEnv) (stop : SyscallStop)
    (hok : S.ok (stopBeforeExecve env h stop).injector.random) :
    AlikeHalf S T (stopBeforeExecve env h stop) (stopBeforeExecve env h' stop) := by
  have hclear := ha.quiet
    (quiet_write .dispatchEvent fun _ => (· &&& ~~~tcbCheckExecSyscall))
  rw [stopBeforeExecve] at hok
  rw [stopBeforeExecve, stopBeforeExecve]
  dsimp only at hok ⊢
  rw [hclear.tcp]
  split at hok
  · next hent =>
    rw [if_pos hent, if_pos hent]
    have hrecover := hclear.quiet (quiet_write .dispatchEvent fun _ => (· ||| tcbRecovering))
    have hdone : Quiet fun h => h.write .dispatchEvent (· &&& ~~~tcbRecovering) :=
      quiet_write .dispatchEvent fun _ => (· &&& ~~~tcbRecovering)
    have hrandom : S.ok (traceSyscall env ((h.write .dispatchEvent
        (· &&& ~~~tcbCheckExecSyscall)).write .dispatchEvent (· ||| tcbRecovering))
        stop).injector.random := by
      split at hok
      · exact hok
      · exact hok
    have htrace := alikeHalf_traceSyscall hT hrecover env stop hrandom
    rw [htrace.died]
    split
    · exact htrace
    · exact htrace.quiet hdone
  · next hexit =>
    rw [if_neg hexit, if_neg hexit]
    exact hclear

theorem alikeHalf_handleTcb (hT : Records T) {h h' : Half} (ha : AlikeHalf S T h h')
    (env : InjectorEnv) (input : StraceInput)
    (hok : S.ok (handleTcb env h input).injector.random) :
    AlikeHalf S T (handleTcb env h input) (handleTcb env h' input) := by
  cases input with
  | attach => exact ha
  | drop => exact ha
  | syscallStop tid stop => exact alikeHalf_traceSyscall hT ha env stop hok
  | execveStop tid stop => exact alikeHalf_stopBeforeExecve hT ha env stop hok
  | event tid e => exact ha.quiet (quiet_write .dispatchEvent fun _ => e.flags)

/-! ## A strace process -/

variable (S T) in
/-- Two strace processes with injectors that are alike and the same tracees. -/
structure AlikeStrace (s s' : Strace) : Prop where
  injector : Alike S T s.injector s'.injector
  tcbs : s'.tcbs = s.tcbs

/-- **One input of a strace process.** Two processes that are alike stay alike, if the
first has not left the part of its stream that the two have in common. -/
theorem alike_stepStrace (hT : Records T) {s s' : Strace} (ha : AlikeStrace S T s s')
    (env : InjectorEnv) (input : StraceInput)
    (hok : S.ok (stepStrace env s input).injector.random) :
    AlikeStrace S T (stepStrace env s input) (stepStrace env s' input) := by
  cases hdied : s.injector.died with
  | true =>
    have hdied' : s'.injector.died = true := ha.injector.died.trans hdied
    unfold stepStrace
    rw [if_pos hdied, if_pos hdied']
    exact ha
  | false =>
    have hdied' : s'.injector.died = false := ha.injector.died.trans hdied
    -- a tracee that stops is found on both sides or on none
    have hstop : (∀ tid flags, input ≠ .attach tid flags) → (∀ tid, input ≠ .drop tid) →
        AlikeStrace S T (stepStrace env s input) (stepStrace env s' input) := by
      intro hthere hdrop
      have htcbs : s'.tcbs input.tid = s.tcbs input.tid := by rw [ha.tcbs]
      cases htcp : s.tcbs input.tid with
      | none =>
        rw [stepStrace_missing input htcp hthere hdrop,
          stepStrace_missing input (htcbs.trans htcp) hthere hdrop]
        exact ha
      | some tcp =>
        rw [stepStrace_handled input hdied htcp hthere hdrop] at hok ⊢
        rw [stepStrace_handled input hdied' (htcbs.trans htcp) hthere hdrop]
        have hstart : AlikeHalf S T ⟨s.injector, tcp, []⟩ ⟨s'.injector, tcp, []⟩ :=
          .over ha.injector
        have hhalf := alikeHalf_handleTcb hT hstart env input hok
        refine ⟨hhalf.injector, ?_⟩
        rw [Strace.after, Strace.after, hhalf.tcp, ha.tcbs]
    cases input with
    | attach tid flags =>
      rw [stepStrace, stepStrace, hdied, hdied', ha.tcbs]
      exact ⟨ha.injector, rfl⟩
    | drop tid =>
      rw [stepStrace, stepStrace, hdied, hdied', ha.tcbs]
      exact ⟨ha.injector, rfl⟩
    | syscallStop => exact hstop nofun nofun
    | execveStop => exact hstop nofun nofun
    | event => exact hstop nofun nofun

end Alike

end DistFuzz.Injector
