import DistFuzz.Injector.Event

/-!
# Fault decoding and the event table (strace/src/dst_fuzz.c:315–395)

`events` has four entries, but the byte that picks one is reduced modulo
`NUM_INJECT_EVENTS`, an enumerator that counts `NETPART` as well: for a send on
a socket the index may be `4`, one past the end of the table. Everywhere else
the index is below `2`.

- `EventOk`: the index lies in the table, the event is one of its entries, and
  only sends on sockets lose or duplicate.
- `PastTable`: the kind of call that goes wrong, in terms of the state before it
  and the next two bytes of the random file.
- `decodeOk_iff`: one call, outside a partition; `decode_iff`: whole runs.
  A run that never goes past the table never starts a partition either, since
  only `case NETPART` does.
-/

namespace DistFuzz.Injector

open DistFuzz.Lib

/-- One syscall-enter stop. -/
def stepInjector (env : InjectorEnv) (s : InjectorState) (c : Call) : InjectorState :=
  (dstFuzzSyscallEnter env s c).injector

/-- A decision that stays in the table. -/
structure EventOk (r : EventRecord) : Prop where
  index_lt : ∀ i, r.index = some i → i < events.length
  mem_events : ∀ ev, r.injected = some ev → ev ∈ events
  only_sends : r.injected = some .lost ∨ r.injected = some .dup →
    r.isSend = true ∧ r.isFile = false

/-- The call at hand is decided within the table, if it is decided at all. -/
def DecodeOk (env : InjectorEnv) (s : InjectorState) (c : Call) : Prop :=
  ∀ r, (dstFuzzSyscallEnter env s c).outcome.event? = some r → EventOk r

/-- A send on a socket that is not exempt, met by a fault byte and then by a
byte that is `4` modulo `5`. -/
structure PastTable (env : InjectorEnv) (s : InjectorState) (c : Call) : Prop where
  alive : s.died = false
  notPending : s.storedRegs = none
  send : ∃ source, syscallKind c.tcp.scno = some (true, source)
  socket : ∃ kind, screen env c = some kind ∧ kind.isFile = false
  faults : env.noFault = false
  faultByte : 50 ≤ s.random.getRandomUint8.1
  eventByte : s.random.getRandomUint8.2.getRandomUint8.1.toNat % 5 = 4

/-- Outside a partition one byte picks the event. -/
theorem chooseEvent_calm (isSend : Bool) (kind : FileKind) (r : RandomFile) :
    chooseEvent isSend kind r false =
      ⟨some (drawIndex isSend kind.isFile r), r.getRandomUint8.2, false⟩ := rfl

/-- An index inside the table gives an entry of it. -/
theorem event_of_lt {ch : Choice} {i : Nat} (hi : ch.index = some i) (hlt : i < events.length)
    (past : Option InjectEvent) : ch.event past = some events[i] := by
  rw [Choice.event, hi]
  exact dif_pos hlt

/-- A drawn index in the table makes a decision that is in order. -/
theorem eventOk_of_lt {isSend : Bool} {kind : FileKind} {r : RandomFile}
    (hlt : drawIndex isSend kind.isFile r < events.length) (past : Option InjectEvent) :
    EventOk { isSend := isSend, isFile := kind.isFile, faultInjected := true,
              index := (chooseEvent isSend kind r false).index,
              injected := (chooseEvent isSend kind r false).event past } := by
  have hev : (chooseEvent isSend kind r false).event past
      = some events[drawIndex isSend kind.isFile r] := event_of_lt rfl hlt past
  refine { index_lt := fun i hi => ?_, mem_events := fun ev h => ?_, only_sends := fun h => ?_ }
  · rw [chooseEvent_calm] at hi
    obtain rfl := Option.some.inj hi
    exact hlt
  · rw [hev] at h
    obtain rfl := Option.some.inj h
    exact List.getElem_mem hlt
  · -- an index below two is `DELAY` or `FAIL`, so the whole table was in reach
    by_contra hno
    have hsize : supportedEventSize isSend kind.isFile = 2 := by
      rw [supportedEventSize]
      cases isSend <;> cases hf : kind.isFile <;> simp_all
    have h2 : drawIndex isSend kind.isFile r < 2 := by
      rw [drawIndex, hsize]
      exact Nat.mod_lt _ (by omega)
    simp only [hev, Option.some.injEq] at h
    generalize drawIndex isSend kind.isFile r = i at hlt h2 h
    obtain rfl | rfl : i = 0 ∨ i = 1 := by omega
    · simp [events] at h
    · simp [events] at h

/-- A call that draws past the table is decided by the entry after the last. -/
theorem not_decodeOk_of_pastTable {env : InjectorEnv} {s : InjectorState} {c : Call}
    (hnet : s.netPartition = false) (hpast : PastTable env s c) : ¬DecodeOk env s c := by
  intro hok
  obtain ⟨source, hsys⟩ := hpast.send
  obtain ⟨kind, hscr, hfile⟩ := hpast.socket
  have henter := enter_of_drawn hpast.alive hpast.notPending hsys hscr hpast.faults
    hpast.faultByte
  rw [if_pos rfl] at henter
  have hev := injectFault_event { s with random := s.random.getRandomUint8.2 } c kind true
    (callLength c source) writeErrorCodes
  rw [← henter] at hev
  have hidx := (hok _ hev).index_lt 4 ?_
  · simp [events] at hidx
  · show (chooseEvent true kind s.random.getRandomUint8.2 s.netPartition).index = some 4
    rw [hnet, chooseEvent_calm, drawIndex, hfile]
    exact congrArg some hpast.eventByte

/-- Only a send on a socket has five candidates, one more than the table. -/
theorem drawIndex_lt {isSend isFile : Bool} {r : RandomFile}
    (h : isSend = true → isFile = false → r.getRandomUint8.1.toNat % 5 ≠ 4) :
    drawIndex isSend isFile r < events.length := by
  rw [drawIndex, supportedEventSize]
  show _ < 4
  cases isSend with
  | false =>
    simp only [Bool.not_false, Bool.true_or, if_true]
    omega
  | true =>
    cases isFile with
    | true =>
      simp only [Bool.or_true, if_true]
      omega
    | false =>
      have hne := h rfl rfl
      show r.getRandomUint8.1.toNat % 5 < 4
      omega

/-- **One call outside a partition** is decided within the table exactly when
it does not draw past it. -/
theorem decodeOk_iff {env : InjectorEnv} {s : InjectorState} {c : Call}
    (hnet : s.netPartition = false) : DecodeOk env s c ↔ ¬PastTable env s c := by
  refine ⟨fun hok hpast => not_decodeOk_of_pastTable hnet hpast hok, ?_⟩
  intro hpast r hr
  rcases enter_cases env s c with h | ⟨regs, -, -, -, h⟩ | ⟨s', kind, isSend, source, -, h⟩ |
    ⟨kind, isSend, source, hregs, hdied, hsys, hscr, hno, hb, h⟩
  · rw [h] at hr
    cases hr
  · rw [h] at hr
    cases hr
  · -- no fault, so neither an index nor an event
    rw [h] at hr
    obtain rfl := Option.some.inj hr
    refine { index_lt := fun i hi => ?_, mem_events := fun ev h => ?_, only_sends := fun h => ?_ }
    · cases hi
    · cases h
    · simp at h
  · rw [h, injectFault_event] at hr
    obtain rfl := Option.some.inj hr
    dsimp only
    rw [hnet]
    refine eventOk_of_lt (drawIndex_lt fun hsend hf h4 => ?_) c.pastEvents
    exact hpast ⟨hdied, hregs, ⟨source, hsend ▸ hsys⟩, ⟨kind, hscr, hf⟩, hno, hb, h4⟩

/-- A call decided within the table does not start a partition. -/
theorem step_calm {env : InjectorEnv} {s : InjectorState} {c : Call}
    (hnet : s.netPartition = false) (hok : DecodeOk env s c) :
    (stepInjector env s c).netPartition = false := by
  rw [stepInjector]
  rcases enter_cases env s c with h | ⟨regs, -, -, -, h⟩ | ⟨s', kind, isSend, source, hs', h⟩ |
    ⟨kind, isSend, source, -, -, -, -, -, -, h⟩
  · rw [h]
    exact hnet
  · rw [h]
    exact hnet
  · rw [h]
    show s'.netPartition = false
    rcases hs' with rfl | rfl <;> exact hnet
  · have hev := injectFault_event { s with random := s.random.getRandomUint8.2 } c kind
      isSend (callLength c source) (if isSend then writeErrorCodes else readErrorCodes)
    rw [← h] at hev
    -- `NETPART` is not in the table, so the event that was picked is another one
    have hmem := (hok _ hev).mem_events .netpart
    rw [h, (injectFault_frame _ _ _ _ _ _).2 fun hnp => by simpa [events] using hmem hnp]
    show (chooseEvent isSend kind s.random.getRandomUint8.2 s.netPartition).netPartition
      = false
    rw [hnet, chooseEvent_calm]

/-- **Fault decoding**: a run from a fresh injector stays in the event table at
every call, and only ever injects what its entries say, if and only if none of
its calls is a send on a socket that draws past the table. -/
theorem decode_iff (env : InjectorEnv) (file : List UInt8) (hashEnv : HashEnv)
    (shared : Shared) (calls : List Call) :
    Steps (stepInjector env) (DecodeOk env) (.init file hashEnv shared) calls
      ↔ Steps (stepInjector env) (fun s c => ¬PastTable env s c)
          (.init file hashEnv shared) calls :=
  steps_congr (fun s => s.netPartition = false) (fun _ _ hnet => decodeOk_iff hnet)
    (fun _ _ hnet hok => step_calm hnet hok) rfl

/-- A `sendto` of eight bytes on the socket at descriptor `3`. -/
def socketSend : Call :=
  { tcp := ⟨1, 44, fun i => if i.val = 0 then 3 else if i.val = 2 then 8 else 0, 0, 0, none⟩
    isFuzzing := true
    filePath := some "socket:[1]".toList
    regs := { UserRegs.zero with origRax := 44, rdi := 3, rdx := 8 }
    mem := fun _ => 0
    pastEvents := none }

/-- A random file that starts with the bytes `200` and `4` makes the first send
on a socket read `events[4]`. -/
theorem socketSend_past_table :
    ¬Steps (stepInjector ⟨false, none⟩) (DecodeOk ⟨false, none⟩)
      (.init [200, 4] ⟨false, 0⟩ ⟨fun _ => 0, 0⟩) [socketSend] := by
  intro h
  have hpast : PastTable ⟨false, none⟩ (.init [200, 4] ⟨false, 0⟩ ⟨fun _ => 0, 0⟩) socketSend :=
    { alive := rfl
      notPending := rfl
      send := ⟨.arg, rfl⟩
      socket := ⟨⟨false, false⟩, by decide, rfl⟩
      faults := rfl
      faultByte := by decide
      eventByte := by decide }
  exact (decodeOk_iff rfl).mp h.1 hpast

end DistFuzz.Injector
