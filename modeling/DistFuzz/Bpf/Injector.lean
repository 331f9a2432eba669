import DistFuzz.CoverageMap
import Mathlib.Data.List.Infix
import Mathlib.Logic.Function.Basic

/-!
# The BPF injector

`dst_fuzz_fault` traces a node with kernel probes instead of ptrace. Its BPF half
(dst_fuzz_fault.bpf.c, utils.h) decides at `open` which files to target, notes the
descriptor at the return of `open` and `socket`, and at every read, write, send and
receive takes fault bits for the descriptors it noted.

- `strEqual`, `strContains`, `getBit`: utils.h.
- `Config`, `Bss`: what `main` writes before the run, and what the probes change.
- `recordCoverage`, `filterByFilename`, `recordFd`, `handleEvents`: the four
  functions the probes are made of.
- `sysOpen`, `sysOpenExit`, `sysSocketExit`, `sysTransfer`: the probes.
- `strEqual_iff_mod`, `strContains_iff_mod`: what the two loops find, with the sizes the
  masks leave; `strContains_iff`: on a path that fits the buffer, `str_contains` is the
  substring test.
-/

namespace DistFuzz.Bpf

/-! ### Strings and bits (utils.h) -/

/-- A `char *`: the bytes from the pointer on. -/
abbrev Memory := Nat → UInt8

/-- The bytes of a string literal. -/
def bytes (s : String) : List UInt8 := s.toList.map fun c => UInt8.ofNat c.toNat

/-- The memory at a C string: its bytes, the NUL, and what follows it. -/
def cString (l rest : List UInt8) : Memory := fun i => (l ++ 0 :: rest).getD i 0

/-- The loop of `str_equal` with `left` turns to go. -/
def strEqualLoop (cs ct : Memory) : (left len : Nat) → Bool
  | 0, _ => true
  | left + 1, len =>
    if cs len ≠ ct len then false
    else if cs len = 0 then true
    else strEqualLoop cs ct left (len + 1)

/-- `str_equal`. -/
def strEqual (cs ct : Memory) (size : Nat) : Bool := strEqualLoop cs ct (size &&& 0xffff) 0

/-- The loop of `str_contains` with `left` turns to go. -/
def strContainsLoop (str pattern : Memory) (patternSize : Nat) : (left index : Nat) → Bool
  | 0, _ => false
  | left + 1, index =>
    if str index = 0 then false
    else if strEqual (fun i => str (index + i)) pattern patternSize then true
    else strContainsLoop str pattern patternSize left (index + 1)

/-- `str_contains`. -/
def strContains (str pattern : Memory) (strSize patternSize : Nat) : Bool :=
  strContainsLoop str pattern patternSize ((strSize - patternSize) &&& 0xffff) 0

/-- `get_bit`: past the end of the array every bit is 0. -/
def getBit (array : Memory) (arraySize : Nat) (bitIndex : UInt32) : Bool :=
  let charIndex := bitIndex.toNat / 8
  if charIndex < arraySize then
    (array charIndex >>> UInt8.ofNat (bitIndex.toNat % 8)) &&& 1 ≠ 0
  else false

/-! ### The state of the probes -/

/-- `SHOULD_RECORD_SIZE`. -/
def shouldRecordSize : Nat := 103

/-- `FD_SIZE`. -/
def fdSize : Nat := 103

/-- `FUZZ_BYTES_SIZE`. -/
def fuzzBytesSize : Nat := 1024 * 1024

/-- What `main` (dst_fuzz_fault.c) writes before the program runs. -/
structure Config where
  /-- `pid`: what `fork` returned. -/
  pid : UInt32
  /-- `fuzz_bytes`. -/
  fuzzBytes : Memory
  /-- `node_id`. -/
  nodeId : UInt32

/-- What the probes change. -/
structure Bss where
  /-- `should_record`: an `open` to note is under way, by process id. -/
  shouldRecord : Fin shouldRecordSize → UInt8
  /-- `record_fds`: the descriptor is noted. -/
  recordFds : Fin fdSize → UInt64
  /-- `fuzz_bit_index`. -/
  fuzzBitIndex : UInt32
  /-- `fuzz_coverage_map`. -/
  fuzzCoverageMap : CovMap
  /-- `event_index`. -/
  eventIndex : UInt64

/-- The `.bss` as loaded. -/
def Bss.init : Bss where
  shouldRecord := fun _ => 0
  recordFds := fun _ => 0
  fuzzBitIndex := 0
  fuzzCoverageMap := fun _ => 0
  eventIndex := 0

/-- The ids the kernel helpers give for the task that hit a probe. -/
structure Task where
  /-- `bpf_get_ns_current_pid_tgid`, if it succeeds: `ns.pid` and `ns.tgid`. -/
  ns : Option (UInt32 × UInt32)
  /-- `bpf_get_current_pid_tgid() >> 32`. -/
  tgid : UInt32
  /-- `(u32) bpf_get_current_pid_tgid()`. -/
  tid : UInt32
deriving DecidableEq

/-- `is_current_pid_or_tgid`. -/
def isCurrentPidOrTgid (pid : UInt32) (task : Task) : Bool :=
  (match task.ns with
    | some (nsPid, nsTgid) => nsPid == pid || nsTgid == pid
    | none => false)
    || task.tgid == pid || task.tid == pid

/-! ### The functions of the probes -/

/-- A cell, 0 outside of the map. -/
def cell (m : CovMap) (i : UInt64) : UInt8 :=
  if h : i.toNat < mapSize then m ⟨i.toNat, h⟩ else 0

/-- The `hash_value` that `record_coverage` increments: the event's own, or a
neighbour in use. -/
def hashValue (cfg : Config) (b : Bss) (isSend : Bool) (length : Int32) (fd : UInt32)
    (faultInjected : Bool) : UInt64 :=
  let size := UInt64.ofNat mapSize
  let hash :=
    ((b.eventIndex + length.toInt64.toUInt64 + (fd * 97).toUInt64 + (cfg.nodeId * 100).toUInt64
      + (if isSend then 10 else 0)) <<< (if faultInjected then 1 else 0)) % size
  let hash := if 0 < cell b.fuzzCoverageMap (hash - 1) then (hash - 1) % size else hash
  if 0 < cell b.fuzzCoverageMap (hash + 1) then (hash + 1) % size else hash

/-- `record_coverage`. -/
def recordCoverage (cfg : Config) (b : Bss) (isSend : Bool) (length : Int32) (fd : UInt32)
    (faultInjected : Bool) : Bss :=
  let hash := hashValue cfg b isSend length fd faultInjected
  { b with
    fuzzCoverageMap :=
      if h : hash.toNat < mapSize then incr b.fuzzCoverageMap ⟨hash.toNat, h⟩
      else b.fuzzCoverageMap
    eventIndex := b.eventIndex + 1 }

/-- The patterns of `filter_by_filename` with the sizes it passes, in its order. -/
def excluded : List (String × Nat) :=
  [(".o", 2), (".so", 3), (".cfg", 4), ("lib", 3), ("/sys", 4), ("/proc", 5), ("/dev", 4),
    (".pro", 4), (".jar", 4), ("/var", 4), ("tmp", 3)]

/-- `current_pid % SHOULD_RECORD_SIZE`. -/
def recordSlot (tgid : UInt32) : Fin shouldRecordSize :=
  ⟨tgid.toNat % shouldRecordSize, Nat.mod_lt _ (by decide)⟩

/-- `(unsigned long)ret % FD_SIZE`. -/
def fdSlot (ret : Int64) : Fin fdSize :=
  ⟨ret.toUInt64.toNat % fdSize, Nat.mod_lt _ (by decide)⟩

/-- `filter_by_filename` on the 256 bytes it read. -/
def filterByFilename (b : Bss) (tgid : UInt32) (fname : Memory) : Bss :=
  if excluded.any fun p => strContains fname (cString (bytes p.1) []) 256 p.2 then b
  else if fname 0 ≠ 0 then
    { b with shouldRecord := Function.update b.shouldRecord (recordSlot tgid) 1 }
  else b

/-- `record_fd`. -/
def recordFd (b : Bss) (tgid : UInt32) (ret : Int64) : Bss :=
  if b.shouldRecord (recordSlot tgid) ≠ 0 then
    let b := { b with shouldRecord := Function.update b.shouldRecord (recordSlot tgid) 0 }
    if 0 < ret then { b with recordFds := Function.update b.recordFds (fdSlot ret) 1 } else b
  else b

/-- What becomes of a call. -/
inductive Injection where
  | none
  /-- `bpf_override_return(ctx, -1)`. -/
  | fault
  /-- The `bpf_loop`. -/
  | delay
deriving DecidableEq

/-- `fd < FD_SIZE && record_fds[fd]`. -/
def recorded (b : Bss) (fd : UInt32) : Bool :=
  if h : fd.toNat < fdSize then b.recordFds ⟨fd.toNat, h⟩ ≠ 0 else false

/-- `get_bit(fuzz_bytes, FUZZ_BYTES_SIZE, fuzz_bit_index++)`. -/
def nextBit (cfg : Config) (b : Bss) : Bool × Bss :=
  (getBit cfg.fuzzBytes fuzzBytesSize b.fuzzBitIndex,
    { b with fuzzBitIndex := b.fuzzBitIndex + 1 })

/-- `handle_events`. -/
def handleEvents (cfg : Config) (b : Bss) (isSend : Bool) (length : Int32) (fd : UInt32) :
    Injection × Bss :=
  if recorded b fd then
    let (inject, b) := nextBit cfg b
    if inject then
      let (fail, b) := nextBit cfg b
      (if fail then .fault else .delay, recordCoverage cfg b isSend length fd true)
    else (.none, recordCoverage cfg b isSend length fd false)
  else (.none, recordCoverage cfg b isSend length fd false)

/-! ### The probes -/

/-- `kprobe/__x64_sys_open`, `openat` and `openat2`. -/
def sysOpen (cfg : Config) (b : Bss) (task : Task) (fname : Memory) : Bss :=
  if isCurrentPidOrTgid cfg.pid task then filterByFilename b task.tgid fname else b

/-- `kretprobe/__x64_sys_open`, `openat` and `openat2`. -/
def sysOpenExit (cfg : Config) (b : Bss) (task : Task) (ret : Int64) : Bss :=
  if isCurrentPidOrTgid cfg.pid task then recordFd b task.tgid ret else b

/-- `kretprobe/__x64_sys_socket`: unlike `record_fd`, whatever the call returned. -/
def sysSocketExit (cfg : Config) (b : Bss) (task : Task) (ret : Int64) : Bss :=
  if isCurrentPidOrTgid cfg.pid task then
    { b with recordFds := Function.update b.recordFds (fdSlot ret) 1 }
  else b

/-- The calls with a `handle_events` probe. -/
inductive TransferCall where
  | write | writev | pwritev | pwritev2
  | read | readv | preadv | preadv2
  | recv | recvfrom | recvmsg | recvmmsg
  | send | sendto | sendmsg | sendmmsg
deriving DecidableEq

/-- The `is_send` a probe passes. -/
def TransferCall.isSend : TransferCall → Bool
  | .write | .writev | .pwritev | .pwritev2 => true
  | .read | .readv | .preadv | .preadv2 => false
  | .recv | .recvfrom | .recvmsg | .recvmmsg => false
  | .send | .sendto | .sendmsg | .sendmmsg => true

/-- The probe of a transfer. The length is what the probe read off its own
registers, the call's or (under a syscall wrapper) not. -/
def sysTransfer (cfg : Config) (b : Bss) (task : Task) (call : TransferCall) (length : Int32)
    (fd : UInt32) : Injection × Bss :=
  if isCurrentPidOrTgid cfg.pid task then handleEvents cfg b call.isSend length fd
  else (.none, b)

/-! ### What the functions keep and change -/

@[simp] theorem recordCoverage_recordFds (cfg : Config) (b : Bss) (isSend : Bool) (length : Int32)
    (fd : UInt32) (faultInjected : Bool) :
    (recordCoverage cfg b isSend length fd faultInjected).recordFds = b.recordFds := by
  simp only [recordCoverage]

@[simp] theorem recordCoverage_shouldRecord (cfg : Config) (b : Bss) (isSend : Bool)
    (length : Int32) (fd : UInt32) (faultInjected : Bool) :
    (recordCoverage cfg b isSend length fd faultInjected).shouldRecord = b.shouldRecord := by
  simp only [recordCoverage]

@[simp] theorem recordCoverage_fuzzBitIndex (cfg : Config) (b : Bss) (isSend : Bool)
    (length : Int32) (fd : UInt32) (faultInjected : Bool) :
    (recordCoverage cfg b isSend length fd faultInjected).fuzzBitIndex = b.fuzzBitIndex := by
  simp only [recordCoverage]

/-- A transfer notes no descriptor. -/
theorem handleEvents_keeps (cfg : Config) (b : Bss) (isSend : Bool) (length : Int32)
    (fd : UInt32) :
    (handleEvents cfg b isSend length fd).2.recordFds = b.recordFds
      ∧ (handleEvents cfg b isSend length fd).2.shouldRecord = b.shouldRecord := by
  unfold handleEvents nextBit
  dsimp only
  split_ifs <;> simp only [recordCoverage_recordFds, recordCoverage_shouldRecord, and_self]

/-- A transfer takes fault bits, and may be tampered with, exactly on a noted
descriptor. -/
theorem handleEvents_takes_iff (cfg : Config) (b : Bss) (isSend : Bool) (length : Int32)
    (fd : UInt32) :
    ((handleEvents cfg b isSend length fd).2.fuzzBitIndex ≠ b.fuzzBitIndex
        ∨ (handleEvents cfg b isSend length fd).1 ≠ .none)
      ↔ recorded b fd = true := by
  -- one or two bits further is never back at the same index, modulo 2 ^ 32
  have h1 : b.fuzzBitIndex + 1 ≠ b.fuzzBitIndex := by simp
  unfold handleEvents nextBit
  by_cases hrec : recorded b fd = true
  · refine iff_of_true ?_ hrec
    rw [if_pos hrec]
    dsimp only
    by_cases hbit : getBit cfg.fuzzBytes fuzzBytesSize b.fuzzBitIndex = true
    · rw [if_pos hbit]
      refine Or.inr ?_
      dsimp only
      split_ifs <;> decide
    · rw [if_neg hbit]
      exact Or.inl h1
  · refine iff_of_false ?_ hrec
    rw [if_neg hrec]
    simp

theorem filterByFilename_recordFds (b : Bss) (tgid : UInt32) (fname : Memory) :
    (filterByFilename b tgid fname).recordFds = b.recordFds := by
  unfold filterByFilename
  split_ifs <;> rfl

/-- An empty name raises no flag. -/
theorem filterByFilename_empty {b : Bss} {tgid : UInt32} {fname : Memory} (h : fname 0 = 0) :
    filterByFilename b tgid fname = b := by
  unfold filterByFilename
  split_ifs with hany hne
  · rfl
  · exact absurd h hne
  · rfl

/-- `record_fd` notes the descriptor's slot when the flag is up and the call
succeeded, and takes the flag down. -/
theorem recordFd_recordFds (b : Bss) (tgid : UInt32) (ret : Int64) :
    (recordFd b tgid ret).recordFds
      = if b.shouldRecord (recordSlot tgid) ≠ 0 ∧ 0 < ret
        then Function.update b.recordFds (fdSlot ret) 1 else b.recordFds := by
  unfold recordFd
  by_cases hflag : b.shouldRecord (recordSlot tgid) = 0
  · simp [hflag]
  · by_cases hret : 0 < ret <;> simp [hflag, hret]

theorem recordFd_flag (b : Bss) (tgid : UInt32) (ret : Int64) :
    (recordFd b tgid ret).shouldRecord (recordSlot tgid) = 0 := by
  unfold recordFd
  dsimp only
  split_ifs with hflag hret
  · exact Function.update_self ..
  · exact Function.update_self ..
  · exact not_not.mp hflag

/-! ### The substring test -/

theorem strEqualLoop_iff {cs ct : Memory} {left len : Nat}
    (hct : ∀ i, i < left → ct (len + i) ≠ 0) :
    strEqualLoop cs ct left len = true ↔ ∀ i, i < left → cs (len + i) = ct (len + i) := by
  induction left generalizing len with
  | zero => simp [strEqualLoop]
  | succ left ih =>
    -- the pattern has no NUL, so the loop only leaves at a difference
    have h0 : ct len ≠ 0 := hct 0 (Nat.succ_pos left)
    have hrest : ∀ i, i < left → ct (len + 1 + i) ≠ 0 := by
      intro i hi
      rw [Nat.add_assoc, Nat.add_comm 1]
      exact hct (i + 1) (Nat.succ_lt_succ hi)
    rw [strEqualLoop]
    by_cases hne : cs len = ct len
    · rw [if_neg (not_not.mpr hne), if_neg (hne ▸ h0), ih hrest]
      constructor
      · intro h i hi
        cases i with
        | zero => exact hne
        | succ i =>
          have hi' := h i (Nat.lt_of_succ_lt_succ hi)
          rwa [Nat.add_assoc, Nat.add_comm 1] at hi'
      · intro h i hi
        rw [Nat.add_assoc, Nat.add_comm 1]
        exact h (i + 1) (Nat.succ_lt_succ hi)
    · rw [if_pos hne]
      exact iff_of_false Bool.false_ne_true fun h => hne (h 0 (Nat.succ_pos left))

theorem strContainsLoop_iff {str pattern : Memory} {patternSize left index : Nat} :
    strContainsLoop str pattern patternSize left index = true
      ↔ ∃ k, k < left ∧ (∀ j, j ≤ k → str (index + j) ≠ 0)
          ∧ strEqual (fun i => str (index + k + i)) pattern patternSize = true := by
  induction left generalizing index with
  | zero => simp [strContainsLoop]
  | succ left ih =>
    rw [strContainsLoop]
    by_cases hnul : str index = 0
    · rw [if_pos hnul]
      refine iff_of_false Bool.false_ne_true ?_
      rintro ⟨k, -, hk, -⟩
      exact hk 0 (Nat.zero_le k) hnul
    · rw [if_neg hnul]
      by_cases heq : strEqual (fun i => str (index + i)) pattern patternSize = true
      · rw [if_pos heq]
        refine iff_of_true rfl ⟨0, Nat.succ_pos left, ?_, heq⟩
        intro j hj
        obtain rfl := Nat.le_zero.mp hj
        exact hnul
      · rw [if_neg heq, ih]
        constructor
        · rintro ⟨k, hk, hstr, hpat⟩
          refine ⟨k + 1, Nat.succ_lt_succ hk, ?_, ?_⟩
          · intro j hj
            cases j with
            | zero => exact hnul
            | succ j =>
              have hj' := hstr j (Nat.le_of_succ_le_succ hj)
              rwa [Nat.add_assoc, Nat.add_comm 1] at hj'
          · rwa [Nat.add_assoc index, Nat.add_comm 1] at hpat
        · rintro ⟨k, hk, hstr, hpat⟩
          cases k with
          | zero => exact absurd hpat heq
          | succ k =>
            refine ⟨k, Nat.lt_of_succ_lt_succ hk, ?_, ?_⟩
            · intro j hj
              rw [Nat.add_assoc, Nat.add_comm 1]
              exact hstr (j + 1) (Nat.succ_le_succ hj)
            · rwa [Nat.add_assoc index, Nat.add_comm 1]

theorem cString_of_lt {l rest : List UInt8} {i : Nat} (h : i < l.length) :
    cString l rest i = l[i] := by
  unfold cString
  rw [List.getD_eq_getElem?_getD, List.getElem?_append_left h, List.getElem?_eq_getElem h,
    Option.getD_some]

theorem cString_length (l rest : List UInt8) : cString l rest l.length = 0 := by
  unfold cString
  rw [List.getD_eq_getElem?_getD, List.getElem?_append_right le_rfl, Nat.sub_self,
    List.getElem?_cons_zero, Option.getD_some]

theorem cString_ne_zero {l : List UInt8} (rest : List UInt8) (hl : 0 ∉ l) {i : Nat}
    (h : i < l.length) : cString l rest i ≠ 0 := by
  rw [cString_of_lt h]
  intro h0
  exact hl (h0 ▸ List.getElem_mem h)

/-- What lies before the first NUL lies inside the string. -/
theorem lt_length_of_ne_zero {l : List UInt8} (rest : List UInt8) {k : Nat}
    (h : ∀ j, j ≤ k → cString l rest j ≠ 0) : k < l.length := by
  by_contra hk
  exact h l.length (Nat.le_of_not_lt hk) (cString_length l rest)

/-- The mask that keeps the verifier happy. -/
theorem and_mask_eq_mod (n : Nat) : n &&& 0xffff = n % 2 ^ 16 := by
  rw [show (0xffff : Nat) = 2 ^ 16 - 1 from rfl, Nat.and_two_pow_sub_one_eq_mod]

/-- `str_equal` compares as many bytes of a pattern without a NUL as the mask leaves. -/
theorem strEqual_iff_mod {cs : Memory} {pat : List UInt8} (hpat : 0 ∉ pat) :
    strEqual cs (cString pat []) pat.length = true
      ↔ ∀ i, i < pat.length % 2 ^ 16 → cs i = cString pat [] i := by
  have hle := Nat.mod_le pat.length (2 ^ 16)
  have hne : ∀ i, i < pat.length % 2 ^ 16 → cString pat [] (0 + i) ≠ 0 := by
    intro i hi
    rw [Nat.zero_add]
    exact cString_ne_zero [] hpat (by omega)
  rw [strEqual, and_mask_eq_mod, strEqualLoop_iff hne]
  simp only [Nat.zero_add]

/-- `str_contains` looks for these bytes at as many positions as the mask leaves, up to the
first NUL. -/
theorem strContains_iff_mod {str : Memory} {pat : List UInt8} (hpat : 0 ∉ pat) (size : Nat) :
    strContains str (cString pat []) size pat.length = true
      ↔ ∃ k, k < (size - pat.length) % 2 ^ 16 ∧ (∀ j, j ≤ k → str j ≠ 0) ∧
          ∀ i, i < pat.length % 2 ^ 16 → str (k + i) = cString pat [] i := by
  rw [strContains, and_mask_eq_mod, strContainsLoop_iff]
  simp only [Nat.zero_add, strEqual_iff_mod hpat]

/-- A pattern without a NUL that is found before the first NUL lies inside the
string. -/
theorem match_in_string {path rest pat : List UInt8} {k : Nat} (hpat : 0 ∉ pat)
    (hstr : ∀ j, j ≤ k → cString path rest j ≠ 0)
    (hmatch : ∀ i, i < pat.length → cString path rest (k + i) = cString pat [] i) {i : Nat}
    (hi : i < pat.length) : k + i < path.length := by
  refine lt_length_of_ne_zero rest fun j hj => ?_
  by_cases hjk : j ≤ k
  · exact hstr j hjk
  · obtain ⟨d, rfl⟩ := Nat.exists_eq_add_of_le (Nat.le_of_not_le hjk)
    have hd : d < pat.length := by omega
    rw [hmatch d hd]
    exact cString_ne_zero [] hpat hd

/-- On a path that fits the buffer with its NUL, `str_contains` is the substring
test. -/
theorem strContains_iff {path rest pat : List UInt8} (hpath : 0 ∉ path)
    (hfit : path.length < 256) (hpat : 0 ∉ pat) (hpos : 0 < pat.length)
    (hsize : pat.length < 256) :
    strContains (cString path rest) (cString pat []) 256 pat.length = true ↔ pat <:+: path := by
  -- neither size is cut
  rw [strContains_iff_mod hpat, Nat.mod_eq_of_lt (by omega), Nat.mod_eq_of_lt (by omega),
    List.infix_iff_getElem?]
  constructor
  · rintro ⟨k, -, hstr, hmatch⟩
    have hin := fun i hi => match_in_string (i := i) hpat hstr hmatch hi
    refine ⟨k, ?_, fun i hi => ?_⟩
    · have hlast := hin (pat.length - 1) (by omega)
      omega
    · have hki := hin i hi
      rw [Nat.add_comm i, List.getElem?_eq_getElem hki, ← cString_of_lt hki, hmatch i hi,
        cString_of_lt hi]
  · rintro ⟨k, hk, hmatch⟩
    refine ⟨k, by omega, fun j hj => ?_, fun i hi => ?_⟩
    · exact cString_ne_zero rest hpath (by omega)
    · have hki : k + i < path.length := by omega
      have hat := hmatch i hi
      rw [Nat.add_comm i, List.getElem?_eq_getElem hki, Option.some.injEq] at hat
      rw [cString_of_lt hki, hat, cString_of_lt hi]

/-! ### The filter -/

/-- The path contains none of the excluded substrings. -/
def PathOk (path : List UInt8) : Prop := ∀ p ∈ excluded, ¬bytes p.1 <:+: path

instance (path : List UInt8) : Decidable (PathOk path) :=
  inferInstanceAs (Decidable (∀ p ∈ excluded, ¬bytes p.1 <:+: path))

/-- Every pattern is passed with its own length and has no NUL. -/
theorem excluded_sizes : ∀ p ∈ excluded,
    p.2 = (bytes p.1).length ∧ 0 ∉ bytes p.1 ∧ 0 < (bytes p.1).length
      ∧ (bytes p.1).length < 256 := by
  decide

/-- A path that fits the buffer raises the flag only if it is not excluded. -/
theorem filterByFilename_flag {b : Bss} {tgid : UInt32} {path rest : List UInt8}
    (hpath : 0 ∉ path) (hfit : path.length < 256)
    (h : (filterByFilename b tgid (cString path rest)).shouldRecord (recordSlot tgid) ≠ 0) :
    b.shouldRecord (recordSlot tgid) ≠ 0 ∨ PathOk path := by
  unfold filterByFilename at h
  split_ifs at h with hany hempty
  · exact Or.inl h
  · refine Or.inr fun p hp hin => hany ?_
    obtain ⟨hlen, hnul, hpos, hsize⟩ := excluded_sizes p hp
    rw [List.any_eq_true]
    refine ⟨p, hp, ?_⟩
    rw [hlen]
    exact (strContains_iff hpath hfit hnul hpos hsize).mpr hin
  · exact Or.inl h

end DistFuzz.Bpf
