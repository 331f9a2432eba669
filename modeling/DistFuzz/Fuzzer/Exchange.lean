import Mathlib.Data.List.Perm.Basic
import Mathlib.Data.List.TakeWhile
import DistFuzz.Lib.Runs
import DistFuzz.Fuzzer.Interesting

/-!
# Exchanging seeds (Synchronize.cpp:6–133)

Fuzzers that run in parallel take over each other's seeds. `SychronizeFuzzer` goes through
the queue directory of every other fuzzer, reads the number at the front of each file name
and executes the files that are new. A file of its own for each peer holds the number from
which on they are new: one more than the largest that was seen.

- `scanId`: `sscanf(…, "%06u", …)`; `scanFile`, `syncPeer`, `sychronizeFuzzer`: the code.
- `firstSix`: the first six digits of a number; `scanId_file`: this is what is read from the
  name of an entry, as the name has all the digits and the format takes six.
- `Above`: what the number kept for a peer says about the entries seen.
- `exchange_round`: what one round imports; `exactlyOnce_iff`: when every entry is imported
  once and no more than once.
-/

namespace DistFuzz.Fuzzer

open DistFuzz.Lib

/-! ## The code -/

/-- `isspace`. -/
def isSpace (c : Char) : Bool := c == ' ' || (9 ≤ c.toNat && c.toNat ≤ 13)

/-- `strtoul` on the at most six characters that `%06u` takes. -/
def scanField : List Char → Option UInt32
  | '-' :: field => number (field.takeWhile Char.isDigit) fun v => 0 - v
  | '+' :: field => number (field.takeWhile Char.isDigit) id
  | field => number (field.takeWhile Char.isDigit) id
where
  number (digits : List Char) (sign : UInt32 → UInt32) : Option UInt32 :=
    if digits = [] then none
    else some (sign (UInt32.ofNat (Nat.ofDigitChars 10 digits 0)))

/-- `sscanf(name, "%06u", &syncing_id)`, if it returns 1. -/
def scanId (name : String) : Option UInt32 :=
  scanField ((name.toList.dropWhile isSpace).take 6)

/-- A file of a queue directory; `mem` is missing if it cannot be opened. -/
structure QueueFile where
  name : String
  mem : Option (List UInt8)
deriving DecidableEq, Repr

/-- `MAX_FILE_LEN`. -/
def maxSyncLen : Nat := 1 * 1024 * 1024

/-- `next_min_accept`, and the files that were executed and given to `AddInterestingSeed`. -/
structure Scan where
  nextMinAccept : UInt32
  imported : List QueueFile

/-- `st.st_size && st.st_size <= MAX_FILE_LEN`, of a file that can be opened. -/
def QueueFile.fits (f : QueueFile) : Bool :=
  f.mem.any fun mem => mem.length ≠ 0 && mem.length ≤ maxSyncLen

/-- The loop over the files of a queue. -/
def scanFile (minAccept : UInt32) (s : Scan) (f : QueueFile) : Scan :=
  if f.name.toList.head? = some '.' then s
  else
    match scanId f.name with
    | none => s
    | some syncingId =>
      if syncingId < minAccept then s
      else
        { nextMinAccept :=
            if syncingId ≥ s.nextMinAccept then syncingId + 1 else s.nextMinAccept
          imported := if f.fits then s.imported ++ [f] else s.imported }

/-- `scandir(…, alphasort)`. -/
def scandir (queue : List QueueFile) : List QueueFile :=
  queue.mergeSort fun a b => decide (a.name ≤ b.name)

/-- What a fuzzer has taken over: the number in `.synced/<peer>`, 0 if there is none, and the
files, each with the peer it is from. -/
structure Synced where
  minAccept : String → UInt32
  imports : List (String × QueueFile)

/-- The body of the loop over the peers. -/
def syncPeer (s : Synced) (peer : String) (queue : List QueueFile) : Synced :=
  let minAccept := s.minAccept peer
  let scan := (scandir queue).foldl (scanFile minAccept) ⟨minAccept, []⟩
  { minAccept := Function.update s.minAccept peer scan.nextMinAccept
    imports := s.imports ++ scan.imported.map fun f => (peer, f) }

/-- An entry of the synchronisation directory, and the files of its `queue` directory if it
has one. -/
structure PeerDir where
  name : String
  queue : Option (List QueueFile)

/-- `SychronizeFuzzer`. -/
def sychronizeFuzzer (syncid : String) (dirs : List PeerDir) (s : Synced) : Synced :=
  dirs.foldl (fun s d =>
    if d.name.toList.head? = some '.' ∨ d.name = syncid then s
    else
      match d.queue with
      | none => s
      | some queue => syncPeer s d.name queue) s

/-! ## The numbers in the names -/

/-- A number without its digits after the sixth. -/
def firstSix (n : Nat) : Nat := if n < 10 ^ 6 then n else firstSix (n / 10)

theorem firstSix_of_lt {n : Nat} (h : n < 10 ^ 6) : firstSix n = n := by
  rw [firstSix, if_pos h]

theorem firstSix_lt (n : Nat) : firstSix n < 10 ^ 6 := by
  induction n using firstSix.induct with
  | case1 n h => rwa [firstSix_of_lt h]
  | case2 n h ih => rwa [firstSix, if_neg h]

theorem toList_pushn (s : String) (c : Char) (n : Nat) :
    (s.pushn c n).toList = s.toList ++ List.replicate n c := by
  induction n with
  | zero => exact (List.append_nil _).symm
  | succ n ih =>
    show ((s.pushn c n).push c).toList = _
    rw [String.toList_push, ih, List.append_assoc, ← List.replicate_succ']

/-- The digits of a number, with zeros in front up to six. -/
def sixPadded (n : Nat) : List Char :=
  List.replicate (6 - (Nat.toDigits 10 n).length) '0' ++ Nat.toDigits 10 n

theorem toList_num2strKeep6bit (num : UInt32) :
    (num2strKeep6bit num).toList = sixPadded num.toNat := by
  have hdigits : (toString num.toNat).toList = Nat.toDigits 10 num.toNat := by
    rw [Nat.toString_eq_ofList_toDigits, String.toList_ofList]
  rw [num2strKeep6bit, String.toList_append, toList_pushn, hdigits, ← String.length_toList,
    hdigits, sixPadded]
  rfl

theorem six_le_length_sixPadded (n : Nat) : 6 ≤ (sixPadded n).length := by
  rw [sixPadded, List.length_append, List.length_replicate]
  omega

theorem isDigit_of_mem_sixPadded {n : Nat} {c : Char} (h : c ∈ sixPadded n) : c.isDigit = true := by
  rcases List.mem_append.mp h with hzero | hdigit
  · rw [List.eq_of_mem_replicate hzero]
    rfl
  · exact Nat.isDigit_of_mem_toDigits (by decide) (by decide) hdigit

theorem ofDigitChars_sixPadded (n : Nat) : Nat.ofDigitChars 10 (sixPadded n) 0 = n := by
  rw [sixPadded, Nat.ofDigitChars_append, Nat.ofDigitChars_replicate_zero, Nat.mul_zero,
    Nat.ofDigitChars_ten_toDigits]

theorem sixPadded_of_le {n : Nat} (h : 10 ^ 5 ≤ n) : sixPadded n = Nat.toDigits 10 n := by
  have hlen := (Nat.length_toDigits_le_iff (n := n) (k := 5) (by decide : 1 < 10) (by decide)).not
  have hsix : 6 - (Nat.toDigits 10 n).length = 0 := by omega
  rw [sixPadded, hsix]
  rfl

/-- The first six characters are those of the first six digits. -/
theorem take_sixPadded (n : Nat) : (sixPadded n).take 6 = sixPadded (firstSix n) := by
  -- over the digits beyond the sixth, which are dropped one by one
  induction n using firstSix.induct with
  | case1 n h =>
    have hlen := (Nat.length_toDigits_le_iff (by decide : 1 < 10) (by decide : 0 < 6)).mpr h
    rw [firstSix_of_lt h, List.take_of_length_le]
    rw [sixPadded, List.length_append, List.length_replicate]
    omega
  | case2 n h ih =>
    have hdiv : 10 ^ 5 ≤ n / 10 := by omega
    rw [firstSix, if_neg h, ← ih, sixPadded_of_le (by omega), sixPadded_of_le hdiv,
      Nat.toDigits_of_base_le (by decide) (by omega), List.take_append_of_le_length]
    rw [← sixPadded_of_le hdiv]
    exact six_le_length_sixPadded _

theorem scanField_of_digits {field : List Char} (hne : field ≠ [])
    (h : ∀ c ∈ field, c.isDigit = true) :
    scanField field = some (UInt32.ofNat (Nat.ofDigitChars 10 field 0)) := by
  have hall : field.takeWhile Char.isDigit = field := List.takeWhile_eq_self_iff.mpr h
  rw [scanField.eq_def]
  split
  · next rest => exact absurd (h '-' List.mem_cons_self) (by decide)
  · next rest => exact absurd (h '+' List.mem_cons_self) (by decide)
  · rw [hall, scanField.number, if_neg hne]
    rfl

/-- An entry of a peer's queue: its number, whether it has new coverage, and the case. -/
structure PeerSeed where
  id : UInt32
  cov : Bool
  mem : List UInt8

/-- Its file, as `AddInterestingSeed` of the peer writes it. -/
def PeerSeed.file (e : PeerSeed) : QueueFile :=
  ⟨num2strKeep6bit e.id ++ (if e.cov then "+cov" else "+tup"), some e.mem⟩

/-- The number that is read from its name. -/
def PeerSeed.readId (e : PeerSeed) : Nat := firstSix e.id.toNat

theorem toList_file (e : PeerSeed) :
    ∃ suffix, e.file.name.toList = sixPadded e.id.toNat ++ '+' :: suffix := by
  rw [PeerSeed.file, String.toList_append, toList_num2strKeep6bit]
  cases e.cov with
  | true => exact ⟨"cov".toList, rfl⟩
  | false => exact ⟨"tup".toList, rfl⟩

theorem sixPadded_eq_cons (n : Nat) : ∃ c rest, sixPadded n = c :: rest ∧ c.isDigit = true := by
  cases h : sixPadded n with
  | nil =>
    have hlen := six_le_length_sixPadded n
    rw [h] at hlen
    exact absurd hlen (by decide)
  | cons c rest => exact ⟨c, rest, rfl, isDigit_of_mem_sixPadded (h ▸ List.mem_cons_self)⟩

theorem isSpace_of_isDigit {c : Char} (h : c.isDigit = true) : isSpace c = false := by
  have hbounds := Char.isDigit_iff_toNat.mp h
  have hzero : '0'.toNat = 48 := rfl
  have hne : (c == ' ') = false := by
    rw [beq_eq_false_iff_ne]
    rintro rfl
    exact absurd h (by decide)
  have hle : decide (c.toNat ≤ 13) = false := decide_eq_false (by omega)
  rw [isSpace, hne, hle, Bool.and_false, Bool.or_false]

/-- **What is read from the name of an entry** are the first six digits of its number. -/
theorem scanId_file (e : PeerSeed) : scanId e.file.name = some (UInt32.ofNat e.readId) := by
  obtain ⟨suffix, hname⟩ := toList_file e
  obtain ⟨c, rest, hcons, hdigit⟩ := sixPadded_eq_cons e.id.toNat
  have hspace := isSpace_of_isDigit hdigit
  -- a digit is no space, so the field of `%06u` starts at the front
  have hfield : (e.file.name.toList.dropWhile isSpace).take 6 = sixPadded e.readId := by
    rw [hname, hcons, List.cons_append, List.dropWhile_cons_of_neg (by rw [hspace]; decide),
      ← List.cons_append, ← hcons, List.take_append_of_le_length (six_le_length_sixPadded _),
      take_sixPadded, PeerSeed.readId]
  have hne : sixPadded e.readId ≠ [] := by
    obtain ⟨c, rest, hcons, -⟩ := sixPadded_eq_cons e.readId
    rw [hcons]
    exact List.cons_ne_nil _ _
  rw [scanId, hfield, scanField_of_digits hne fun c hc => isDigit_of_mem_sixPadded hc,
    ofDigitChars_sixPadded]

theorem head_file (e : PeerSeed) : e.file.name.toList.head? ≠ some '.' := by
  obtain ⟨suffix, hname⟩ := toList_file e
  obtain ⟨c, rest, hcons, hdigit⟩ := sixPadded_eq_cons e.id.toNat
  rw [hname, hcons, List.cons_append, List.head?_cons]
  intro h
  rw [Option.some.inj h] at hdigit
  exact absurd hdigit (by decide)

/-- The name has all the digits. -/
theorem id_eq_of_file_eq {e e' : PeerSeed} (h : e.file = e'.file) : e.id = e'.id := by
  have hdigits : ∀ e : PeerSeed,
      e.file.name.toList.takeWhile Char.isDigit = sixPadded e.id.toNat := by
    intro e
    obtain ⟨suffix, hname⟩ := toList_file e
    rw [hname, List.takeWhile_append_of_pos fun c hc => isDigit_of_mem_sixPadded hc,
      List.takeWhile_cons_of_neg (by decide), List.append_nil]
  have hpadded : sixPadded e.id.toNat = sixPadded e'.id.toNat := by rw [← hdigits, h, hdigits]
  refine UInt32.toNat_inj.mp ?_
  rw [← ofDigitChars_sixPadded e.id.toNat, hpadded, ofDigitChars_sixPadded]

/-! ## One queue -/

theorem toNat_readId (e : PeerSeed) : (UInt32.ofNat e.readId).toNat = e.readId :=
  UInt32.toNat_ofNat_of_lt (Nat.lt_trans (firstSix_lt _) (by decide))

/-- The entry is taken over when the peer's number is `m`. -/
def PeerSeed.isImported (m : UInt32) (e : PeerSeed) : Bool :=
  decide (m.toNat ≤ e.readId) && e.file.fits

/-- **One file**: what is not below the number is taken over, and raises the next one. -/
theorem scanFile_file (m : UInt32) (s : Scan) (e : PeerSeed) :
    (scanFile m s e.file).imported
      = s.imported ++ (if e.isImported m then [e.file] else []) ∧
    (scanFile m s e.file).nextMinAccept.toNat
      = if m.toNat ≤ e.readId then max s.nextMinAccept.toNat (e.readId + 1)
        else s.nextMinAccept.toNat := by
  have hread := toNat_readId e
  have hlt : e.readId < 10 ^ 6 := firstSix_lt _
  have hsucc : (UInt32.ofNat e.readId + 1).toNat = e.readId + 1 := by
    rw [UInt32.toNat_add, hread]
    exact Nat.mod_eq_of_lt (by show e.readId + 1 < _; omega)
  rw [scanFile, if_neg (head_file e), scanId_file]
  dsimp only
  -- by the number kept from the round before
  by_cases hm : m.toNat ≤ e.readId
  · have hnot : ¬UInt32.ofNat e.readId < m := by
      rw [UInt32.lt_iff_toNat_lt, hread]
      omega
    rw [if_neg hnot, if_pos hm, PeerSeed.isImported, decide_eq_true hm, Bool.true_and]
    constructor
    · dsimp only
      split
      · rfl
      · rw [List.append_nil]
    -- the next number is raised only if this one reaches it
    · dsimp only
      split
      · next hge =>
        rw [ge_iff_le, UInt32.le_iff_toNat_le, hread] at hge
        rw [hsucc]
        omega
      · next hge =>
        rw [ge_iff_le, UInt32.le_iff_toNat_le, hread] at hge
        omega
  · have hbelow : UInt32.ofNat e.readId < m := by
      rw [UInt32.lt_iff_toNat_lt, hread]
      omega
    rw [if_pos hbelow, if_neg hm, PeerSeed.isImported, decide_eq_false hm, Bool.false_and]
    exact ⟨(List.append_nil _).symm, rfl⟩

/-- `m` is the first number above those read from these entries: above all of them, and zero or
one more than some. -/
def Above (es : List PeerSeed) (m : Nat) : Prop :=
  (∀ e ∈ es, e.readId < m) ∧ (m = 0 ∨ ∃ e ∈ es, m = e.readId + 1)

theorem Above.le_iff {es : List PeerSeed} {m : Nat} (h : Above es m) (k : Nat) :
    m ≤ k ↔ ∀ e ∈ es, e.readId < k := by
  constructor
  · exact fun hk e he => Nat.lt_of_lt_of_le (h.1 e he) hk
  · intro hk
    rcases h.2 with rfl | ⟨e, he, rfl⟩
    · exact Nat.zero_le k
    · exact hk e he

/-- What the loop makes of the files of these entries. -/
structure Scanned (m : UInt32) (es : List PeerSeed) (s s' : Scan) : Prop where
  imported : s'.imported = s.imported ++ (es.filter (PeerSeed.isImported m)).map PeerSeed.file
  above : ∀ e ∈ es, e.readId < s'.nextMinAccept.toNat
  grows : s.nextMinAccept.toNat ≤ s'.nextMinAccept.toNat
  reached : s'.nextMinAccept.toNat = s.nextMinAccept.toNat ∨
    ∃ e ∈ es, s'.nextMinAccept.toNat = e.readId + 1

/-- **The files of a queue**, one after the other. -/
theorem scan_entries (m : UInt32) (es : List PeerSeed) {s : Scan}
    (hs : m.toNat ≤ s.nextMinAccept.toNat) :
    Scanned m es s ((es.map PeerSeed.file).foldl (scanFile m) s) := by
  -- what was raised so far is part of the statement, so it may be any scan
  induction es generalizing s with
  | nil =>
    exact ⟨(List.append_nil _).symm, fun e he => absurd he List.not_mem_nil, Nat.le_refl _,
      .inl rfl⟩
  | cons e es ih =>
    obtain ⟨himported, hnext⟩ := scanFile_file m s e
    rw [List.map_cons, List.foldl_cons]
    generalize scanFile m s e.file = s₁ at himported hnext
    have hgrows : s.nextMinAccept.toNat ≤ s₁.nextMinAccept.toNat := by
      split at hnext <;> omega
    have habove : e.readId < s₁.nextMinAccept.toNat := by
      split at hnext <;> omega
    have hrest := ih (hs.trans hgrows)
    refine ⟨?_, ?_, hgrows.trans hrest.grows, ?_⟩
    · rw [hrest.imported, himported, List.append_assoc, List.filter_cons]
      split
      · rfl
      · rfl
    · intro e' he'
      rcases List.mem_cons.mp he' with rfl | he'
      · exact Nat.lt_of_lt_of_le habove hrest.grows
      · exact hrest.above e' he'
    -- the last file that raised the number is in the rest, or it is the first one, or there is
    -- none
    · rcases hrest.reached with hsame | ⟨e', he', heq⟩
      · rw [hsame]
        by_cases hraised : s₁.nextMinAccept.toNat = s.nextMinAccept.toNat
        · exact .inl hraised
        · refine .inr ⟨e, List.mem_cons_self, ?_⟩
          split at hnext <;> omega
      · exact .inr ⟨e', List.mem_cons_of_mem _ he', heq⟩

theorem scandir_entries (es : List PeerSeed) :
    ∃ es' : List PeerSeed,
      es'.Perm es ∧ scandir (es.map PeerSeed.file) = es'.map PeerSeed.file := by
  refine ⟨es.mergeSort fun a b => decide (a.file.name ≤ b.file.name), List.mergeSort_perm _ _, ?_⟩
  rw [scandir, List.map_mergeSort]
  exact fun a _ b _ => rfl

/-! ## Rounds -/

/-- The name of another fuzzer. -/
structure Peer (syncid : String) where
  name : String
  not_hidden : name.toList.head? ≠ some '.'
  ne_self : name ≠ syncid

/-- A round: what the peer has appended to its queue since the last one, and the rest of the
synchronisation directory, in which no other entry has the peer's name. -/
structure PeerRound (peer : String) where
  appended : List PeerSeed
  before : List PeerDir
  after : List PeerDir
  elsewhere : ∀ d ∈ before ++ after, d.name ≠ peer

/-- The queue of the peer, and what was taken over. -/
structure Exchange where
  queue : List PeerSeed
  synced : Synced

/-- Both are new. -/
def Exchange.init : Exchange := ⟨[], fun _ => 0, []⟩

section Peer

variable {syncid : String} (peer : Peer syncid)

/-- The peer appends, then `SychronizeFuzzer` runs. -/
def exchangeRound (s : Exchange) (r : PeerRound peer.name) : Exchange :=
  let queue := s.queue ++ r.appended
  ⟨queue, sychronizeFuzzer syncid
    (r.before ++ ⟨peer.name, some (queue.map PeerSeed.file)⟩ :: r.after) s.synced⟩

/-- How often a file of the peer was taken over. -/
def Synced.times (s : Synced) (f : QueueFile) : Nat := s.imports.count (peer.name, f)

/-- Every entry of the peer's queue was taken over exactly once. -/
def ImportedOnce (s : Exchange) : Prop := ∀ e ∈ s.queue, s.synced.times peer e.file = 1

theorem count_map_pair (f : QueueFile) (l : List QueueFile) :
    (l.map fun f => (peer.name, f)).count (peer.name, f) = l.count f :=
  List.count_map_of_injective l _ (fun _ _ h => congrArg Prod.snd h) f

theorem syncPeer_minAccept (s : Synced) (queue : List QueueFile) :
    (syncPeer s peer.name queue).minAccept peer.name
      = ((scandir queue).foldl (scanFile (s.minAccept peer.name))
          ⟨s.minAccept peer.name, []⟩).nextMinAccept := Function.update_self _ _ _

theorem syncPeer_times (s : Synced) (queue : List QueueFile) (f : QueueFile) :
    (syncPeer s peer.name queue).times peer f
      = s.times peer f + ((scandir queue).foldl (scanFile (s.minAccept peer.name))
          ⟨s.minAccept peer.name, []⟩).imported.count f := by
  rw [Synced.times, syncPeer, List.count_append, count_map_pair]
  rfl

/-- The queue of another peer leaves what is kept of this one as it is. -/
theorem syncPeer_other {name : String} (h : name ≠ peer.name) (s : Synced)
    (queue : List QueueFile) :
    (syncPeer s name queue).minAccept peer.name = s.minAccept peer.name ∧
      ∀ f, (syncPeer s name queue).times peer f = s.times peer f := by
  -- what is taken over from another peer bears the name of that one
  have hnone : ∀ (f : QueueFile) (l : List QueueFile),
      (peer.name, f) ∉ l.map fun f => (name, f) := by
    intro f l hmem
    obtain ⟨f', -, heq⟩ := List.mem_map.mp hmem
    exact h (congrArg Prod.fst heq)
  refine ⟨Function.update_of_ne (Ne.symm h) _ _, fun f => ?_⟩
  rw [Synced.times, syncPeer, List.count_append, List.count_eq_zero_of_not_mem (hnone f _),
    Nat.add_zero]
  rfl

theorem sychronizeFuzzer_others {dirs : List PeerDir} (h : ∀ d ∈ dirs, d.name ≠ peer.name)
    (s : Synced) :
    (sychronizeFuzzer syncid dirs s).minAccept peer.name = s.minAccept peer.name ∧
      ∀ f, (sychronizeFuzzer syncid dirs s).times peer f = s.times peer f := by
  induction dirs generalizing s with
  | nil => exact ⟨rfl, fun f => rfl⟩
  | cons d dirs ih =>
    have hrest := ih fun d' hd' => h d' (List.mem_cons_of_mem _ hd')
    rw [sychronizeFuzzer, List.foldl_cons, ← sychronizeFuzzer]
    -- hidden directories and the fuzzer's own are passed over
    split
    · exact hrest s
    · cases d.queue with
      | none => exact hrest s
      | some queue =>
        have hother := syncPeer_other peer (h d List.mem_cons_self) s queue
        have hpeer := hrest (syncPeer s d.name queue)
        exact ⟨hpeer.1.trans hother.1, fun f => (hpeer.2 f).trans (hother.2 f)⟩

variable {peer}

/-- **One queue**: of the entries that were not there before, those that read above the
others are taken over, and the number kept is above them all. -/
theorem syncPeer_entries {s : Synced} {seen : List PeerSeed} (new : List PeerSeed)
    (habove : Above seen (s.minAccept peer.name).toNat) :
    Above (seen ++ new)
      ((syncPeer s peer.name ((seen ++ new).map PeerSeed.file)).minAccept peer.name).toNat ∧
    ∀ f, (syncPeer s peer.name ((seen ++ new).map PeerSeed.file)).times peer f
      = s.times peer f
        + ((new.filter (PeerSeed.isImported (s.minAccept peer.name))).map PeerSeed.file).count
          f := by
  obtain ⟨es, hperm, hsorted⟩ := scandir_entries (seen ++ new)
  have hscan := scan_entries (s.minAccept peer.name) es
    (s := ⟨s.minAccept peer.name, []⟩) (Nat.le_refl _)
  rw [← hsorted] at hscan
  -- what was seen before reads below the number kept, and is not taken over again
  have hold : seen.filter (PeerSeed.isImported (s.minAccept peer.name)) = [] := by
    refine List.filter_eq_nil_iff.mpr fun e he himp => ?_
    rw [PeerSeed.isImported, Bool.and_eq_true, decide_eq_true_iff] at himp
    exact Nat.not_lt.mpr himp.1 (habove.1 e he)
  rw [syncPeer_minAccept]
  -- the files come in the order of `scandir`, which is that of another list of the same entries
  refine ⟨⟨fun e he => hscan.above e (hperm.mem_iff.mpr he), ?_⟩, fun f => ?_⟩
  · rcases hscan.reached with hsame | ⟨e, he, heq⟩
    · rw [hsame]
      refine habove.2.imp_right ?_
      rintro ⟨e, he, heq⟩
      exact ⟨e, List.mem_append_left _ he, heq⟩
    · exact .inr ⟨e, hperm.mem_iff.mp he, heq⟩
  · have hfilter := (hperm.filter (PeerSeed.isImported (s.minAccept peer.name))).map PeerSeed.file
    rw [List.filter_append, hold, List.nil_append] at hfilter
    rw [syncPeer_times, hscan.imported, List.nil_append, hfilter.count_eq]

/-- **One round.** -/
theorem exchange_round {s : Exchange} (r : PeerRound peer.name)
    (habove : Above s.queue (s.synced.minAccept peer.name).toNat) :
    Above (exchangeRound peer s r).queue
      ((exchangeRound peer s r).synced.minAccept peer.name).toNat ∧
    ∀ f, (exchangeRound peer s r).synced.times peer f
      = s.synced.times peer f + ((r.appended.filter
          (PeerSeed.isImported (s.synced.minAccept peer.name))).map PeerSeed.file).count f := by
  have hbefore := sychronizeFuzzer_others peer
    (fun d hd => r.elsewhere d (List.mem_append_left _ hd)) s.synced
  have hafter := sychronizeFuzzer_others peer
    (fun d hd => r.elsewhere d (List.mem_append_right _ hd))
  -- the peer's directory is one among others; those before and after it do not matter
  have hround : (exchangeRound peer s r).synced = sychronizeFuzzer syncid r.after
      (syncPeer (sychronizeFuzzer syncid r.before s.synced) peer.name
        ((s.queue ++ r.appended).map PeerSeed.file)) := by
    have hpeer : ¬(peer.name.toList.head? = some '.' ∨ peer.name = syncid) :=
      not_or.mpr ⟨peer.not_hidden, peer.ne_self⟩
    rw [exchangeRound, sychronizeFuzzer, List.foldl_append, List.foldl_cons, if_neg hpeer]
    rfl
  rw [← hbefore.1] at habove
  have hentries := syncPeer_entries r.appended habove
  rw [hround, (hafter _).1]
  refine ⟨hentries.1, fun f => ?_⟩
  rw [(hafter _).2, hentries.2, hbefore.1, hbefore.2]

/-! ## Exactly once -/

/-- The sizes that `SychronizeFuzzer` takes. -/
def PeerSeed.Fits (e : PeerSeed) : Prop := e.mem.length ≠ 0 ∧ e.mem.length ≤ maxSyncLen

/-- What is appended in a round has a size that is taken, and reads above everything that was
there in an earlier round. -/
def RoundReadsAbove (s : Exchange) (r : PeerRound peer.name) : Prop :=
  ∀ e ∈ r.appended, e.Fits ∧ ∀ e' ∈ s.queue, e'.readId < e.readId

theorem fits_file (e : PeerSeed) : e.file.fits = true ↔ e.Fits := by
  rw [QueueFile.fits, PeerSeed.file, Option.any_some, Bool.and_eq_true, decide_eq_true_iff,
    decide_eq_true_iff, PeerSeed.Fits]

theorem isImported_iff {s : Exchange} (habove : Above s.queue (s.synced.minAccept peer.name).toNat)
    (e : PeerSeed) :
    e.isImported (s.synced.minAccept peer.name) = true
      ↔ e.Fits ∧ ∀ e' ∈ s.queue, e'.readId < e.readId := by
  rw [PeerSeed.isImported, Bool.and_eq_true, decide_eq_true_iff, fits_file, habove.le_iff, and_comm]

theorem nodup_files {es : List PeerSeed} (hids : (es.map PeerSeed.id).Nodup) :
    (es.map PeerSeed.file).Nodup := by
  rw [List.Nodup, List.pairwise_map] at hids ⊢
  exact hids.imp fun hne hfile => hne (id_eq_of_file_eq hfile)

/-- In a list of entries with different numbers, an entry's file is there once. -/
theorem count_file_filter {es : List PeerSeed} (hids : (es.map PeerSeed.id).Nodup)
    (p : PeerSeed → Bool) {e : PeerSeed} (he : e ∈ es) :
    ((es.filter p).map PeerSeed.file).count e.file = 1 ↔ p e = true := by
  -- entries with different numbers have different files, so each is there once or not at all
  have hnodup : ((es.filter p).map PeerSeed.file).Nodup :=
    (nodup_files hids).sublist (List.filter_sublist.map PeerSeed.file)
  have hmem : e.file ∈ (es.filter p).map PeerSeed.file ↔ p e = true := by
    rw [List.mem_map]
    constructor
    · rintro ⟨e', he', hfile⟩
      obtain ⟨he', hp⟩ := List.mem_filter.mp he'
      rwa [← List.inj_on_of_nodup_map hids he' he (id_eq_of_file_eq hfile)]
    · exact fun hp => ⟨e, List.mem_filter.mpr ⟨he, hp⟩, rfl⟩
  rw [← hmem, hnodup.count]
  split
  · next h => exact iff_of_true rfl h
  · next h => exact iff_of_false (by decide) h

variable (peer) in
/-- What holds between two rounds: the number kept is above the entries seen so far, and nothing
was taken over that is not in the peer's queue. -/
structure Exchanging (s : Exchange) : Prop where
  above : Above s.queue (s.synced.minAccept peer.name).toNat
  known : ∀ f, f ∉ s.queue.map PeerSeed.file → s.synced.times peer f = 0

theorem Exchanging.round {s : Exchange} (hs : Exchanging peer s) (r : PeerRound peer.name) :
    Exchanging peer (exchangeRound peer s r) := by
  obtain ⟨habove, htimes⟩ := exchange_round r hs.above
  refine ⟨habove, fun f hf => ?_⟩
  change f ∉ (s.queue ++ r.appended).map PeerSeed.file at hf
  rw [List.map_append, List.mem_append, not_or] at hf
  rw [htimes, hs.known f hf.1, Nat.zero_add, List.count_eq_zero]
  exact fun hmem => hf.2 ((List.filter_sublist.map PeerSeed.file).subset hmem)

/-- **A round keeps it at once for each** entry that was there, and makes it so for the new
ones if and only if they read above those. -/
theorem importedOnce_round {s : Exchange} (hs : Exchanging peer s) (r : PeerRound peer.name)
    (hids : ((s.queue ++ r.appended).map PeerSeed.id).Nodup) :
    ImportedOnce peer (exchangeRound peer s r) ↔ ImportedOnce peer s ∧ RoundReadsAbove s r := by
  obtain ⟨-, htimes⟩ := exchange_round r hs.above
  have hfiles := nodup_files hids
  rw [List.map_append] at hids hfiles
  obtain ⟨-, -, hdisjoint⟩ := List.nodup_append.mp hfiles
  -- an older entry is not among the files taken over now
  have hold : ∀ e ∈ s.queue, (exchangeRound peer s r).synced.times peer e.file
      = s.synced.times peer e.file := by
    intro e he
    rw [htimes, List.count_eq_zero_of_not_mem, Nat.add_zero]
    intro hmem
    exact hdisjoint _ (List.mem_map_of_mem he) _
      ((List.filter_sublist.map PeerSeed.file).subset hmem) rfl
  have hnew : ∀ e ∈ r.appended, (exchangeRound peer s r).synced.times peer e.file = 1
      ↔ e.Fits ∧ ∀ e' ∈ s.queue, e'.readId < e.readId := by
    intro e he
    -- an entry that has just come was never taken over before
    have hunknown : e.file ∉ s.queue.map PeerSeed.file := fun hmem =>
      hdisjoint _ hmem _ (List.mem_map_of_mem he) rfl
    rw [htimes, hs.known _ hunknown, Nat.zero_add,
      count_file_filter (List.nodup_append.mp hids).2.1 _ he, isImported_iff hs.above]
  constructor
  · intro h
    refine ⟨fun e he => ?_, fun e he => ?_⟩
    · rw [← hold e he]
      exact h e (List.mem_append_left _ he)
    · exact (hnew e he).mp (h e (List.mem_append_right _ he))
  · rintro ⟨honce, hreads⟩ e he
    rcases List.mem_append.mp he with he | he
    · rw [hold e he]
      exact honce e he
    · exact (hnew e he).mpr (hreads e he)

theorem importedOnce_run {s : Exchange} (hs : Exchanging peer s)
    {rounds : List (PeerRound peer.name)}
    (hids : ((s.queue ++ rounds.flatMap PeerRound.appended).map PeerSeed.id).Nodup) :
    ImportedOnce peer (run (exchangeRound peer) s rounds)
      ↔ ImportedOnce peer s ∧ Steps (exchangeRound peer) RoundReadsAbove s rounds := by
  -- over the rounds from the first one on; the numbers are different over all of them
  induction rounds generalizing s with
  | nil => exact (and_iff_left trivial).symm
  | cons r rounds ih =>
    rw [List.flatMap_cons, ← List.append_assoc] at hids
    have hround : ((s.queue ++ r.appended).map PeerSeed.id).Nodup := by
      rw [List.map_append] at hids
      exact (List.nodup_append.mp hids).1
    rw [run_cons, ih (hs.round r) hids, importedOnce_round hs r hround, Steps, and_assoc]

theorem exchanging_init : Exchanging peer .init :=
  ⟨⟨fun _ he => absurd he List.not_mem_nil, .inl rfl⟩, fun _ _ => rfl⟩

end Peer

/-- **Exactly-once exchange**: for any rounds in which a peer appends entries with growing
numbers, each entry is taken over exactly once if and only if it has a size that is taken and
the first six digits of its number are above those of the entries of earlier rounds. -/
theorem exactlyOnce_iff {syncid : String} (peer : Peer syncid) (rounds : List (PeerRound peer.name))
    (hids : ((rounds.flatMap PeerRound.appended).map PeerSeed.id).Pairwise (· < ·)) :
    ImportedOnce peer (run (exchangeRound peer) .init rounds)
      ↔ Steps (exchangeRound peer) RoundReadsAbove .init rounds := by
  have hnodup : ((rounds.flatMap PeerRound.appended).map PeerSeed.id).Nodup :=
    hids.imp fun hlt => UInt32.ne_of_lt hlt
  rw [importedOnce_run exchanging_init hnodup, and_iff_right]
  exact fun e he => absurd he List.not_mem_nil

theorem run_queue {syncid : String} (peer : Peer syncid) (s : Exchange)
    (rounds : List (PeerRound peer.name)) :
    (run (exchangeRound peer) s rounds).queue = s.queue ++ rounds.flatMap PeerRound.appended := by
  induction rounds generalizing s with
  | nil => exact (List.append_nil _).symm
  | cons r rounds ih =>
    rw [run_cons, ih, List.flatMap_cons, ← List.append_assoc]
    rfl

/-- Numbers below a million are read as they are. -/
theorem readsAbove_of_lt_million {syncid : String} (peer : Peer syncid)
    (rounds : List (PeerRound peer.name))
    (hids : ((rounds.flatMap PeerRound.appended).map PeerSeed.id).Pairwise (· < ·))
    (hsmall : ∀ e ∈ rounds.flatMap PeerRound.appended, e.id.toNat < 10 ^ 6 ∧ e.Fits) :
    Steps (exchangeRound peer) RoundReadsAbove .init rounds := by
  refine steps_iff.mpr ?_
  rintro pre r post rfl e he
  -- below a million the six digits that are read are the whole number
  have hread : ∀ e ∈ (pre ++ r :: post).flatMap PeerRound.appended, e.readId = e.id.toNat :=
    fun e he => firstSix_of_lt (hsmall e he).1
  rw [List.flatMap_append, List.flatMap_cons] at hids hsmall hread
  have hin :
      e ∈ pre.flatMap PeerRound.appended ++ (r.appended ++ post.flatMap PeerRound.appended) :=
    List.mem_append_right _ (List.mem_append_left _ he)
  refine ⟨(hsmall e hin).2, fun e' he' => ?_⟩
  rw [run_queue] at he'
  change e' ∈ pre.flatMap PeerRound.appended at he'
  -- the numbers go up from round to round
  rw [List.pairwise_map, List.pairwise_append] at hids
  have hlt := hids.2.2 e' he' e (List.mem_append_left _ he)
  rw [hread e hin, hread e' (List.mem_append_left _ he')]
  exact UInt32.lt_iff_toNat_lt.mp hlt

/-- A peer and a round of its own, with nobody else there. -/
def otherFuzzer : Peer "me" := ⟨"other", by decide, by decide⟩

def alone (appended : List PeerSeed) : PeerRound otherFuzzer.name :=
  ⟨appended, [], [], fun _ hd => absurd hd List.not_mem_nil⟩

/-- Two rounds with one entry each are exchanged exactly once. -/
theorem exactlyOnce_two :
    ImportedOnce otherFuzzer (run (exchangeRound otherFuzzer) .init
      [alone [⟨3, true, [0]⟩], alone [⟨4, false, [1]⟩]]) := by
  refine (exactlyOnce_iff otherFuzzer _ (by decide)).mpr ⟨?_, ?_, trivial⟩
  · intro e he
    obtain rfl := List.mem_singleton.mp he
    exact ⟨⟨by decide, by decide⟩, fun e' he' => absurd he' List.not_mem_nil⟩
  · intro e he
    obtain rfl := List.mem_singleton.mp he
    refine ⟨⟨by decide, by decide⟩, fun e' he' => ?_⟩
    obtain rfl := List.mem_singleton.mp he'
    rw [PeerSeed.readId, PeerSeed.readId, firstSix_of_lt (by decide), firstSix_of_lt (by decide)]
    decide

/-- The entry with number a million reads as 100000, and is skipped: in the round before,
999999 was seen. -/
theorem million_skipped :
    (run (exchangeRound otherFuzzer) .init
      [alone [⟨999999, true, [0]⟩], alone [⟨1000000, true, [1]⟩]]).synced.times otherFuzzer
        (PeerSeed.file ⟨1000000, true, [1]⟩) = 0 := by
  -- seven digits, of which six are read
  have hread : PeerSeed.readId ⟨1000000, true, [1]⟩ = 100000 := by
    rw [PeerSeed.readId, firstSix, if_neg (by decide)]
    exact firstSix_of_lt (by decide)
  have hlast : PeerSeed.readId ⟨999999, true, [0]⟩ = 999999 := firstSix_of_lt (by decide)
  have hfirst := exchanging_init.round (alone [⟨999999, true, [0]⟩])
  have hnew : PeerSeed.file ⟨1000000, true, [1]⟩
      ∉ [(⟨999999, true, [0]⟩ : PeerSeed)].map PeerSeed.file := fun hmem =>
    absurd (id_eq_of_file_eq (List.mem_singleton.mp hmem)) (by decide)
  have habove := hfirst.above.1 ⟨999999, true, [0]⟩ (List.mem_singleton_self _)
  have htimes := (exchange_round (alone [⟨1000000, true, [1]⟩]) hfirst.above).2
    (PeerSeed.file ⟨1000000, true, [1]⟩)
  rw [run_cons, run_cons, run_nil, htimes, hfirst.known _ hnew, Nat.zero_add]
  generalize (exchangeRound otherFuzzer .init (alone [⟨999999, true, [0]⟩])).synced.minAccept
    otherFuzzer.name = m at habove
  have hskip : ¬PeerSeed.isImported m ⟨1000000, true, [1]⟩ = true := by
    rw [PeerSeed.isImported, Bool.and_eq_true, decide_eq_true_iff, hread]
    omega
  rw [show (alone [⟨1000000, true, [1]⟩]).appended = [⟨1000000, true, [1]⟩] from rfl,
    List.filter_cons_of_neg hskip]
  rfl

end DistFuzz.Fuzzer
