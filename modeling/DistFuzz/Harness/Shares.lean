import DistFuzz.Harness.NodeManager
import DistFuzz.Harness.SplitFiles

/-!
# Who reads which share (core/src/dst_test_main.cpp:95–133,
core/include/dst_node_manager.hpp:217–229)

`split_files` deals the test case out to the driver and the nodes, and `start_process`
tells a node the name of its share in the variable `__DST_ENV_RANDOM_FILE__`, from which
`init_random_file` loads it before `main` of the node runs. The two agree on the names, and
the pieces do not overlap, so a byte of the test case is read by one consumer or by none.
Files are counted by a natural number here; `int f_index` does so for fewer than `2 ^ 31`.

- `FileName.ofText`, `initRandomFile`, `Launch.stream`: the stream of a launched node.
- `pieces`, `Cut`: the test case in pieces; `cut_pieces`.
- `DiffersIn`: two test cases that differ inside one piece; `splitContent_congr`: the
  others are the same.
- `shares_separate`: the files `split_files` leaves, and that a change in the share of one
  consumer reaches the stream of no other.
-/

namespace DistFuzz.Harness

open DistFuzz.Lib

/-! ### The stream of a node -/

/-- The file a path is the name of. -/
def FileName.ofText (path : String) : FileName :=
  let i := Nat.ofDigitChars 10 (path.toList.drop "random_node".length) 0
  if path = "random.txt" then .random
  else if path = "random_node" ++ i.repr then .randomNode i
  else .other path

/-- `init_random_file`, with the value of the variable. -/
def initRandomFile (files : Files) (path : Option String) : Option RandomFile :=
  match path with
  | some path => RandomFile.fileToString files (.ofText path) (.load [])
  | none => some (.load [])

/-- The stream a launched process starts with. -/
def Launch.stream (files : Files) (l : Launch) : Option RandomFile :=
  initRandomFile files (l.env.lookup "__DST_ENV_RANDOM_FILE__")

/-- The name `start_process` makes is the one `split_files` made. -/
theorem ofText_randomNode (i : Nat) :
    FileName.ofText ("random_node" ++ i.repr) = .randomNode i := by
  have hdigits : Nat.ofDigitChars 10
      (("random_node" ++ i.repr).toList.drop "random_node".length) 0 = i := by
    rw [String.toList_append, ← String.length_toList, List.drop_left, Nat.toList_repr,
      Nat.ofDigitChars_ten_toDigits]
  have hne : "random_node" ++ i.repr ≠ "random.txt" := by
    intro heq
    have hlist := congrArg (fun s => s.toList.take 7) heq
    rw [String.toList_append] at hlist
    exact absurd hlist (by simp)
  unfold FileName.ofText
  rw [hdigits, if_neg hne, if_pos rfl]

theorem stream_launchOf (files : Files) (cfg : NodeConfig) (ni : NodeInfo) :
    (launchOf cfg ni).stream files = (files (.randomNode ni.nodeId.toNat)).map .load := by
  have hpath : (launchOf cfg ni).env.lookup "__DST_ENV_RANDOM_FILE__"
      = some ("random_node" ++ ni.nodeId.toNat.repr) := rfl
  rw [Launch.stream, hpath, initRandomFile, ofText_randomNode]
  rfl

/-! ### The pieces -/

/-- The pieces in the order they are written. -/
def pieces (content : List UInt8) (nodeCount : Nat) : List (List UInt8) :=
  (List.range (nodeCount + 1)).map (splitContent content nodeCount)

/-- The test case cut into one piece for the driver and one for each node. -/
structure Cut (content : List UInt8) (nodeCount : Nat) (ps : List (List UInt8)) : Prop where
  count : ps.length = nodeCount + 1
  even : ∀ p ∈ ps, p.length = content.length / (nodeCount + 1)
  front : ps.flatten <+: content
  dropped : content.length - ps.flatten.length < nodeCount + 1

theorem getElem?_pieces {content : List UInt8} {nodeCount k : Nat} (h : k ≤ nodeCount) :
    (pieces content nodeCount)[k]? = some (splitContent content nodeCount k) := by
  rw [pieces, List.getElem?_map, List.getElem?_range (Nat.lt_succ_of_le h), Option.map_some]

/-- Each piece begins where the one before it ends. -/
theorem flatten_splitContent (content : List UInt8) (nodeCount n : Nat) :
    ((List.range n).map (splitContent content nodeCount)).flatten
      = content.take (averageLength content nodeCount * n) := by
  induction n with
  | zero => rfl
  | succ n ih =>
    rw [List.range_succ, List.map_append, List.flatten_append, ih, Nat.mul_succ, List.take_add,
      List.map_singleton, List.flatten_singleton, splitContent]

theorem cut_pieces (content : List UInt8) (nodeCount : Nat) :
    Cut content nodeCount (pieces content nodeCount) := by
  have hflatten := flatten_splitContent content nodeCount (nodeCount + 1)
  refine { count := ?_, even := ?_, front := ?_, dropped := ?_ }
  · rw [pieces, List.length_map, List.length_range]
  · intro p hp
    obtain ⟨k, hk, rfl⟩ := List.mem_map.mp hp
    exact length_splitContent content (Nat.le_of_lt_succ (List.mem_range.mp hk))
  · rw [pieces, hflatten]
    exact List.take_prefix ..
  · have hrest := Nat.mod_lt content.length (show 0 < nodeCount + 1 from nodeCount.succ_pos)
    have hdiv := Nat.div_add_mod' content.length (nodeCount + 1)
    rw [pieces, hflatten, averageLength_eq, List.length_take,
      Nat.min_eq_left (Nat.div_mul_le_self ..)]
    omega

/-- The names are written in the order of the pieces. -/
theorem map_writePieces (content : List UInt8) (nodeCount : Nat) (files : Files) :
    (writeFiles nodeCount).map (writePieces content nodeCount files)
      = (pieces content nodeCount).map some := by
  refine List.ext_getElem? fun k => ?_
  rw [List.getElem?_map, List.getElem?_map]
  cases hname : (writeFiles nodeCount)[k]? with
  | none =>
    have hk := List.getElem?_eq_none_iff.mp hname
    rw [length_writeFiles] at hk
    rw [List.getElem?_eq_none (by rwa [(cut_pieces content nodeCount).count])]
    rfl
  | some name =>
    have hk := (List.getElem?_eq_some_iff.mp hname).1
    rw [length_writeFiles] at hk
    rw [getElem?_pieces (Nat.le_of_lt_succ hk), Option.map_some, Option.map_some,
      writePieces_apply content nodeCount files hname]

theorem writePieces_randomNode (content : List UInt8) {nodeCount i : Nat} (files : Files)
    (h : i < nodeCount) :
    writePieces content nodeCount files (.randomNode i)
      = some (splitContent content nodeCount (i + 1)) := by
  refine writePieces_apply content nodeCount files ?_
  rw [writeFiles, List.getElem?_cons_succ, List.getElem?_map, List.getElem?_range h]
  rfl

/-! ### A change inside one piece -/

/-- Two test cases of one length that differ only inside piece `k`. -/
structure DiffersIn (nodeCount k : Nat) (content content' : List UInt8) : Prop where
  length_eq : content.length = content'.length
  outside : ∀ p, p < averageLength content nodeCount * k ∨
    averageLength content nodeCount * (k + 1) ≤ p → content[p]? = content'[p]?

theorem splitContent_congr {nodeCount k : Nat} {content content' : List UInt8}
    (h : DiffersIn nodeCount k content content') {j : Nat} (hj : j ≠ k) :
    splitContent content nodeCount j = splitContent content' nodeCount j := by
  have haverage : averageLength content' nodeCount = averageLength content nodeCount := by
    rw [averageLength, averageLength, h.length_eq]
  refine List.ext_getElem? fun p => ?_
  rw [splitContent, splitContent, haverage, List.getElem?_take, List.getElem?_take,
    List.getElem?_drop, List.getElem?_drop]
  by_cases hp : p < averageLength content nodeCount
  · rw [if_pos hp, if_pos hp]
    refine h.outside _ ?_
    -- a piece before `k` ends before `k` begins, one after it begins after `k` ends
    rcases Nat.lt_or_gt_of_ne hj with hlt | hgt
    · have hend := Nat.mul_le_mul_left (averageLength content nodeCount) hlt
      rw [Nat.mul_succ] at hend
      exact .inl (by omega)
    · have hbegin : averageLength content nodeCount * (k + 1)
          ≤ averageLength content nodeCount * j := Nat.mul_le_mul_left _ hgt
      exact .inr (by omega)
  · rw [if_neg hp, if_neg hp]

/-- **Splitting a test case.** For every test case and every number of nodes, `split_files`
leaves under the names of the driver and of the nodes, in this order, the pieces of the
test case: one for each of them, of one length, which make up the test case but for
fewer bytes at its end than there are pieces. The driver goes on with the first piece
at the index where its stream was, and every process launched for node `i` starts at the
beginning of piece `i + 1`. So if another test case of the same length differs only inside
the piece of one consumer, every other node starts with the same stream, and so does the
driver unless the piece is its own. Nothing is asked of the other files, and of the
driver's streams before only that they are at one index: `main` draws nothing before it
splits, so both are at `0`. The pieces are counted by an `int f_index` in the source, so the
model is that of at most `2^31` files, the driver's included. -/
theorem shares_separate (files : Files) (initialFile : FileName) (content : List UInt8)
    (hfile : files initialFile = some content) (nodeCount : Nat) (r : RandomFile) :
    ∃ out driver ps, splitFiles files initialFile nodeCount r = some (out, driver) ∧
      (writeFiles nodeCount).map out = ps.map some ∧ Cut content nodeCount ps ∧
      (∀ p ∈ ps[0]?, driver = under p r) ∧
      (∀ cfg ni, ni.nodeId.toNat < nodeCount →
        (launchOf cfg ni).stream out = ps[ni.nodeId.toNat + 1]?.map .load) ∧
      ∀ (files' : Files) (initialFile' : FileName) (content' : List UInt8) (r' : RandomFile)
        (k : Nat), files' initialFile' = some content' → DiffersIn nodeCount k content content' →
        ∃ out' driver', splitFiles files' initialFile' nodeCount r' = some (out', driver') ∧
          (k ≠ 0 → r'.fuzzFileIndex = r.fuzzFileIndex → driver' = driver) ∧
          ∀ cfg ni, ni.nodeId.toNat < nodeCount → ni.nodeId.toNat + 1 ≠ k →
            (launchOf cfg ni).stream out' = (launchOf cfg ni).stream out := by
  refine ⟨_, _, pieces content nodeCount, splitFiles_eq hfile nodeCount r,
    map_writePieces content nodeCount files, cut_pieces content nodeCount, ?_, ?_, ?_⟩
  · intro p hp
    rw [getElem?_pieces (Nat.zero_le _)] at hp
    rw [← Option.some.inj hp]
  · intro cfg ni hi
    rw [stream_launchOf, writePieces_randomNode content files hi, getElem?_pieces hi]
  · intro files' initialFile' content' r' k hfile' hdiffers
    refine ⟨_, _, splitFiles_eq hfile' nodeCount r', fun hk hindex => ?_, fun cfg ni hi hk => ?_⟩
    · rw [← splitContent_congr hdiffers hk.symm, under, under, hindex]
    · rw [stream_launchOf, stream_launchOf, writePieces_randomNode content files hi,
        writePieces_randomNode content' files' hi, splitContent_congr hdiffers hk]

/-- The bytes from `0` to `10`. -/
def elevenBytes : List UInt8 := (List.range 11).map UInt8.ofNat

/-- They are split for two nodes, and again with byte 4 changed, which is node 0's. -/
theorem shares_separate_eleven :
    DiffersIn 2 1 elevenBytes (elevenBytes.set 4 200) ∧
    ∃ out driver out' driver',
      splitFiles (fun _ => some elevenBytes) .random 2 (.load []) = some (out, driver) ∧
      splitFiles (fun _ => some (elevenBytes.set 4 200)) .random 2 (.load [])
        = some (out', driver') ∧
      (writeFiles 2).map out = [some [0, 1, 2], some [3, 4, 5], some [6, 7, 8]] ∧
      (writeFiles 2).map out' = [some [0, 1, 2], some [3, 200, 5], some [6, 7, 8]] ∧
      driver' = driver := by
  have hdiffers : DiffersIn 2 1 elevenBytes (elevenBytes.set 4 200) := by
    refine { length_eq := rfl, outside := fun p hp => ?_ }
    have haverage : averageLength elevenBytes 2 = 3 := rfl
    rw [haverage] at hp
    rw [List.getElem?_set_ne (by omega)]
  obtain ⟨out, driver, ps, hsplit, -, -, -, -, hother⟩ :=
    shares_separate (fun _ => some elevenBytes) .random _ rfl 2 (.load [])
  obtain ⟨out', driver', hsplit', hdriver, -⟩ :=
    hother (fun _ => some (elevenBytes.set 4 200)) .random _ (.load []) 1 rfl hdiffers
  refine ⟨hdiffers, out, driver, out', driver', hsplit, hsplit', ?_, ?_,
    hdriver (by decide) rfl⟩
  · rw [splitFiles_eq rfl] at hsplit
    obtain ⟨rfl, -⟩ := Prod.mk.inj (Option.some.inj hsplit)
    decide
  · rw [splitFiles_eq rfl] at hsplit'
    obtain ⟨rfl, -⟩ := Prod.mk.inj (Option.some.inj hsplit')
    decide

end DistFuzz.Harness
