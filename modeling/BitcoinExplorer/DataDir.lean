import BitcoinExplorer.Api
import BitcoinExplorer.Parser.BlocksDir
import BitcoinExplorer.Parser.DiskBlockIndex

/-!
# Opening a data directory

`BitcoinDB::new` of `src/api.rs` with what it opens: `BlkFile::new` and `read_xor_mask` of
`src/parser/blk_file.rs`. A `Host` is what the process sees of the machine; a leveldb is what
`Database::open` returns at a path.

* `readXorMask_of_content`: the mask is the front of `xor.dat`, however its reads are split.
* **`new_eq_ok`**: what a successful `BitcoinDB::new` has opened.
-/

namespace BitcoinExplorer

open Rust FileSystem

/-- What a process sees: files, listed in some order, its working directory, how the reads of each
file are split, and the leveldbs that can be opened. -/
structure Host where
  fs : Files
  order : fs.Order
  cwd : Location
  short : PathBuf → Nat → Nat
  blockDb : PathBuf → Option Entries
  txDb : PathBuf → Option KeyValue

/-- `Path::exists`. -/
def Host.exists (host : Host) (path : PathBuf) : Bool :=
  ((host.fs.locate host.cwd path).bind host.fs.node).isSome

/-- The files as `File::open` finds them. -/
def Host.disk (host : Host) : Disk where
  content := host.fs.content host.cwd
  short := host.short

/-- `<File as Read>::read_exact`: read until the buffer is full, an empty read is the end of the
file. -/
def File.readExact (size : Nat) (file : File) : Option (List UInt8 × File) :=
  if size = 0 then some ([], file)
  else
    match file.read size with
    | ([], _) => none
    | (b :: bs, file) =>
      (readExact (size - (b :: bs).length) file).map fun p => (b :: bs ++ p.1, p.2)
termination_by size
decreasing_by
  rw [List.length_cons]
  omega

/-- `read_xor_mask`. -/
def readXorMask (host : Host) (blocksDir : PathBuf) : Outcome Error (Option XorMask) :=
  let path := Path.join blocksDir "xor.dat"
  if host.exists path then do
    let file ← host.disk.openFile path
    let (buf, _) ← .ofOption .io (file.readExact 8)
    .ok (some (Vector.ofFn fun i => (buf[i.val]?).getD 0))
  else .ok none

/-- `BlkFile::new`. -/
def BlkFile.new (host : Host) (path : PathBuf) : Outcome Error BlkFile := do
  let xorMask ← readXorMask host path
  let files ← scanBlocksDir host.fs host.order host.cwd path
  .ok { files := fun nFile => files[nFile]?, xorMask }

/-- The errors of `BitcoinDB::new`: `BitcoinDataDirDoesNotExist`, or one of the parts'. -/
inductive OpenError where
  | bitcoinDataDirDoesNotExist (dataDir : PathBuf)
  | error (e : Error)
  deriving DecidableEq, Repr

/-- The txindex that `TxDB::open` opens at a path. -/
def Host.openTxDb (host : Host) (path : PathBuf) : Option KeyValue :=
  if host.exists path then host.txDb path else none

namespace BitcoinDB

/-- Where the block index is. -/
def indexPath (dataDir : PathBuf) : PathBuf := Path.join (Path.join dataDir "blocks") "index"

/-- Where the txindex is. -/
def txIndexPath (dataDir : PathBuf) : PathBuf := Path.join (Path.join dataDir "indexes") "txindex"

/-- `BitcoinDB::new`. -/
def new (rb : RustBitcoin) (tgt : Target) (host : Host) (dataDir : PathBuf) (txIndex : Bool) :
    Outcome OpenError BitcoinDB :=
  if host.exists dataDir then
    Outcome.mapErr .error do
      let blkPath := Path.join dataDir "blocks"
      let blockIndex ← BlockIndex.new rb tgt (host.blockDb (indexPath dataDir))
      let txDb :=
        if txIndex then TxDB.openAt (host.openTxDb (txIndexPath dataDir)) blockIndex else none
      let blkFile ← BlkFile.new host blkPath
      .ok { blkFile, blockIndex, txDb }
  else .err (.bitcoinDataDirDoesNotExist dataDir)

end BitcoinDB

/-! ## Reading the mask -/

/-- A file without a mask is read as it is. -/
theorem File.readExact_eq (size : Nat) : ∀ r : XorReader, r.mask = none →
    r.inner.readExact size = (r.readExact size).map fun p => (p.1, p.2.inner) := by
  -- as in `XorReader.readExact`, each read that is not empty makes the request smaller
  induction size using Nat.strongRecOn with
  | ind size ih =>
    intro r hmask
    rw [File.readExact, XorReader.readExact]
    by_cases hzero : size = 0
    · rw [if_pos hzero, if_pos hzero, Option.map_some]
    · rw [if_neg hzero, if_neg hzero]
      have hread : r.read size =
          ((r.inner.read size).1, { r with inner := (r.inner.read size).2 }) := by
        rw [XorReader.read, hmask]
      rw [hread]
      cases hbytes : (r.inner.read size).1 with
      | nil =>
        rw [show r.inner.read size = ([], (r.inner.read size).2) from Prod.ext hbytes rfl]
        rfl
      | cons b bs =>
        rw [show r.inner.read size = (b :: bs, (r.inner.read size).2) from Prod.ext hbytes rfl]
        dsimp only
        have hlt : size - (b :: bs).length < size := by
          rw [List.length_cons]
          omega
        rw [ih _ hlt { r with inner := (r.inner.read size).2 } hmask]
        simp only [Option.map_map]
        rfl

/-- `read_exact` at the start of a file returns its front, when the file is long enough. -/
theorem File.readExact_start {bytes : List UInt8} (short : Nat → Nat) {size : Nat}
    (hle : size ≤ bytes.length) :
    ∃ file, File.readExact size ⟨bytes, 0, short, 0⟩ = some (bytes.take size, file) := by
  have hstream : (XorReader.new ⟨bytes, 0, short, 0⟩ none).stream = bytes := by
    rw [XorReader.stream]
    exact KeyStream.xorFrom_zero 0 bytes
  have heq : File.readExact size ⟨bytes, 0, short, 0⟩ = _ :=
    File.readExact_eq size (XorReader.new ⟨bytes, 0, short, 0⟩ none) rfl
  obtain ⟨henough, -⟩ := XorReader.readExact_spec size
    (XorReader.synced_new ⟨bytes, 0, short, 0⟩ rfl none)
  rw [hstream] at henough
  obtain ⟨r, hr, -, -⟩ := henough hle
  exact ⟨r.inner, by rw [heq, hr, Option.map_some]⟩

section

variable {host : Host} {blocksDir : PathBuf}

theorem readXorMask_of_absent (h : host.exists (Path.join blocksDir "xor.dat") = false) :
    readXorMask host blocksDir = .ok none := by
  rw [readXorMask]
  exact if_neg (by rw [h]; decide)

/-- A path that opens exists. -/
theorem Host.exists_of_content {path : PathBuf} {bytes : List UInt8}
    (h : host.fs.content host.cwd path = some bytes) : host.exists path = true := by
  obtain ⟨node, hnode, -⟩ := Option.bind_eq_some_iff.mp h
  rw [Host.exists, hnode]
  rfl

/-- The mask is the first eight bytes of `xor.dat`, however it is read. -/
theorem readXorMask_of_content {mask : XorMask} {rest : List UInt8}
    (h : host.fs.content host.cwd (Path.join blocksDir "xor.dat") = some (mask.toList ++ rest)) :
    readXorMask host blocksDir = .ok (some mask) := by
  have hsize : mask.toList.length = 8 := Vector.length_toList
  have hopen : host.disk.openFile (Path.join blocksDir "xor.dat") =
      .ok ⟨mask.toList ++ rest, 0, host.short (Path.join blocksDir "xor.dat"), 0⟩ := by
    rw [Disk.openFile, Host.disk]
    dsimp only
    rw [h]
  have hle : 8 ≤ (mask.toList ++ rest).length := by
    rw [List.length_append]
    omega
  obtain ⟨file, hread⟩ := File.readExact_start (host.short (Path.join blocksDir "xor.dat")) hle
  rw [List.take_left' hsize] at hread
  rw [readXorMask]
  dsimp only
  rw [if_pos (Host.exists_of_content h), hopen, Outcome.ok_bind, hread, Outcome.ofOption,
    Outcome.ok_bind]
  congr 2
  ext i hi
  simp

end

/-! ## Opening -/

namespace BitcoinDB

variable {rb : RustBitcoin} {tgt : Target} {host : Host} {dataDir : PathBuf} {txIndex : Bool}

/-- **What a successful `BitcoinDB::new` has opened.** -/
theorem new_eq_ok {db : BitcoinDB} :
    new rb tgt host dataDir txIndex = .ok db ↔
      host.exists dataDir = true ∧
        BlockIndex.new rb tgt (host.blockDb (indexPath dataDir)) = .ok db.blockIndex ∧
        BlkFile.new host (Path.join dataDir "blocks") = .ok db.blkFile ∧
        db.txDb = if txIndex then
          TxDB.openAt (host.openTxDb (txIndexPath dataDir)) db.blockIndex else none := by
  unfold new
  split
  · rename_i hexists
    rw [Outcome.mapErr_eq_ok]
    simp only [Outcome.bind_eq_ok, hexists, true_and]
    constructor
    · rintro ⟨blockIndex, hindex, blkFile, hfile, hdb⟩
      obtain rfl := Outcome.ok.inj hdb
      exact ⟨hindex, hfile, rfl⟩
    · rintro ⟨hindex, hfile, htxDb⟩
      refine ⟨_, hindex, _, hfile, ?_⟩
      rw [← htxDb]
  · rename_i hexists
    simp only [hexists, reduceCtorEq, false_and, Bool.false_eq_true]

end BitcoinDB

end BitcoinExplorer
