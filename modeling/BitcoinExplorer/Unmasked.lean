import BitcoinExplorer.Iter.BlockIter

/-!
# What the queries see of the files

A read goes through an open file that answers as it likes, a position counter and a mask. None of
this shows: a query is a function of the unmasked bytes of the files, and its errors and panics are
too.

* `BlkFile.bytes`: the unmasked bytes of a block file.
* **`BlkFile.readRawBlock_eq`**, **`BlkFile.readTransaction_eq`**: the two ways to read are the
  decoders run on these bytes.
* **`queries_eq_of_bytes`**: two data directories with the same index and the same unmasked bytes
  answer every query alike, whatever their masks and however their reads are split.
-/

namespace BitcoinExplorer

open Rust ByteStream KeyStream

/-- The unmasked bytes of a block file, or the error of finding and opening it. -/
def BlkFile.bytes (self : BlkFile) (disk : Disk) (nFile : Int) : Outcome Error (List UInt8) := do
  let path ← .ofOption (.blockFileNotFound nFile) (self.files nFile)
  let content ← .ofOption .io (disk.content path)
  .ok (xorFrom (xorKey self.xorMask) 0 content)

namespace XorReader

variable {α β : Type} {r : XorReader}

/-- A decoder on a reader decodes the stream, and what follows may only depend on it. -/
theorem decode_bind (hs : r.Synced) (e : Error) (d : Decoder α)
    {f : α × XorReader → Outcome Error β} {g : α × List UInt8 → Outcome Error β}
    (hfg : ∀ a r', r'.Synced → f (a, r') = g (a, r'.stream)) :
    (r.decode e d >>= f) = (Outcome.ofOption e (d.run r.stream) >>= g) := by
  obtain ⟨hsome, hnone⟩ := d.runOn_of_views views_stream ⟨hs, rfl⟩
  cases hrun : d.run r.stream with
  | none =>
    rw [decode, hnone hrun]
    rfl
  | some p =>
    obtain ⟨r', hr', hs', hstream⟩ := hsome p.1 p.2 hrun
    rw [decode, hr', Outcome.ofOption, Outcome.ok_bind, hfg p.1 r' hs', hstream]
    rfl

end XorReader

namespace BlkFile

variable {bf : BlkFile} {disk : Disk} {nFile : Int}

/-- Opening a file, seeking, then reading: an offset that is out of range is an error. -/
theorem openFile_seek_bind {β : Type} (start : Outcome Error Nat)
    {f : XorReader → Outcome Error β} {g : List UInt8 → Outcome Error β}
    (hfg : ∀ r : XorReader, r.Synced → f r = g r.stream) :
    (Outcome.ofOption (.blockFileNotFound nFile) (bf.files nFile) >>= fun path =>
        disk.openFile path >>= fun file => start >>= fun start =>
          ((XorReader.new file bf.xorMask).seek start).1 >>= fun _ =>
            f ((XorReader.new file bf.xorMask).seek start).2) =
      (bf.bytes disk nFile >>= fun bytes => start >>= fun start =>
        if start < 2 ^ 63 then g (bytes.drop start) else .err .io) := by
  rw [bytes]
  cases bf.files nFile with
  | none => rfl
  | some path =>
    rw [Outcome.ofOption, Outcome.ok_bind, Outcome.ok_bind, Disk.openFile]
    cases disk.content path with
    | none => rfl
    | some content =>
      simp only [Outcome.ok_bind, Outcome.ofOption]
      congr 1
      funext start
      by_cases hstart : start < 2 ^ 63
      · obtain ⟨r, hseek, hs, hstream⟩ := XorReader.seek_spec
          (XorReader.new ⟨content, 0, disk.short path, 0⟩ bf.xorMask) hstart
        rw [if_pos hstart, hseek, Outcome.ok_bind, hfg r hs, hstream]
        rfl
      · rw [if_neg hstart, XorReader.seek, File.seek, if_neg hstart]
        rfl

/-- **`read_raw_block` is a function of the unmasked bytes.** -/
theorem readRawBlock_eq (tgt : Target) (offset : UInt32) :
    bf.readRawBlock tgt disk nFile offset = (do
      let bytes ← bf.bytes disk nFile
      let start ← .overflowing tgt (4 ≤ offset.toNat) (offset.toNat - 4)
        (offset.toNat + 2 ^ 64 - 4)
      if start < 2 ^ 63 then do
        let (blockSize, rest) ← .ofOption .bitcoinIo (readU32.run (bytes.drop start))
        let (block, _) ← .ofOption .bitcoinIo ((readVecU8 blockSize).run rest)
        .ok block
      else .err .io) := by
  refine openFile_seek_bind _
    (f := fun r => r.decode .bitcoinIo readU32 >>= fun p =>
      p.2.decode .bitcoinIo (readVecU8 p.1) >>= fun q => .ok q.1)
    (g := fun s => .ofOption .bitcoinIo (readU32.run s) >>= fun p =>
      .ofOption .bitcoinIo ((readVecU8 p.1).run p.2) >>= fun q => .ok q.1) fun r hs => ?_
  refine XorReader.decode_bind hs .bitcoinIo readU32 fun blockSize r' hs' => ?_
  exact XorReader.decode_bind hs' .bitcoinIo (readVecU8 blockSize)
    (g := fun q => .ok q.1) fun _ _ _ => rfl

/-- **`read_transaction` is a function of the unmasked bytes.** -/
theorem readTransaction_eq (rb : RustBitcoin) (nPos nTxOffset : UInt32) :
    bf.readTransaction rb disk nFile nPos nTxOffset = (do
      let bytes ← bf.bytes disk nFile
      let (tx, _) ← .ofOption .encode
        (rb.txDecoder.run (bytes.drop (nPos.toNat + nTxOffset.toNat + headerSize)))
      .ok tx) := by
  have hpos := nPos.toNat_lt
  have hoffset := nTxOffset.toNat_lt
  have hlt : nPos.toNat + nTxOffset.toNat + headerSize < 2 ^ 63 := by
    unfold headerSize
    omega
  refine (openFile_seek_bind (.ok (nPos.toNat + nTxOffset.toNat + headerSize))
    (f := fun r => r.decode .encode rb.txDecoder >>= fun p => .ok p.1)
    (g := fun s => .ofOption .encode (rb.txDecoder.run s) >>= fun p => .ok p.1)
    fun r hs => ?_).trans ?_
  · exact XorReader.decode_bind hs .encode rb.txDecoder (g := fun p => .ok p.1) fun _ _ _ => rfl
  · simp only [Outcome.ok_bind, if_pos hlt]

/-- A file that was masked as Bitcoin Core masks it. -/
theorem bytes_of_maskedFile {path : PathBuf} {content : List UInt8}
    (hfile : bf.files nFile = some path)
    (hdisk : disk.content path = some (maskedFile bf.xorMask content)) :
    bf.bytes disk nFile = .ok content := by
  rw [bytes, hfile, Outcome.ofOption, Outcome.ok_bind, hdisk, Outcome.ofOption, Outcome.ok_bind,
    xorFrom_maskedFile]

end BlkFile

/-! ## Two views of the same data -/

/-- Every query has the same result, be it a value, an error or a panic, and the connected-block
iterators are the same. -/
structure AnswersAlike (rb : RustBitcoin) (tgt : Target) (disk disk' : Disk) (db db' : BitcoinDB) :
    Prop where
  rawBlock : db.getRawBlock tgt disk = db'.getRawBlock tgt disk'
  block : ∀ {T : Type} (into : Block → T),
    db.getBlock rb tgt disk into = db'.getBlock rb tgt disk' into
  transaction : ∀ {T : Type} (into : Transaction → T),
    db.getTransaction rb tgt disk into = db'.getTransaction rb tgt disk' into
  fullBlock : db.getConnectedBlock rb tgt disk (FullConnectedBlock.connect rb tgt disk) =
    db'.getConnectedBlock rb tgt disk' (FullConnectedBlock.connect rb tgt disk')
  compactBlock : db.getConnectedBlock rb tgt disk (CompactConnectedBlock.connect rb tgt disk) =
    db'.getConnectedBlock rb tgt disk' (CompactConnectedBlock.connect rb tgt disk')
  fullTx : db.getConnectedTransaction rb tgt disk (FullConnectedTransaction.connect rb tgt disk) =
    db'.getConnectedTransaction rb tgt disk' (FullConnectedTransaction.connect rb tgt disk')
  compactTx :
    db.getConnectedTransaction rb tgt disk (CompactConnectedTransaction.connect rb tgt disk) =
      db'.getConnectedTransaction rb tgt disk' (CompactConnectedTransaction.connect rb tgt disk')
  onDiskIter : ∀ {Blk Tx Out : Type} (CB : ConnectedBlock Blk Tx Out) (stop : Nat),
    db.connectedBlockIterOnDisk rb tgt disk CB stop =
      db'.connectedBlockIterOnDisk rb tgt disk' CB stop
  inMemIter : ∀ {Blk Tx Out : Type} (CB : ConnectedBlock Blk Tx Out) (stop : Nat),
    db.connectedBlockIterInMem rb tgt disk CB stop =
      db'.connectedBlockIterInMem rb tgt disk' CB stop

/-- **The queries are functions of the index and of the unmasked bytes.** Two databases with the
same index and txindex, whose block files have the same unmasked bytes, answer alike: it does not
matter how the files are masked, where they are or how their reads are split. -/
theorem queries_eq_of_bytes (rb : RustBitcoin) (tgt : Target) (disk disk' : Disk)
    (db db' : BitcoinDB) (hindex : db.blockIndex = db'.blockIndex) (htxDb : db.txDb = db'.txDb)
    (hbytes : ∀ nFile, db.blkFile.bytes disk nFile = db'.blkFile.bytes disk' nFile) :
    AnswersAlike rb tgt disk disk' db db' := by
  have hraw : db.blkFile.readRawBlock tgt disk = db'.blkFile.readRawBlock tgt disk' := by
    funext nFile offset
    rw [BlkFile.readRawBlock_eq, BlkFile.readRawBlock_eq, hbytes]
  have hread : db.blkFile.readBlock rb tgt disk = db'.blkFile.readBlock rb tgt disk' := by
    funext nFile offset
    rw [BlkFile.readBlock, BlkFile.readBlock, hraw]
  have htx : db.blkFile.readTransaction rb disk = db'.blkFile.readTransaction rb disk' := by
    funext nFile nPos nTxOffset
    rw [BlkFile.readTransaction_eq, BlkFile.readTransaction_eq, hbytes]
  have hblock : ∀ {T : Type} (into : Block → T),
      db.getBlock rb tgt disk into = db'.getBlock rb tgt disk' into := by
    intro T into
    funext height
    rw [BitcoinDB.getBlock, BitcoinDB.getBlock, hindex, hread]
  have htransaction : ∀ {T : Type} (into : Transaction → T),
      db.getTransaction rb tgt disk into = db'.getTransaction rb tgt disk' into := by
    intro T into
    funext txid
    rw [BitcoinDB.getTransaction, BitcoinDB.getTransaction, htxDb, hblock, htx]
  have hinput : ∀ txDb, connectInput rb tgt disk txDb db.blockIndex db.blkFile =
      connectInput rb tgt disk' txDb db'.blockIndex db'.blkFile := by
    intro txDb
    funext txIn
    rw [connectInput, connectInput, hindex, hread, htx]
  refine
    { rawBlock := ?_
      block := hblock
      transaction := htransaction
      fullBlock := ?_
      compactBlock := ?_
      fullTx := ?_
      compactTx := ?_
      onDiskIter := fun CB stop => ?_
      inMemIter := fun CB stop => ?_ }
  · funext height
    rw [BitcoinDB.getRawBlock, BitcoinDB.getRawBlock, hindex, hraw]
  · funext height
    simp only [BitcoinDB.getConnectedBlock, FullConnectedBlock.connect, htxDb, hblock, hinput]
  · funext height
    simp only [BitcoinDB.getConnectedBlock, CompactConnectedBlock.connect, htxDb, hblock, hinput]
  · funext txid
    simp only [BitcoinDB.getConnectedTransaction, FullConnectedTransaction.connect, htxDb,
      htransaction, hinput]
  · funext txid
    simp only [BitcoinDB.getConnectedTransaction, CompactConnectedTransaction.connect, htxDb,
      htransaction, hinput]
  · rw [BitcoinDB.connectedBlockIterOnDisk, BitcoinDB.connectedBlockIterOnDisk, hblock]
  · rw [BitcoinDB.connectedBlockIterInMem, BitcoinDB.connectedBlockIterInMem, hblock]

/-- The stored blocks without a mask, under another name, in a file that is read in large parts. -/
def plainDisk : Disk where
  content path :=
    if path = "plain/blk0.dat" then
      some (blkFileBytes mainnetMagic (storedChain.map legacyEncoding.block) [0, 0, 0])
    else none
  short _ _ := 4095

/-- The database that finds it there. -/
def plainDb : BitcoinDB :=
  { storedDb with
    blkFile := ⟨fun nFile => if nFile = 0 then some "plain/blk0.dat" else none, none⟩ }

theorem queries_eq_plainDb :
    AnswersAlike storedBitcoin ⟨true, true⟩ storedDisk plainDisk storedDb plainDb := by
  refine queries_eq_of_bytes storedBitcoin ⟨true, true⟩ storedDisk plainDisk storedDb plainDb
    rfl rfl fun nFile => ?_
  by_cases hfile : nFile = 0
  · subst hfile
    have hpath : storedDb.blkFile.files 0 = some "blk00000.dat" := rfl
    have hstored : storedDb.blkFile.bytes storedDisk 0 = .ok (blkFileBytes mainnetMagic
        (storedChain.map legacyEncoding.block) [0, 0, 0]) :=
      BlkFile.bytes_of_maskedFile hpath rfl
    have hkey : xorKey none = fun _ => 0 := rfl
    have hplain : plainDb.blkFile.bytes plainDisk 0 = .ok (xorFrom (xorKey none) 0
        (blkFileBytes mainnetMagic (storedChain.map legacyEncoding.block) [0, 0, 0])) := rfl
    rw [hstored, hplain, hkey, xorFrom_zero]
  · have hnone : storedDb.blkFile.files nFile = none := if_neg hfile
    have hnone' : plainDb.blkFile.files nFile = none := if_neg hfile
    rw [BlkFile.bytes, BlkFile.bytes, hnone, hnone']
    rfl

end BitcoinExplorer
