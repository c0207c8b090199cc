import BitcoinExplorer.CoreData

/-!
# Looking transactions up

The queries that start from a txid. `get_block_height` joins the txindex with the block index
through the file and position of the block; `connect_input` looks a transaction up a second time,
beside `get_transaction`.

* **`getBlockHeight_finds`**: `get_block_height` returns the height of the record at the position
  that the txindex has for the transaction.
* **`connectInput_resolves_iff`**: `connect_input` returns the output that the outpoint names,
  except that for the genesis transaction it returns output 0 whatever the outpoint says.
-/

namespace BitcoinExplorer

open Rust Backtrace Varint

/-! ## The height of a transaction -/

/-- Where the block of a record is. -/
abbrev BlockIndexRecord.filePos (r : BlockIndexRecord) : Int × UInt32 := (r.nFile, r.nDataPos)

namespace BitcoinDB

section

variable {rb : RustBitcoin} {tgt : Target} {entries : Option Entries} {db : BitcoinDB}
  {kv : KeyValue} {txDb : TxDB} (hnew : BlockIndex.new rb tgt entries = .ok db.blockIndex)
  (hdistinct : (db.blockIndex.records.map BlockIndexRecord.filePos).Nodup)
  (hopen : TxDB.openAt (some kv) db.blockIndex = some txDb)
include hdistinct hopen

/-- With distinct positions, the map that `TxDB::open` builds is the inverse of the records. -/
theorem filePosToHeight_eq_some {pos : Int × UInt32} {n : Int} :
    txDb.filePosToHeight pos = some n ↔
      ∃ r ∈ db.blockIndex.records, r.filePos = pos ∧ r.nHeight = n := by
  obtain rfl := Option.some.inj hopen
  have hmap := congrFun (foldl_insert_eq BlockIndexRecord.filePos BlockIndexRecord.nHeight
    db.blockIndex.records) pos
  dsimp only
  rw [hmap, Option.map_eq_some_iff]
  constructor
  · rintro ⟨r, hfind, hn⟩
    obtain ⟨hmem, hpos⟩ := (find?_reverse_eq_some hdistinct).mp hfind
    exact ⟨r, hmem, hpos, hn⟩
  · rintro ⟨r, hmem, hpos, hn⟩
    exact ⟨r, (find?_reverse_eq_some hdistinct).mpr ⟨hmem, hpos⟩, hn⟩

include hnew in
/-- The height at a position, as the place of the record in the index. -/
theorem filePosToHeight_asUsize {pos : Int × UInt32} {height : Nat} :
    (∃ n, txDb.filePosToHeight pos = some n ∧ asUsize n = height) ↔
      ∃ r, db.blockIndex.records[height]? = some r ∧ r.filePos = pos := by
  simp only [filePosToHeight_eq_some hdistinct hopen]
  exact BlockIndex.exists_height_iff hnew

end

/-- **`get_block_height` finds the block of a transaction**, on every index that `BlockIndex::new`
builds with distinct positions: it returns `height` exactly when record `height` is at the position
that the txindex has for the transaction, an error when no record is, another error when the txindex
has no entry, and 0 for the genesis transaction. -/
theorem getBlockHeight_finds (rb : RustBitcoin) (tgt : Target) (entries : Option Entries)
    (db : BitcoinDB) (kv : KeyValue) (hnew : BlockIndex.new rb tgt entries = .ok db.blockIndex)
    (hdistinct : (db.blockIndex.records.map BlockIndexRecord.filePos).Nodup)
    (htxDb : db.txDb = TxDB.openAt (some kv) db.blockIndex) :
    db.getBlockHeight tgt genesisTxid = .ok 0 ∧
      ∀ txid,
        (db.getBlockHeight tgt txid = .err (.transactionRecordNotFound txid) ↔
          txid ≠ genesisTxid ∧ kv (TxDB.txKey txid) = .ok none) ∧
        (txid ≠ genesisTxid → ∀ (nFile : Nat) (nDataPos nTxOffset : UInt32), nFile < 2 ^ 31 →
          kv (TxDB.txKey txid) = .ok (some (diskTxPos nFile nDataPos.toNat nTxOffset.toNat)) →
          (∀ height, db.getBlockHeight tgt txid = .ok height ↔
            ∃ r, db.blockIndex.records[height]? = some r ∧ r.filePos = (↑nFile, nDataPos)) ∧
          (db.getBlockHeight tgt txid = .err (.cannotFindHeightForTransaction txid) ↔
            ∀ r ∈ db.blockIndex.records, r.filePos ≠ (↑nFile, nDataPos))) := by
  obtain ⟨txDb, hopen⟩ : ∃ txDb, TxDB.openAt (some kv) db.blockIndex = some txDb := ⟨_, rfl⟩
  have hdb : txDb.db = kv := by
    obtain rfl := Option.some.inj hopen
    rfl
  have hid : txDb.genesisTxid = genesisTxid := by
    obtain rfl := Option.some.inj hopen
    rfl
  have hheight : ∀ txid, db.getBlockHeight tgt txid = txDb.getBlockHeight tgt txid := by
    intro txid
    rw [getBlockHeight, htxDb, hopen, Outcome.ofOption, Outcome.ok_bind]
  have hzero : db.getBlockHeight tgt genesisTxid = .ok 0 := by
    have hgen : txDb.isGenesisTx genesisTxid = true := decide_eq_true hid.symm
    rw [hheight, TxDB.getBlockHeight, if_pos hgen]
  refine ⟨hzero, fun txid => ?_⟩
  by_cases hgen : txid = genesisTxid
  · rw [hgen, hzero]
    exact ⟨⟨fun h => absurd h (by simp), fun h => absurd rfl h.1⟩, fun hne => absurd rfl hne⟩
  have hother : txDb.isGenesisTx txid = false := decide_eq_false (hid ▸ hgen)
  rw [hheight, ← hdb]
  refine ⟨?_, fun _ nFile nDataPos nTxOffset hfile hkv => ?_⟩
  · rw [TxDB.getBlockHeight_eq_notFound hother]
    exact ⟨fun h => ⟨hgen, h⟩, fun h => h.2⟩
  · rw [TxDB.getBlockHeight_of_entry hother hfile hkv]
    have hfound : ∀ n, txDb.filePosToHeight (↑nFile, nDataPos) = some n ↔ _ := fun n =>
      filePosToHeight_eq_some hdistinct hopen
    have hplace : ∀ height, (∃ n, txDb.filePosToHeight (↑nFile, nDataPos) = some n ∧
      asUsize n = height) ↔ _ := fun height => filePosToHeight_asUsize hnew hdistinct hopen
    cases hlookup : txDb.filePosToHeight (↑nFile, nDataPos) with
    | none =>
      simp only [hlookup, reduceCtorEq, false_and, exists_false, false_iff] at hfound hplace
      exact ⟨fun height => ⟨fun h => absurd h (by simp), fun h => absurd h (hplace height)⟩,
        fun _ r hr hpos => hfound _ ⟨r, hr, hpos, rfl⟩, fun _ => rfl⟩
    | some n =>
      simp only [hlookup, Option.some.injEq, exists_eq_left'] at hfound hplace
      dsimp only
      refine ⟨fun height => ?_, fun h => absurd h (by simp), fun h => ?_⟩
      · rw [Outcome.ok.injEq, hplace]
      · obtain ⟨r, hr, hpos, -⟩ := (hfound n).mp rfl
        exact absurd hpos (h r hr)

/-- The second transaction is in block 1. -/
theorem getBlockHeight_storedChain :
    storedDb.getBlockHeight ⟨true, true⟩ block1Header.merkleRoot = .ok 1 := by
  have hload : loadBlockIndex storedBitcoin ⟨true, true⟩ (some mainnetEntries) =
      .ok mainnetRecords := by decide +kernel
  have hfinds := getBlockHeight_finds storedBitcoin ⟨true, true⟩ (some mainnetEntries) storedDb
    storedTxIndex (BlockIndex.new_of_load hload) (by decide +kernel) rfl
  have hentry : storedTxIndex (TxDB.txKey block1Header.merkleRoot) =
      .ok (some (diskTxPos 0 (301 : UInt32).toNat (1 : UInt32).toNat)) := if_pos rfl
  obtain ⟨hheight, -⟩ := (hfinds.2 block1Header.merkleRoot).2 (by decide +kernel) 0 301 1
    (by decide) hentry
  exact (hheight 1).mpr ⟨_, rfl, rfl⟩

end BitcoinDB

/-! ## The output of an outpoint -/

/-- `connect_input` returns the output that the outpoint names in the transaction that
`get_transaction` finds, and nothing when there is none. -/
def ResolvesOutput (rb : RustBitcoin) (tgt : Target) (disk : Disk) (db : BitcoinDB) (txDb : TxDB)
    (txIn : TxIn) : Prop :=
  (∀ out, connectInput rb tgt disk txDb db.blockIndex db.blkFile txIn = .ok (some out) ↔
    ∃ tx, db.getTransaction rb tgt disk id txIn.previousOutput.txid = .ok tx ∧
      tx.output[txIn.previousOutput.vout.toNat]? = some out) ∧
  ((∀ tx, db.getTransaction rb tgt disk id txIn.previousOutput.txid = .ok tx →
    tx.output.length ≤ txIn.previousOutput.vout.toNat) →
      connectInput rb tgt disk txDb db.blockIndex db.blkFile txIn = .ok none)

/-- For the genesis transaction, block 0 is not at a place whose start underflows, and in its first
transaction, when it is read, the named output is output 0. For another one, no number of its value
in the txindex overflows. -/
def LooksUp (rb : RustBitcoin) (tgt : Target) (disk : Disk) (db : BitcoinDB) (txDb : TxDB)
    (outpoint : OutPoint) : Prop :=
  if txDb.isGenesisTx outpoint.txid then
    ∀ r, db.blockIndex.records[0]? = some r →
      ¬ StartUnderflows tgt disk db.blkFile r.nFile r.nDataPos ∧
      ∀ blk tx, db.blkFile.readBlock rb tgt disk r.nFile r.nDataPos = .ok blk →
        blk.txdata[0]? = some tx → tx.output[outpoint.vout.toNat]? = tx.output[0]?
  else
    ∀ value, txDb.db (TxDB.txKey outpoint.txid) = .ok (some value) → ¬ VarintsOverflow tgt 3 value

section

variable {rb : RustBitcoin} {tgt : Target} {disk : Disk} {db : BitcoinDB} {txDb : TxDB}
  {txIn : TxIn}

/-- Both look-ups find nothing. -/
theorem resolves_of_err {e : Error}
    (hget : db.getTransaction rb tgt disk id txIn.previousOutput.txid = .err e)
    (hconnect : connectInput rb tgt disk txDb db.blockIndex db.blkFile txIn = .ok none) :
    ResolvesOutput rb tgt disk db txDb txIn := by
  simp [ResolvesOutput, hget, hconnect]

/-- A panic resolves nothing. -/
theorem not_resolves_of_panic
    (hget : db.getTransaction rb tgt disk id txIn.previousOutput.txid = .panic)
    (hconnect : connectInput rb tgt disk txDb db.blockIndex db.blkFile txIn = .panic) :
    ¬ ResolvesOutput rb tgt disk db txDb txIn := by
  simp [ResolvesOutput, hget, hconnect]

/-- Both look-ups find a transaction: the output must be the named one. -/
theorem resolves_of_ok {tx : Transaction} {found : Option TxOut}
    (hget : db.getTransaction rb tgt disk id txIn.previousOutput.txid = .ok tx)
    (hconnect : connectInput rb tgt disk txDb db.blockIndex db.blkFile txIn = .ok found) :
    ResolvesOutput rb tgt disk db txDb txIn ↔
      tx.output[txIn.previousOutput.vout.toNat]? = found := by
  unfold ResolvesOutput
  simp only [hget, hconnect, Outcome.ok.injEq, exists_eq_left', forall_eq']
  constructor
  · rintro ⟨hsome, hnone⟩
    cases hout : tx.output[txIn.previousOutput.vout.toNat]? with
    | none => exact (hnone (List.getElem?_eq_none_iff.mp hout)).symm
    | some out => exact ((hsome out).mpr hout).symm
  · rintro rfl
    exact ⟨fun out => Iff.rfl, fun hlen => List.getElem?_eq_none_iff.mpr hlen⟩

variable (htxDb : db.txDb = some txDb) (hnull : txIn.previousOutput.isNull = false)
include htxDb hnull

/-- The genesis transaction is looked up in block 0, and its output 0 is returned. -/
theorem resolves_genesis (hgen : txDb.isGenesisTx txIn.previousOutput.txid = true)
    (hblock : ∀ r blk, db.blockIndex.records[0]? = some r →
      db.blkFile.readBlock rb tgt disk r.nFile r.nDataPos = .ok blk →
      ∃ tx, blk.txdata[0]? = some tx ∧ 0 < tx.output.length) :
    ResolvesOutput rb tgt disk db txDb txIn ↔
      LooksUp rb tgt disk db txDb txIn.previousOutput := by
  have hget : db.getTransaction rb tgt disk id txIn.previousOutput.txid =
      db.getBlock rb tgt disk id 0 >>= fun blk => swapRemove blk.txdata 0 >>= fun tx => .ok tx := by
    rw [BitcoinDB.getTransaction, htxDb, Outcome.ofOption, Outcome.ok_bind, if_pos hgen]
    rfl
  have hconnect : connectInput rb tgt disk txDb db.blockIndex db.blkFile txIn = _ :=
    connectInput_genesis hnull hgen
  rw [LooksUp, if_pos hgen]
  rw [BitcoinDB.getBlock] at hget
  cases hr : db.blockIndex.records[0]? with
  | none =>
    rw [hr] at hget hconnect
    exact iff_of_true (resolves_of_err hget hconnect) fun r h => by cases h
  | some r =>
    have hpanic : db.blkFile.readBlock rb tgt disk r.nFile r.nDataPos = .panic ↔ _ :=
      BlkFile.readBlock_eq_panic
    rw [hr, Outcome.ofOption, Outcome.ok_bind] at hget
    rw [hr] at hconnect
    dsimp only at hconnect
    simp only [Option.some.injEq, forall_eq', ← hpanic]
    cases hread : db.blkFile.readBlock rb tgt disk r.nFile r.nDataPos with
    | panic =>
      rw [hread] at hget hconnect
      exact iff_of_false (not_resolves_of_panic hget hconnect) fun h => h.1 rfl
    | err e =>
      rw [hread] at hget hconnect
      exact iff_of_true (resolves_of_err hget hconnect) ⟨by simp, fun blk tx h => by cases h⟩
    | ok blk =>
      obtain ⟨tx, htx, hlen⟩ := hblock r blk hr hread
      have hout : tx.output[0]? = some tx.output[0] := List.getElem?_eq_getElem hlen
      rw [hread] at hget
      simp only [Outcome.ok_bind, id, swapRemove, htx] at hget
      rw [resolves_of_ok hget (connectInput_of_block hnull hgen hr hread htx hout), ← hout]
      refine ⟨fun h => ⟨by simp, fun blk' tx' hblk htx' => ?_⟩, fun h => h.2 blk tx rfl htx⟩
      obtain rfl := Outcome.ok.inj hblk
      obtain rfl := Option.some.inj (htx.symm.trans htx')
      exact h

/-- Any other transaction is read at its place in the txindex by both look-ups. -/
theorem resolves_indexed (hgen : txDb.isGenesisTx txIn.previousOutput.txid = false) :
    ResolvesOutput rb tgt disk db txDb txIn ↔
      LooksUp rb tgt disk db txDb txIn.previousOutput := by
  have hget : db.getTransaction rb tgt disk id txIn.previousOutput.txid =
      txDb.getTxPosition tgt txIn.previousOutput.txid >>= fun txPos =>
        db.blkFile.readTransaction rb disk txPos.nFile txPos.nDataPos txPos.nTxOffset >>= fun tx =>
          .ok tx := by
    rw [BitcoinDB.getTransaction, htxDb, Outcome.ofOption, Outcome.ok_bind, hgen,
      if_neg Bool.false_ne_true]
    rfl
  rw [LooksUp, hgen, if_neg Bool.false_ne_true]
  have hpanic : txDb.getTxPosition tgt txIn.previousOutput.txid = .panic ↔ _ :=
    TxDB.getTxPosition_eq_panic
  have hlooksUp : (∀ value, txDb.db (TxDB.txKey txIn.previousOutput.txid) = .ok (some value) →
      ¬ VarintsOverflow tgt 3 value) ↔
      txDb.getTxPosition tgt txIn.previousOutput.txid ≠ .panic := by
    rw [ne_eq, hpanic]
    constructor
    · rintro h ⟨value, hvalue, hover⟩
      exact h value hvalue hover
    · intro h value hvalue hover
      exact h ⟨value, hvalue, hover⟩
  rw [hlooksUp]
  have hconnect := connectInput.eq_1 rb tgt disk txDb db.blockIndex db.blkFile txIn
  rw [isCoinBase, hnull, if_neg Bool.false_ne_true] at hconnect
  dsimp only at hconnect
  rw [hgen, if_neg Bool.false_ne_true] at hconnect
  cases hpos : txDb.getTxPosition tgt txIn.previousOutput.txid with
  | panic =>
    rw [hpos] at hget hconnect
    exact iff_of_false (not_resolves_of_panic hget hconnect) fun h => h rfl
  | err e =>
    rw [hpos] at hget hconnect
    exact iff_of_true (resolves_of_err hget hconnect) (by simp)
  | ok txPos =>
    rw [hpos, Outcome.ok_bind] at hget
    rw [hpos] at hconnect
    dsimp only at hconnect
    refine iff_of_true ?_ (by simp)
    cases hread : db.blkFile.readTransaction rb disk txPos.nFile txPos.nDataPos txPos.nTxOffset with
    | panic => exact absurd hread (BlkFile.readTransaction_ne_panic rb _ _)
    | err e =>
      rw [hread] at hget hconnect
      exact resolves_of_err hget hconnect
    | ok tx =>
      rw [hread] at hget
      exact (resolves_of_ok hget (connectInput_of_found hnull hgen hpos hread)).mpr rfl

end

/-- **`connect_input` returns the output its outpoint names exactly when `LooksUp` holds**, for an
input that is not a coinbase and a block 0 that, when it can be read, has a transaction with an
output. -/
theorem connectInput_resolves_iff (rb : RustBitcoin) (tgt : Target) (disk : Disk) (db : BitcoinDB)
    (txDb : TxDB) (htxDb : db.txDb = some txDb)
    (hblock : ∀ r blk, db.blockIndex.records[0]? = some r →
      db.blkFile.readBlock rb tgt disk r.nFile r.nDataPos = .ok blk →
      ∃ tx, blk.txdata[0]? = some tx ∧ 0 < tx.output.length)
    (txIn : TxIn) (hnull : txIn.previousOutput.isNull = false) :
    ResolvesOutput rb tgt disk db txDb txIn ↔
      LooksUp rb tgt disk db txDb txIn.previousOutput := by
  cases hgen : txDb.isGenesisTx txIn.previousOutput.txid with
  | true => exact resolves_genesis htxDb hnull hgen hblock
  | false => exact resolves_indexed htxDb hnull hgen

/-- Block 0 of the stored chain. -/
theorem readBlock_storedChain (tgt : Target) :
    storedDb.blkFile.readBlock storedBitcoin tgt storedDisk 0 8 =
      .ok ⟨genesisHeader, [genesisTx]⟩ := by
  obtain ⟨r, hr, -, -, hholds⟩ := storedChain_stored.block 0 ⟨genesisHeader, [genesisTx]⟩ rfl
  cases hr
  have hrun := storedChain_decodes.block ⟨genesisHeader, [genesisTx]⟩ List.mem_cons_self []
  rw [List.append_nil] at hrun
  exact hholds.readBlock hrun tgt

/-- Its first transaction has an output. -/
theorem output_storedChain (tgt : Target) : ∀ r blk, storedDb.blockIndex.records[0]? = some r →
    storedDb.blkFile.readBlock storedBitcoin tgt storedDisk r.nFile r.nDataPos = .ok blk →
    ∃ tx, blk.txdata[0]? = some tx ∧ 0 < tx.output.length := by
  intro r blk hr hread
  cases hr
  obtain rfl := Outcome.ok.inj ((readBlock_storedChain tgt).symm.trans hread)
  exact ⟨genesisTx, rfl, by decide⟩

/-- The output that the third block spends. -/
theorem connectInput_resolves_storedChain :
    ∃ txDb, storedDb.txDb = some txDb ∧
      (ResolvesOutput storedBitcoin ⟨true, true⟩ storedDisk storedDb txDb
          ⟨⟨block1Header.merkleRoot, 0⟩, [], 0xffffffff, []⟩ ↔
        LooksUp storedBitcoin ⟨true, true⟩ storedDisk storedDb txDb ⟨block1Header.merkleRoot, 0⟩) :=
  ⟨_, rfl, connectInput_resolves_iff storedBitcoin ⟨true, true⟩ storedDisk storedDb _ rfl
    (output_storedChain ⟨true, true⟩) ⟨⟨block1Header.merkleRoot, 0⟩, [], 0xffffffff, []⟩
    (by decide +kernel)⟩

/-- **An output 1 of the genesis transaction**, which has a single output, is resolved to output
0. -/
theorem connectInput_genesis_vout :
    ∃ txDb, storedDb.txDb = some txDb ∧
      connectInput storedBitcoin ⟨true, true⟩ storedDisk txDb storedDb.blockIndex storedDb.blkFile
          ⟨⟨genesisTxid, 1⟩, [], 0xffffffff, []⟩ = .ok (some ⟨5000000000, payTo genesisKey⟩) ∧
      ¬ ResolvesOutput storedBitcoin ⟨true, true⟩ storedDisk storedDb txDb
          ⟨⟨genesisTxid, 1⟩, [], 0xffffffff, []⟩ := by
  obtain ⟨txDb, htxDb, -, hid⟩ := storedChain_stored.txDb_eq
  have hnull : (⟨genesisTxid, 1⟩ : OutPoint).isNull = false := by decide +kernel
  have hgen : txDb.isGenesisTx genesisTxid = true := decide_eq_true hid.symm
  have hrecord : storedDb.blockIndex.records[0]? =
      some ⟨1, 0, 13, 1, 0, 8, 0xffffffff, genesisHeader⟩ := rfl
  have hread := readBlock_storedChain ⟨true, true⟩
  have htx : (⟨genesisHeader, [genesisTx]⟩ : Block).txdata[0]? = some genesisTx := rfl
  have hout : genesisTx.output[0]? = some ⟨5000000000, payTo genesisKey⟩ := rfl
  refine ⟨txDb, htxDb, connectInput_of_block hnull hgen hrecord hread htx hout, fun hresolves => ?_⟩
  have hlooksUp := (resolves_genesis htxDb hnull hgen (output_storedChain ⟨true, true⟩)).mp
    hresolves
  rw [LooksUp, if_pos hgen] at hlooksUp
  exact absurd ((hlooksUp _ hrecord).2 _ genesisTx hread htx) (by decide +kernel)

end BitcoinExplorer
