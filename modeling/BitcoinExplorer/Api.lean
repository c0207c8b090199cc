import BitcoinExplorer.Parser.ConnectedBlock

/-!
# `src/api.rs`: the queries of `BitcoinDB`

The queries of an opened database. A query that is generic in its result takes the conversion
`From<Block>`, `From<Transaction>` or the `connect` method of the format as its parameter.

* **`hash_height_inverse`**: height and hash lookups undo each other.
-/

namespace BitcoinExplorer

open Rust Backtrace

/-- `InnerDB`. -/
structure BitcoinDB where
  blkFile : BlkFile
  blockIndex : BlockIndex
  txDb : Option TxDB

namespace BitcoinDB

section

variable {T : Type} (rb : RustBitcoin) (tgt : Target) (disk : Disk) (self : BitcoinDB)

/-- `get_block_count`: the height of the first record without transactions. -/
def getBlockCount : Nat := self.blockIndex.records.findIdx fun r => r.nTx = 0

/-- `get_header`. -/
def getHeader (height : Nat) : Outcome Error BlockIndexRecord :=
  .ofOption (.blockIndexRecordNotFound height) self.blockIndex.records[height]?

/-- `get_hash_from_height`. -/
def getHashFromHeight (height : Nat) : Outcome Error BlockHash :=
  .ofOption (.blockIndexRecordNotFound height)
    (self.blockIndex.records[height]?.map fun s => rb.blockHash s.blockHeader)

/-- `get_height_from_hash`. -/
def getHeightFromHash (hash : BlockHash) : Outcome Error Nat :=
  .ofOption (.blockHashNotFound hash) ((self.blockIndex.hashToHeight hash).map asUsize)

/-- `get_raw_block`. -/
def getRawBlock (height : Nat) : Outcome Error (List UInt8) := do
  let index ← .ofOption (.blockIndexRecordNotFound height) self.blockIndex.records[height]?
  self.blkFile.readRawBlock tgt disk index.nFile index.nDataPos

/-- `get_block`. -/
def getBlock (into : Block → T) (height : Nat) : Outcome Error T := do
  let index ← .ofOption (.blockIndexRecordNotFound height) self.blockIndex.records[height]?
  let block ← self.blkFile.readBlock rb tgt disk index.nFile index.nDataPos
  .ok (into block)

/-- `get_transaction`. -/
def getTransaction (into : Transaction → T) (txid : Txid) : Outcome Error T := do
  let txDb ← .ofOption .txDbUnavailable self.txDb
  if txDb.isGenesisTx txid then do
    let block ← self.getBlock rb tgt disk id 0
    let tx ← swapRemove block.txdata 0
    .ok (into tx)
  else do
    let txPos ← txDb.getTxPosition tgt txid
    let tx ← self.blkFile.readTransaction rb disk txPos.nFile txPos.nDataPos txPos.nTxOffset
    .ok (into tx)

/-- `get_block_height`. -/
def getBlockHeight (txid : Txid) : Outcome Error Nat := do
  let txDb ← .ofOption .txDbUnavailable self.txDb
  txDb.getBlockHeight tgt txid

/-- `get_connected_block`. -/
def getConnectedBlock (connect : Block → TxDB → BlockIndex → BlkFile → Outcome Error T)
    (height : Nat) : Outcome Error T := do
  let txDb ← .ofOption .txDbUnavailable self.txDb
  let tx ← self.getBlock rb tgt disk id height
  connect tx txDb self.blockIndex self.blkFile

/-- `get_connected_transaction`. -/
def getConnectedTransaction
    (connect : Transaction → TxDB → BlockIndex → BlkFile → Outcome Error T) (txid : Txid) :
    Outcome Error T := do
  let txDb ← .ofOption .txDbUnavailable self.txDb
  let tx ← self.getTransaction rb tgt disk id txid
  connect tx txDb self.blockIndex self.blkFile

end

theorem getHashFromHeight_eq_ok {rb : RustBitcoin} {db : BitcoinDB} {height : Nat}
    {hash : BlockHash} :
    db.getHashFromHeight rb height = .ok hash ↔
      ∃ r, db.blockIndex.records[height]? = some r ∧ rb.blockHash r.blockHeader = hash := by
  rw [getHashFromHeight, Outcome.ofOption_eq_ok, Option.map_eq_some_iff]

section

variable {rb : RustBitcoin} {tgt : Target} {entries : Option Entries} {db : BitcoinDB}
  (hnew : BlockIndex.new rb tgt entries = .ok db.blockIndex)
include hnew

/-- The reverse index finds the records by their hashes. -/
theorem hashToHeight_eq_some {hash : BlockHash} {n : Int} :
    db.blockIndex.hashToHeight hash = some n ↔
      ∃ r ∈ db.blockIndex.records, rb.blockHash r.blockHeader = hash ∧ r.nHeight = n := by
  obtain ⟨-, hnodup, hmap⟩ := BlockIndex.new_eq_ok hnew
  rw [hmap, Option.map_eq_some_iff]
  constructor
  · rintro ⟨r, hr, hn⟩
    obtain ⟨hmem, hkey⟩ := (store_eq_some hnodup).mp hr
    exact ⟨r, hmem, hkey, hn⟩
  · rintro ⟨r, hmem, hkey, hn⟩
    exact ⟨r, (store_eq_some hnodup).mpr ⟨hmem, hkey⟩, hn⟩

/-- A height found for a hash is the place of the record with that hash. -/
theorem getHeightFromHash_eq_ok {height : Nat} {hash : BlockHash} :
    db.getHeightFromHash hash = .ok height ↔
      ∃ r, db.blockIndex.records[height]? = some r ∧ rb.blockHash r.blockHeader = hash := by
  rw [getHeightFromHash, Outcome.ofOption_eq_ok, Option.map_eq_some_iff]
  simp only [hashToHeight_eq_some hnew]
  exact BlockIndex.exists_height_iff hnew

end

/-- **Height and hash lookups are mutually inverse** on every index that `BlockIndex::new` builds,
and a hash has no height exactly when it is of no record. -/
theorem hash_height_inverse (rb : RustBitcoin) (tgt : Target) (entries : Option Entries)
    (db : BitcoinDB) (hnew : BlockIndex.new rb tgt entries = .ok db.blockIndex) :
    (∀ height hash, db.getHashFromHeight rb height = .ok hash →
      db.getHeightFromHash hash = .ok height) ∧
      (∀ hash height, db.getHeightFromHash hash = .ok height →
        db.getHashFromHeight rb height = .ok hash) ∧
      ∀ hash, (∃ e, db.getHeightFromHash hash = .err e) ↔
        ∀ r ∈ db.blockIndex.records, rb.blockHash r.blockHeader ≠ hash := by
  refine ⟨fun height hash h => ?_, fun hash height h => ?_, fun hash => ?_⟩
  · exact (getHeightFromHash_eq_ok hnew).mpr (getHashFromHeight_eq_ok.mp h)
  · exact getHashFromHeight_eq_ok.mpr ((getHeightFromHash_eq_ok hnew).mp h)
  · have hfound : ∀ n, db.blockIndex.hashToHeight hash = some n ↔ _ := fun n =>
      hashToHeight_eq_some hnew
    cases hlookup : db.blockIndex.hashToHeight hash with
    | none =>
      simp only [hlookup, reduceCtorEq, false_iff] at hfound
      refine ⟨fun _ r hr hkey => hfound _ ⟨r, hr, hkey, rfl⟩,
        fun _ => ⟨.blockHashNotFound hash, ?_⟩⟩
      rw [getHeightFromHash, hlookup]
      rfl
    | some n =>
      obtain ⟨r, hr, hkey, -⟩ := (hfound n).mp hlookup
      refine ⟨fun ⟨e, he⟩ => ?_, fun h => absurd hkey (h r hr)⟩
      rw [getHeightFromHash, hlookup] at he
      cases he

/-- Height 0 is found again from its hash. -/
theorem hash_height_mainnet :
    BitcoinDB.getHeightFromHash
      ⟨⟨fun _ => none, none⟩,
        ⟨mainnetRecords, reverseIndex mainnetBitcoin mainnetRecords⟩, none⟩
      block1Header.prevBlockhash = .ok 0 := by
  have hload : loadBlockIndex mainnetBitcoin ⟨true, true⟩ (some mainnetEntries) =
      .ok mainnetRecords := by decide +kernel
  refine (hash_height_inverse mainnetBitcoin ⟨true, true⟩ (some mainnetEntries)
    ⟨⟨fun _ => none, none⟩,
      ⟨mainnetRecords, reverseIndex mainnetBitcoin mainnetRecords⟩, none⟩ ?_).1 0 _ ?_
  · exact BlockIndex.new_of_load hload
  · decide

end BitcoinDB

end BitcoinExplorer
