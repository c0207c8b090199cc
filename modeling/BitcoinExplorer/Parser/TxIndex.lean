import BitcoinExplorer.Parser.BlockIndex

/-!
# `src/parser/tx_index.rs`: the transaction index

The txindex is a leveldb that maps `t` and a txid to the place of the transaction on disk. A
database is its `get`: an `Err`, or the value if there is one. `diskTxPos` is the value Bitcoin Core
stores.
-/

namespace BitcoinExplorer

open Rust Varint

/-- `Txid::from_str(GENESIS_TXID)`. -/
def genesisTxid : Txid := 0x4a5e1e4baab89f3a32518a88c31bc87f618f76673e2cc77ab2127b7afdeda33b

/-- `TransactionPosition`. -/
structure TransactionPosition where
  txid : Txid
  nFile : Int
  nDataPos : UInt32
  nTxOffset : UInt32
  deriving DecidableEq, Repr

/-- `Database::get`. -/
abbrev KeyValue := List UInt8 → Except Unit (Option (List UInt8))

/-- `TxDB`. -/
structure TxDB where
  db : KeyValue
  filePosToHeight : Int × UInt32 → Option Int
  genesisTxid : Txid

namespace TxDB

/-- `TxDB::open`; `none` when there is no database at the path, or it cannot be opened. -/
def openAt (path : Option KeyValue) (blkIndex : BlockIndex) : Option TxDB :=
  match path with
  | some db =>
    some
      { db
        filePosToHeight := blkIndex.records.foldl
          (fun (m : Int × UInt32 → Option Int) b pos =>
            if pos = (b.nFile, b.nDataPos) then some b.nHeight else m pos)
          fun _ => none
        genesisTxid := BitcoinExplorer.genesisTxid }
  | none => none

/-- `is_genesis_tx`. -/
def isGenesisTx (self : TxDB) (txid : Txid) : Bool := txid = self.genesisTxid

/-- The key of a transaction. -/
def txKey (txid : Txid) : List UInt8 := 0x74 :: asByteArray txid

/-- `get_tx_position`. -/
def getTxPosition (tgt : Target) (self : TxDB) (txid : Txid) :
    Outcome Error TransactionPosition := do
  let value ← match self.db (txKey txid) with
    | .ok value => Outcome.ok value
    | .error _ => .err .leveldb
  match value with
  | some value => do
    let (nFile, reader) ← readVarint tgt value 0
    let (nDataPos, reader) ← readVarint tgt reader 0
    let (nTxOffset, _) ← readVarint tgt reader 0
    .ok { txid, nFile := asI32 nFile, nDataPos := asU32 nDataPos, nTxOffset := asU32 nTxOffset }
  | none => .err (.transactionRecordNotFound txid)

/-- `get_block_height`. -/
def getBlockHeight (tgt : Target) (self : TxDB) (txid : Txid) : Outcome Error Nat :=
  if self.isGenesisTx txid then .ok 0
  else do
    let txPos ← self.getTxPosition tgt txid
    match self.filePosToHeight (txPos.nFile, txPos.nDataPos) with
    | some height => .ok (asUsize height)
    | none => .err (.cannotFindHeightForTransaction txid)

end TxDB

/-- The value Bitcoin Core stores for a transaction: file, position of the block, and offset of the
transaction behind the header of the block. -/
def diskTxPos (nFile nPos nTxOffset : Nat) : List UInt8 :=
  writeVarInt nFile ++ (writeVarInt nPos ++ writeVarInt nTxOffset)

/-- **`get_tx_position` undoes the encoding of the txindex**, for values in the ranges of their
types. -/
theorem TxDB.getTxPosition_diskTxPos (tgt : Target) {self : TxDB} {txid : Txid}
    {nFile nPos nTxOffset : Nat} (hfile : nFile < 2 ^ 31) (hpos : nPos < 2 ^ 32)
    (hoffset : nTxOffset < 2 ^ 32)
    (hget : self.db (txKey txid) = .ok (some (diskTxPos nFile nPos nTxOffset))) :
    self.getTxPosition tgt txid =
      .ok ⟨txid, nFile, UInt32.ofNat nPos, UInt32.ofNat nTxOffset⟩ := by
  have hlast : readVarint tgt (writeVarInt nTxOffset) 0 = .ok (nTxOffset, []) := by
    rw [← readVarint_writeVarInt tgt (by omega : nTxOffset < 2 ^ 64) [], List.append_nil]
  unfold getTxPosition
  rw [hget]
  dsimp only
  rw [Outcome.ok_bind]
  dsimp only [diskTxPos]
  rw [readVarint_writeVarInt tgt (by omega), Outcome.ok_bind]
  dsimp only
  rw [readVarint_writeVarInt tgt (by omega), Outcome.ok_bind]
  dsimp only
  rw [hlast, Outcome.ok_bind, asI32_of_lt hfile, asU32, asU32]

namespace TxDB

variable {tgt : Target} {self : TxDB} {txid : Txid}

/-- A transaction has no record exactly when the database has no value for it. -/
theorem getTxPosition_eq_notFound :
    self.getTxPosition tgt txid = .err (.transactionRecordNotFound txid) ↔
      self.db (txKey txid) = .ok none := by
  unfold getTxPosition
  cases self.db (txKey txid) with
  | error e => simp
  | ok value =>
    cases value with
    | none => simp
    | some value =>
      -- the other errors are those of the reader
      simp only [Outcome.ok_bind, Outcome.bind_eq_err, Except.ok.injEq, reduceCtorEq, iff_false]
      rintro (h | ⟨_, -, h | ⟨_, -, h | ⟨_, -, h⟩⟩⟩)
      · cases readVarint_eq_err h
      · cases readVarint_eq_err h
      · cases readVarint_eq_err h
      · cases h

/-- So it is for the height of any transaction but the genesis one. -/
theorem getBlockHeight_eq_notFound (hgen : self.isGenesisTx txid = false) :
    self.getBlockHeight tgt txid = .err (.transactionRecordNotFound txid) ↔
      self.db (txKey txid) = .ok none := by
  have hnone : self.getTxPosition tgt txid = .err (.transactionRecordNotFound txid) ↔ _ :=
    getTxPosition_eq_notFound
  rw [getBlockHeight, hgen, if_neg Bool.false_ne_true, ← hnone, Outcome.bind_eq_err]
  refine ⟨fun h => h.resolve_right ?_, Or.inl⟩
  rintro ⟨txPos, -, h⟩
  cases hfound : self.filePosToHeight (txPos.nFile, txPos.nDataPos) <;> simp [hfound] at h

/-- The height is looked up at the position of the entry. -/
theorem getBlockHeight_of_entry (hgen : self.isGenesisTx txid = false) {nFile : Nat}
    {nDataPos nTxOffset : UInt32} (hfile : nFile < 2 ^ 31)
    (hget : self.db (txKey txid) =
      .ok (some (diskTxPos nFile nDataPos.toNat nTxOffset.toNat))) :
    self.getBlockHeight tgt txid =
      match self.filePosToHeight (↑nFile, nDataPos) with
      | some height => .ok (asUsize height)
      | none => .err (.cannotFindHeightForTransaction txid) := by
  rw [getBlockHeight, hgen, if_neg Bool.false_ne_true,
    getTxPosition_diskTxPos tgt hfile nDataPos.toNat_lt nTxOffset.toNat_lt hget, Outcome.ok_bind]
  dsimp only
  rw [UInt32.ofNat_toNat]

/-- The look-up panics exactly when one of the three numbers of the value overflows. -/
theorem getTxPosition_eq_panic :
    self.getTxPosition tgt txid = .panic ↔
      ∃ value, self.db (txKey txid) = .ok (some value) ∧ VarintsOverflow tgt 3 value := by
  unfold getTxPosition
  cases self.db (txKey txid) with
  | error e => simp
  | ok value =>
    cases value with
    | none => simp
    | some value =>
      simp only [Outcome.ok_bind, readVarint_bind_eq_panic, reduceCtorEq, and_false, exists_false,
        Except.ok.injEq, Option.some.injEq, exists_eq_left', VarintsOverflow]

end TxDB

end BitcoinExplorer
