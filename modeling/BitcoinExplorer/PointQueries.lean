import BitcoinExplorer.CoreData

/-!
# `src/api.rs`: when a point query panics

`get_raw_block`, `get_block`, `get_transaction` and `get_connected_block` return a `Result`. What
the files hold only ever makes them return `Err`; they panic where they compute with a position or
remove from a vector without a check, and in the varints of the txindex:

* `offset - 4`, for a record whose position is below 4 (`StartUnderflowsAt`);
* `swap_remove(0)` on the transactions of block 0, and on the outputs of its first transaction;
* `n += 1` in `read_varint`, for a value of the txindex (`VarintsOverflow`).

`pointQueries_return_iff` puts these together: on which databases the four queries return.
-/

namespace BitcoinExplorer

open Rust

variable {rb : RustBitcoin} {tgt : Target} {disk : Disk} {db : BitcoinDB}

/-- The record at the height has a file that is there and a position below 4, on a checked build. -/
def StartUnderflowsAt (tgt : Target) (disk : Disk) (db : BitcoinDB) (height : Nat) : Prop :=
  ∃ r, db.blockIndex.records[height]? = some r ∧
    StartUnderflows tgt disk db.blkFile r.nFile r.nDataPos

/-- The block that the record at the height leads to. -/
def Stores (rb : RustBitcoin) (tgt : Target) (disk : Disk) (db : BitcoinDB) (height : Nat)
    (block : Block) : Prop :=
  ∃ r, db.blockIndex.records[height]? = some r ∧
    db.blkFile.readBlock rb tgt disk r.nFile r.nDataPos = .ok block

/-- The value of a transaction in the txindex is read without an overflow. -/
def PositionReadable (tgt : Target) (txDb : TxDB) (txid : Txid) : Prop :=
  ∀ value, txDb.db (TxDB.txKey txid) = .ok (some value) → ¬ VarintsOverflow tgt 3 value

/-- What `get_transaction` relies on. -/
structure TransactionSafe (rb : RustBitcoin) (tgt : Target) (disk : Disk) (db : BitcoinDB)
    (txDb : TxDB) (txid : Txid) : Prop where
  genesis : txDb.isGenesisTx txid = true → ¬ StartUnderflowsAt tgt disk db 0 ∧
    ∀ block, Stores rb tgt disk db 0 block → block.txdata ≠ []
  other : txDb.isGenesisTx txid = false → PositionReadable tgt txDb txid

/-- What `connect_input` relies on. -/
structure InputSafe (rb : RustBitcoin) (tgt : Target) (disk : Disk) (db : BitcoinDB) (txDb : TxDB)
    (txid : Txid) : Prop where
  genesis : txDb.isGenesisTx txid = true → ¬ StartUnderflowsAt tgt disk db 0 ∧
    ∀ block, Stores rb tgt disk db 0 block → ∃ tx out, block.txdata[0]? = some tx ∧
      tx.output[0]? = some out
  other : txDb.isGenesisTx txid = false → PositionReadable tgt txDb txid

/-! ## Blocks and transactions -/

theorem getRawBlock_eq_panic {height : Nat} :
    db.getRawBlock tgt disk height = .panic ↔ StartUnderflowsAt tgt disk db height := by
  rw [BitcoinDB.getRawBlock, Outcome.bind_eq_panic, or_iff_right Outcome.ofOption_ne_panic]
  simp only [Outcome.ofOption_eq_ok, BlkFile.readRawBlock_eq_panic, StartUnderflowsAt]

theorem getBlock_eq_panic {T : Type} {into : Block → T} {height : Nat} :
    db.getBlock rb tgt disk into height = .panic ↔ StartUnderflowsAt tgt disk db height := by
  rw [BitcoinDB.getBlock, Outcome.bind_eq_panic, or_iff_right Outcome.ofOption_ne_panic]
  simp only [Outcome.bind_eq_panic, Outcome.ofOption_eq_ok, BlkFile.readBlock_eq_panic,
    reduceCtorEq, and_false, exists_false, or_false, StartUnderflowsAt]

theorem getBlock_eq_ok {height : Nat} {block : Block} :
    db.getBlock rb tgt disk id height = .ok block ↔ Stores rb tgt disk db height block := by
  simp only [BitcoinDB.getBlock, Outcome.bind_eq_ok, Outcome.ofOption_eq_ok, id_eq,
    Outcome.ok.injEq, exists_eq_right, Stores]

theorem swapRemove_eq_panic {ε α : Type} {l : List α} {index : Nat} :
    (swapRemove l index : Outcome ε α) = .panic ↔ l[index]? = none := by
  unfold swapRemove
  cases l[index]? <;> simp

theorem getTxPosition_ne_panic_iff {txDb : TxDB} {txid : Txid} :
    txDb.getTxPosition tgt txid ≠ .panic ↔ PositionReadable tgt txDb txid := by
  rw [ne_eq, TxDB.getTxPosition_eq_panic, PositionReadable]
  simp only [not_exists, not_and]

theorem getTransaction_ne_panic_iff {T : Type} {into : Transaction → T} {txid : Txid} :
    db.getTransaction rb tgt disk into txid ≠ .panic ↔
      ∀ txDb, db.txDb = some txDb → TransactionSafe rb tgt disk db txDb txid := by
  rw [BitcoinDB.getTransaction, ne_eq, Outcome.bind_eq_panic,
    or_iff_right Outcome.ofOption_ne_panic]
  simp only [Outcome.ofOption_eq_ok, not_exists, not_and]
  refine forall₂_congr fun txDb _ => ?_
  cases hgen : txDb.isGenesisTx txid with
  | true =>
    simp only [if_true, Outcome.bind_eq_panic, getBlock_eq_panic, getBlock_eq_ok,
      swapRemove_eq_panic, reduceCtorEq, and_false, exists_false, or_false, not_or,
      not_exists, not_and]
    constructor
    · rintro ⟨hstart, hblock⟩
      refine ⟨fun _ => ⟨hstart, fun block hb hnil => hblock block hb ?_⟩, fun h => ?_⟩
      · rw [hnil, List.getElem?_nil]
      · cases hgen.symm.trans h
    · intro h
      refine ⟨(h.genesis hgen).1, fun block hb hnone => (h.genesis hgen).2 block hb ?_⟩
      exact List.length_eq_zero_iff.mp (Nat.le_zero.mp (List.getElem?_eq_none_iff.mp hnone))
  | false =>
    simp only [Bool.false_eq_true, if_false, Outcome.bind_eq_panic, reduceCtorEq, and_false,
      exists_false, or_false, BlkFile.readTransaction_ne_panic]
    rw [← ne_eq, getTxPosition_ne_panic_iff]
    constructor
    · intro h
      refine ⟨fun h' => ?_, fun _ => h⟩
      cases hgen.symm.trans h'
    · exact fun h => h.other hgen

/-! ## Connected blocks -/

theorem InputSafe.iff_genesis {txDb : TxDB} {txid : Txid} (hgen : txDb.isGenesisTx txid = true) :
    InputSafe rb tgt disk db txDb txid ↔ ¬ StartUnderflowsAt tgt disk db 0 ∧
      ∀ block, Stores rb tgt disk db 0 block → ∃ tx out, block.txdata[0]? = some tx ∧
        tx.output[0]? = some out := by
  constructor
  · exact fun h => h.genesis hgen
  · refine fun h => ⟨fun _ => h, fun h' => ?_⟩
    cases hgen.symm.trans h'

theorem InputSafe.iff_other {txDb : TxDB} {txid : Txid} (hgen : txDb.isGenesisTx txid = false) :
    InputSafe rb tgt disk db txDb txid ↔ txDb.getTxPosition tgt txid ≠ .panic := by
  rw [getTxPosition_ne_panic_iff]
  constructor
  · exact fun h => h.other hgen
  · refine fun h => ⟨fun h' => ?_, fun _ => h⟩
    cases hgen.symm.trans h'

/-- The genesis branch of `connect_input` returns where the block of record 0 has what it
removes. -/
theorem connectInput_genesis_returns {txDb : TxDB} {txIn : TxIn}
    (hnull : txIn.previousOutput.isNull = false)
    (hgen : txDb.isGenesisTx txIn.previousOutput.txid = true) :
    (∀ e, connectInput rb tgt disk txDb db.blockIndex db.blkFile txIn ≠ .err e) ∧
      (connectInput rb tgt disk txDb db.blockIndex db.blkFile txIn ≠ .panic ↔
        InputSafe rb tgt disk db txDb txIn.previousOutput.txid) := by
  rw [InputSafe.iff_genesis hgen, connectInput_genesis hnull hgen]
  cases hrecord : db.blockIndex.records[0]? with
  | none => simp [StartUnderflowsAt, Stores, hrecord]
  | some r =>
    simp only [StartUnderflowsAt, Stores, hrecord, Option.some.injEq, exists_eq_left']
    rw [← BlkFile.readBlock_eq_panic]
    cases db.blkFile.readBlock rb tgt disk r.nFile r.nDataPos with
    | panic => simp
    | err e => simp
    | ok block =>
      simp only [Outcome.ok.injEq, forall_eq', reduceCtorEq, not_false_eq_true, true_and]
      cases htx : block.txdata[0]? with
      | none => simp [swapRemove, htx]
      | some tx =>
        cases hout : tx.output[0]? with
        | none => simp [swapRemove, htx, hout]
        | some out => simp [swapRemove, htx, hout]

/-- The other branch returns where the position does. -/
theorem connectInput_other_returns {txDb : TxDB} {txIn : TxIn}
    (hnull : txIn.previousOutput.isNull = false)
    (hgen : txDb.isGenesisTx txIn.previousOutput.txid = false) :
    (∀ e, connectInput rb tgt disk txDb db.blockIndex db.blkFile txIn ≠ .err e) ∧
      (connectInput rb tgt disk txDb db.blockIndex db.blkFile txIn ≠ .panic ↔
        InputSafe rb tgt disk db txDb txIn.previousOutput.txid) := by
  rw [InputSafe.iff_other hgen]
  cases hpos : txDb.getTxPosition tgt txIn.previousOutput.txid with
  | panic => simp [connectInput, isCoinBase, hnull, hgen, hpos]
  | err e => simp [connectInput, isCoinBase, hnull, hgen, hpos]
  | ok txPos =>
    cases hread : db.blkFile.readTransaction rb disk txPos.nFile txPos.nDataPos
        txPos.nTxOffset with
    | panic => exact absurd hread (BlkFile.readTransaction_ne_panic rb _ _)
    | err e => simp [connectInput, isCoinBase, hnull, hgen, hpos, hread]
    | ok tx =>
      rw [connectInput_of_found hnull hgen hpos hread]
      simp

/-- `connect_input` returns an `Option` where it returns, and returns exactly on a null input and on
one it is safe for. -/
theorem connectInput_returns {txDb : TxDB} (txIn : TxIn) :
    (∀ e, connectInput rb tgt disk txDb db.blockIndex db.blkFile txIn ≠ .err e) ∧
      (connectInput rb tgt disk txDb db.blockIndex db.blkFile txIn ≠ .panic ↔
        (txIn.previousOutput.isNull = false →
          InputSafe rb tgt disk db txDb txIn.previousOutput.txid)) := by
  cases hnull : txIn.previousOutput.isNull with
  | true =>
    rw [connectInput, isCoinBase, hnull, if_pos rfl]
    simp
  | false =>
    rw [forall_prop_of_true rfl]
    cases hgen : txDb.isGenesisTx txIn.previousOutput.txid with
    | true => exact connectInput_genesis_returns hnull hgen
    | false => exact connectInput_other_returns hnull hgen

/-- Every input of the block at the height is one `connect_input` is safe for. -/
def InputsSafe (rb : RustBitcoin) (tgt : Target) (disk : Disk) (db : BitcoinDB) (txDb : TxDB)
    (block : Block) : Prop :=
  ∀ tx ∈ block.txdata, ∀ input ∈ tx.input, input.previousOutput.isNull = false →
    InputSafe rb tgt disk db txDb input.previousOutput.txid

theorem popOutputs_ne_panic {input : List TxIn} {connected : List (Option TxOut)}
    (h : input.length ≤ connected.length) : ∃ outputs,
      popOutputs input connected = .ok (outputs, connected.drop input.length) := by
  induction input generalizing connected with
  | nil => exact ⟨[], rfl⟩
  | cons i input ih =>
    cases connected with
    | nil => cases h
    | cons out connected =>
      obtain ⟨outputs, hout⟩ := ih (Nat.le_of_succ_le_succ h)
      rw [popOutputs, hout, Outcome.ok_bind]
      cases out with
      | none => exact ⟨outputs, rfl⟩
      | some out => exact ⟨out :: outputs, rfl⟩

/-- Handing out as many outputs as there are inputs never panics. -/
theorem reconstruct_ne_panic {Tx Out : Type} {CT : ConnectedTx Tx Out} {txs : List Transaction}
    {connected : List (Option TxOut)}
    (h : (txs.flatMap Transaction.input).length ≤ connected.length) :
    reconstruct CT txs connected ≠ .panic := by
  induction txs generalizing connected with
  | nil => simp [reconstruct]
  | cons tx txs ih =>
    rw [List.flatMap_cons, List.length_append] at h
    obtain ⟨outputs, hout⟩ := popOutputs_ne_panic (show tx.input.length ≤ connected.length by omega)
    rw [reconstruct, hout, Outcome.ok_bind]
    dsimp only
    have hrest : reconstruct CT txs (connected.drop tx.input.length) ≠ .panic :=
      ih (by rw [List.length_drop]; omega)
    by_cases hcount : outputs.length = if tx.isCoinbase then 0 else tx.input.length
    · rw [if_neg (not_not.mpr hcount)]
      simpa [Outcome.bind_eq_panic] using hrest
    · rw [if_pos hcount]
      simp

theorem connectBlockInputs_ne_panic_iff {Tx Out : Type} {CT : ConnectedTx Tx Out} {txDb : TxDB}
    {block : Block} :
    connectBlockInputs CT (connectInput rb tgt disk txDb db.blockIndex db.blkFile) block.txdata ≠
        .panic ↔ InputsSafe rb tgt disk db txDb block := by
  have hall : (block.txdata.flatMap Transaction.input).mapM
        (connectInput rb tgt disk txDb db.blockIndex db.blkFile) ≠ .panic ↔
      InputsSafe rb tgt disk db txDb block := by
    rw [Outcome.mapM_ne_panic_iff fun txIn => (connectInput_returns txIn).1]
    simp only [(connectInput_returns _).2, List.mem_flatMap, InputsSafe]
    exact ⟨fun h tx htx input hi => h input ⟨tx, htx, hi⟩,
      fun h input ⟨tx, htx, hi⟩ => h tx htx input hi⟩
  rw [← hall, connectBlockInputs, ne_eq, Outcome.bind_eq_panic, or_iff_left]
  rintro ⟨connected, hconnected, hpanic⟩
  exact reconstruct_ne_panic (Outcome.length_of_mapM hconnected).ge hpanic

/-- Connecting the block a record leads to, in a format that connects its inputs together. -/
theorem getConnectedBlock_ne_panic_iff {T Tx Out : Type} {CT : ConnectedTx Tx Out}
    {connect : Block → TxDB → BlockIndex → BlkFile → Outcome Error T} {height : Nat}
    (hconnect : ∀ block txDb, connect block txDb db.blockIndex db.blkFile = .panic ↔
      connectBlockInputs CT (connectInput rb tgt disk txDb db.blockIndex db.blkFile) block.txdata =
        .panic) :
    db.getConnectedBlock rb tgt disk connect height ≠ .panic ↔
      ∀ txDb, db.txDb = some txDb → ¬ StartUnderflowsAt tgt disk db height ∧
        ∀ block, Stores rb tgt disk db height block → InputsSafe rb tgt disk db txDb block := by
  rw [BitcoinDB.getConnectedBlock, ne_eq, Outcome.bind_eq_panic,
    or_iff_right Outcome.ofOption_ne_panic]
  simp only [Outcome.ofOption_eq_ok, not_exists, not_and, Outcome.bind_eq_panic, getBlock_eq_panic,
    getBlock_eq_ok, not_or]
  refine forall₂_congr fun txDb _ => and_congr_right fun _ => forall₂_congr fun block _ => ?_
  rw [hconnect, ← ne_eq, connectBlockInputs_ne_panic_iff]

theorem FullConnectedBlock.connect_eq_panic (block : Block) (txDb : TxDB) :
    FullConnectedBlock.connect rb tgt disk block txDb db.blockIndex db.blkFile = .panic ↔
      connectBlockInputs (fullConnectedTx rb)
        (connectInput rb tgt disk txDb db.blockIndex db.blkFile) block.txdata = .panic := by
  simp [FullConnectedBlock.connect, Outcome.bind_eq_panic]

theorem CompactConnectedBlock.connect_eq_panic (block : Block) (txDb : TxDB) :
    CompactConnectedBlock.connect rb tgt disk block txDb db.blockIndex db.blkFile = .panic ↔
      connectBlockInputs (compactConnectedTx rb)
        (connectInput rb tgt disk txDb db.blockIndex db.blkFile) block.txdata = .panic := by
  simp [CompactConnectedBlock.connect, Outcome.bind_eq_panic]

/-- **Point queries return** `Ok` or `Err` exactly on these databases. -/
theorem pointQueries_return_iff (rb : RustBitcoin) (tgt : Target) (disk : Disk) (db : BitcoinDB)
    (height : Nat) (txid : Txid) :
    (db.getRawBlock tgt disk height ≠ .panic ∧ db.getBlock rb tgt disk id height ≠ .panic ∧
        db.getTransaction rb tgt disk id txid ≠ .panic ∧
        db.getConnectedBlock rb tgt disk (FullConnectedBlock.connect rb tgt disk) height ≠ .panic ∧
        db.getConnectedBlock rb tgt disk (CompactConnectedBlock.connect rb tgt disk) height ≠
          .panic) ↔
      ¬ StartUnderflowsAt tgt disk db height ∧
        ∀ txDb, db.txDb = some txDb → TransactionSafe rb tgt disk db txDb txid ∧
          ∀ block, Stores rb tgt disk db height block → InputsSafe rb tgt disk db txDb block := by
  have hfull : db.getConnectedBlock rb tgt disk (FullConnectedBlock.connect rb tgt disk) height ≠
      .panic ↔ _ := getConnectedBlock_ne_panic_iff FullConnectedBlock.connect_eq_panic
  have hcompact : db.getConnectedBlock rb tgt disk
      (CompactConnectedBlock.connect rb tgt disk) height ≠ .panic ↔ _ :=
    getConnectedBlock_ne_panic_iff CompactConnectedBlock.connect_eq_panic
  rw [hfull, hcompact, getTransaction_ne_panic_iff, ne_eq, getRawBlock_eq_panic, ne_eq,
    getBlock_eq_panic]
  constructor
  · rintro ⟨hstart, -, htx, hconnect, -⟩
    exact ⟨hstart, fun txDb h => ⟨htx txDb h, (hconnect txDb h).2⟩⟩
  · rintro ⟨hstart, h⟩
    exact ⟨hstart, hstart, fun txDb hdb => (h txDb hdb).1, fun txDb hdb => ⟨hstart, (h txDb hdb).2⟩,
      fun txDb hdb => ⟨hstart, (h txDb hdb).2⟩⟩

/-! ## Databases on which they panic -/

/-- One block index entry: the genesis block in file 0, at position 3. -/
def lowPositionEntries : Entries :=
  [([0x62, 0], [1, 0, 13, 1, 0, 3] ++ encodeHeader genesisHeader)]

/-- A file with one block: a header and no transaction. -/
def headerOnlyDisk : Disk where
  content path :=
    if path = "blk00000.dat" then
      some (maskedFile none (blkFileBytes mainnetMagic
        [encodeHeader genesisHeader ++ [0]] []))
    else none
  short _ _ := 0

/-- The database of that file, with the records of the mainnet blocks and an empty txindex. -/
def headerOnlyDb : BitcoinDB :=
  let blockIndex := ⟨mainnetRecords, reverseIndex mainnetBitcoin mainnetRecords⟩
  { blkFile := ⟨fun nFile => if nFile = 0 then some "blk00000.dat" else none, none⟩
    blockIndex
    txDb := TxDB.openAt (some fun _ => .ok none) blockIndex }

theorem stores_headerOnly (tgt : Target) :
    Stores mainnetBitcoin tgt headerOnlyDisk headerOnlyDb 0 ⟨genesisHeader, []⟩ := by
  have hholds : headerOnlyDb.blkFile.Holds headerOnlyDisk 0 8 (encodeHeader genesisHeader ++ [0]) :=
    ⟨"blk00000.dat", _, _, _, 0, rfl, rfl, by decide, rfl, by decide⟩
  have hrun : mainnetBitcoin.blockDecoder.run (encodeHeader genesisHeader ++ [0]) =
      some (⟨genesisHeader, []⟩, []) := by
    decide +kernel
  exact ⟨⟨1, 0, 13, 1, 0, 8, 0xffffffff, genesisHeader⟩, rfl, hholds.readBlock hrun tgt⟩

/-- A position below 4 underflows, and a genesis block without a transaction has none to remove. -/
theorem pointQueries_panic :
    (∃ index, BlockIndex.new mainnetBitcoin ⟨true, true⟩ (some lowPositionEntries) = .ok index ∧
      BitcoinDB.getRawBlock ⟨true, true⟩ headerOnlyDisk
        { headerOnlyDb with blockIndex := index } 0 = .panic) ∧
      headerOnlyDb.getTransaction mainnetBitcoin ⟨true, false⟩ headerOnlyDisk id genesisTxid =
        .panic := by
  have hload : loadBlockIndex mainnetBitcoin ⟨true, true⟩ (some lowPositionEntries) =
      .ok [⟨1, 0, 13, 1, 0, 3, 0xffffffff, genesisHeader⟩] := by
    decide +kernel
  constructor
  · refine ⟨_, BlockIndex.new_of_load hload, ?_⟩
    exact getRawBlock_eq_panic.mpr ⟨_, rfl, rfl, by decide, "blk00000.dat", _, rfl, rfl⟩
  · refine Classical.not_not.mp fun h => ?_
    have hsafe := getTransaction_ne_panic_iff.mp h _ rfl
    exact (hsafe.genesis (by decide)).2 _ (stores_headerOnly ⟨true, false⟩) rfl

end BitcoinExplorer
