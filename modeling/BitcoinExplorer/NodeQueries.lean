import BitcoinExplorer.CoreDir
import BitcoinExplorer.Iter.BlockIter
import BitcoinExplorer.Paths
import BitcoinExplorer.TxLookup

/-!
# The queries on the data directory of a node

From the files a node wrote to the answers of the queries: `BitcoinDB::new` opens the directory, and
what is opened answers as the active chain.

* **`CoreDir.answersBlocks`**: the queries for headers and blocks, with or without the txindex.
* **`CoreDir.answersTransactions`**: the queries for transactions, their heights and their connected
  inputs.
-/

namespace BitcoinExplorer

open Rust FileSystem Backtrace

/-- The queries by height and by block hash have the answers of the chain, and no others. -/
structure AnswersBlocks (rb : RustBitcoin) (tgt : Target) (enc : ConsensusEncoding) (disk : Disk)
    (db : BitcoinDB) (chain : List Block) : Prop where
  count : db.getBlockCount = chain.length
  header : ∀ (h : Nat) blk, chain[h]? = some blk → ∃ r, db.getHeader h = .ok r ∧ r.nHeight = h ∧
    r.blockHeader = blk.header ∧ r.nTx.toNat = blk.txdata.length
  hash : ∀ (h : Nat) blk, chain[h]? = some blk →
    db.getHashFromHeight rb h = .ok (rb.blockHash blk.header)
  height : ∀ (h : Nat) hash, db.getHeightFromHash hash = .ok h ↔
    ∃ blk, chain[h]? = some blk ∧ rb.blockHash blk.header = hash
  raw : ∀ (h : Nat) blk, chain[h]? = some blk → db.getRawBlock tgt disk h = .ok (enc.block blk)
  block : ∀ (h : Nat) blk, chain[h]? = some blk → ∀ {T : Type} (into : Block → T),
    db.getBlock rb tgt disk into h = .ok (into blk)
  past : ∀ h, chain.length ≤ h → db.getHeader h = .err (.blockIndexRecordNotFound h) ∧
    db.getHashFromHeight rb h = .err (.blockIndexRecordNotFound h) ∧
    db.getRawBlock tgt disk h = .err (.blockIndexRecordNotFound h) ∧
    ∀ {T : Type} (into : Block → T),
      db.getBlock rb tgt disk into h = .err (.blockIndexRecordNotFound h)

/-- The queries by txid have the answers of the chain, in both connected formats. -/
structure AnswersTransactions (rb : RustBitcoin) (tgt : Target) (disk : Disk) (db : BitcoinDB)
    (chain : List Block) : Prop where
  transaction : ∀ (h : Nat) blk tx, chain[h]? = some blk → tx ∈ blk.txdata →
    ∀ {T : Type} (into : Transaction → T),
      db.getTransaction rb tgt disk into (rb.computeTxid tx) = .ok (into tx)
  height : ∀ (h : Nat) blk tx, chain[h]? = some blk → tx ∈ blk.txdata →
    db.getBlockHeight tgt (rb.computeTxid tx) = .ok h
  compactBlock : ∀ h < chain.length, ∃ b, expectedBlock (compactConnectedBlock rb) rb chain h =
      some b ∧
    db.getConnectedBlock rb tgt disk (CompactConnectedBlock.connect rb tgt disk) h = .ok b
  fullBlock : ∀ h < chain.length, ∃ b, expectedBlock (fullConnectedBlock rb) rb chain h = some b ∧
    db.getConnectedBlock rb tgt disk (FullConnectedBlock.connect rb tgt disk) h = .ok b
  compactTx : ∀ tx ∈ transactions chain, ∃ t,
    (compactConnectedTx rb).connectWith (namedOutput rb chain) tx = some t ∧
    db.getConnectedTransaction rb tgt disk (CompactConnectedTransaction.connect rb tgt disk)
      (rb.computeTxid tx) = .ok t
  fullTx : ∀ tx ∈ transactions chain, ∃ t,
    (fullConnectedTx rb).connectWith (namedOutput rb chain) tx = some t ∧
    db.getConnectedTransaction rb tgt disk (FullConnectedTransaction.connect rb tgt disk)
      (rb.computeTxid tx) = .ok t

namespace CoreDir

variable {rb : RustBitcoin} {enc : ConsensusEncoding} {host : Host} {dataDir : PathBuf}
  {chain : List Block} (dir : CoreDir rb enc host dataDir chain)

/-! ## Blocks -/

section

variable {db : BitcoinDB} {tgt : Target}
  (hrecords : db.blockIndex.records = dir.active.map DiskBlockIndex.toRecord)
  (hholds : ∀ (h : Nat) d blk, dir.active[h]? = some d → chain[h]? = some blk →
    db.blkFile.Holds host.disk d.toRecord.nFile d.toRecord.nDataPos (enc.block blk))
include hrecords

theorem length_records : db.blockIndex.records.length = chain.length := by
  rw [hrecords, List.length_map, dir.index.active_length]

include hholds in
/-- The record of each height is about the block of that height. -/
theorem record {h : Nat} {blk : Block} (hblk : chain[h]? = some blk) :
    ∃ r, db.blockIndex.records[h]? = some r ∧ r.nHeight = h ∧ r.blockHeader = blk.header ∧
      r.nTx.toNat = blk.txdata.length ∧
      db.blkFile.Holds host.disk r.nFile r.nDataPos (enc.block blk) := by
  obtain ⟨d, hknown, hd, he⟩ := dir.index.exists_entry hblk
  have htx := (dir.index.inRange d hknown).1.nTx
  rw [he.nTx] at htx
  refine ⟨d.toRecord, ?_, ?_, he.blockHeader, ?_, hholds h d blk hd hblk⟩
  · rw [hrecords, List.getElem?_map, hd, Option.map_some]
  · rw [dir.index.nHeight_toRecord hknown, he.nHeight]
  · simp only [DiskBlockIndex.toRecord, DiskBlockIndex.toNat_asU32, he.nTx]
    exact Nat.mod_eq_of_lt htx

include hholds in
/-- Every record has transactions, so all of them are counted. -/
theorem getBlockCount_eq (htxdata : ∀ blk ∈ chain, blk.txdata ≠ []) :
    db.getBlockCount = chain.length := by
  refine Nat.le_antisymm ?_ ?_
  · rw [← dir.length_records hrecords]
    exact List.findIdx_le_length
  · by_contra hlt
    have hcounted : db.getBlockCount < db.getBlockCount := by
      refine lt_getBlockCount.mpr fun i hi => ?_
      have hi' : i < chain.length := by omega
      obtain ⟨r, hr, -, -, htx, -⟩ :=
        dir.record hrecords hholds (List.getElem?_eq_getElem hi')
      refine ⟨r, hr, UInt32.lt_iff_toNat_lt.mpr ?_⟩
      rw [htx]
      exact List.length_pos_of_ne_nil (htxdata _ (List.getElem_mem hi'))
    omega

include hholds in
/-- What `BitcoinDB::new` opened answers as the chain. -/
theorem answersBlocks_of_records (hcodec : Decodes rb enc chain)
    (htxdata : ∀ blk ∈ chain, blk.txdata ≠ [])
    (hindex : BlockIndex.new rb tgt (some dir.entries) = .ok db.blockIndex) :
    AnswersBlocks rb tgt enc host.disk db chain where
  count := dir.getBlockCount_eq hrecords hholds htxdata
  header h blk hblk := by
    obtain ⟨r, hr, hheight, hheader, htx, -⟩ := dir.record hrecords hholds hblk
    exact ⟨r, by rw [BitcoinDB.getHeader, hr]; rfl, hheight, hheader, htx⟩
  hash h blk hblk := by
    obtain ⟨r, hr, -, hheader, -⟩ := dir.record hrecords hholds hblk
    exact BitcoinDB.getHashFromHeight_eq_ok.mpr ⟨r, hr, by rw [hheader]⟩
  height h hash := by
    rw [BitcoinDB.getHeightFromHash_eq_ok hindex]
    constructor
    · rintro ⟨r, hr, hhash⟩
      have hlt : h < chain.length :=
        dir.length_records hrecords ▸ (List.getElem?_eq_some_iff.mp hr).1
      obtain ⟨r', hr', -, hheader, -⟩ :=
        dir.record hrecords hholds (List.getElem?_eq_getElem hlt)
      obtain rfl := Option.some.inj (hr.symm.trans hr')
      exact ⟨_, List.getElem?_eq_getElem hlt, by rw [← hheader, hhash]⟩
    · rintro ⟨blk, hblk, hhash⟩
      obtain ⟨r, hr, -, hheader, -⟩ := dir.record hrecords hholds hblk
      exact ⟨r, hr, by rw [hheader, hhash]⟩
  raw h blk hblk := by
    obtain ⟨r, hr, -, -, -, hheld⟩ := dir.record hrecords hholds hblk
    rw [BitcoinDB.getRawBlock, hr, Outcome.ofOption, Outcome.ok_bind]
    exact hheld.readRawBlock tgt
  block h blk hblk T into := by
    obtain ⟨r, hr, -, -, -, hheld⟩ := dir.record hrecords hholds hblk
    have hrun := hcodec.block blk (List.mem_of_getElem? hblk) []
    rw [List.append_nil] at hrun
    rw [BitcoinDB.getBlock, hr, Outcome.ofOption, Outcome.ok_bind, hheld.readBlock hrun tgt,
      Outcome.ok_bind]
  past h hle := by
    have hnone : db.blockIndex.records[h]? = none :=
      List.getElem?_eq_none (dir.length_records hrecords ▸ hle)
    refine ⟨?_, ?_, ?_, fun into => ?_⟩
    · rw [BitcoinDB.getHeader, hnone]
      rfl
    · rw [BitcoinDB.getHashFromHeight, hnone]
      rfl
    · rw [BitcoinDB.getRawBlock, hnone]
      rfl
    · rw [BitcoinDB.getBlock, hnone]
      rfl

end

/-- **Opening a node's data directory gives a database that answers as its active chain**, whatever
the order and the other contents of the index, the mask, the files and the splitting of their
reads, and whether or not the txindex is asked for. -/
theorem answersBlocks (rb : RustBitcoin) (tgt : Target) (enc : ConsensusEncoding) (host : Host)
    (dataDir : PathBuf) (chain : List Block) (dir : CoreDir rb enc host dataDir chain)
    (hne : chain ≠ []) (hcodec : Decodes rb enc chain) (htxdata : ∀ blk ∈ chain, blk.txdata ≠ [])
    (txIndex : Bool) :
    ∃ db, BitcoinDB.new rb tgt host dataDir txIndex = .ok db ∧
      AnswersBlocks rb tgt enc host.disk db chain := by
  obtain ⟨db, hnew, hindex, hrecords, hholds, -⟩ := dir.opens tgt hne txIndex
  exact ⟨db, hnew, dir.answersBlocks_of_records hrecords hholds hcodec htxdata hindex⟩

/-- The directory of three blocks, without the txindex. -/
theorem answersBlocks_storedDir :
    ∃ db, BitcoinDB.new storedBitcoin ⟨true, true⟩ storedHost "/data" false = .ok db ∧
      AnswersBlocks storedBitcoin ⟨true, true⟩ legacyEncoding storedHost.disk db storedChain :=
  answersBlocks storedBitcoin ⟨true, true⟩ legacyEncoding storedHost "/data" storedChain storedDir
    (by decide) storedChain_decodes (by decide) false

/-! ## Transactions -/

/-- Two blocks at one position of one file are one block. -/
theorem inFile_unique (hcodec : Decodes rb enc chain) {d d' : DiskBlockIndex} {blk blk' : Block}
    (h : InFile enc host.fs dir.loc dir.mask d blk)
    (h' : InFile enc host.fs dir.loc dir.mask d' blk') (hblk : blk ∈ chain) (hblk' : blk' ∈ chain)
    (hfile : d.nFile = d'.nFile) (hpos : d.nDataPos = d'.nDataPos) : blk = blk' := by
  obtain ⟨name, magic, blocks, trailing, i, hname, hnode, -, hi, hstart⟩ := h
  obtain ⟨name', magic', blocks', trailing', i', hname', hnode', -, hi', hstart'⟩ := h'
  have hin : name ∈ host.fs.names dir.loc := (host.fs.mem_names).mpr (by rw [hnode]; rfl)
  have hin' : name' ∈ host.fs.names dir.loc := (host.fs.mem_names).mpr (by rw [hnode']; rfl)
  -- the two files are one, with one content
  obtain rfl : name = name' := dir.files.distinct name hin name' hin' (by rw [hname]; rfl)
    (by rw [hname, hname', hfile])
  have hbytes : blkFileBytes magic blocks trailing = blkFileBytes magic' blocks' trailing' := by
    obtain hmasked := Node.file.inj (Option.some.inj (hnode.symm.trans hnode'))
    rw [← xorFrom_maskedFile dir.mask (blkFileBytes magic blocks trailing), hmasked,
      xorFrom_maskedFile]
  obtain ⟨rest, hdrop⟩ := drop_startPos hi trailing
  obtain ⟨rest', hdrop'⟩ := drop_startPos hi' trailing'
  rw [hbytes, ← hstart, hpos, hstart', hdrop'] at hdrop
  have hsame := List.append_inj_right hdrop (by simp only [Bytes.length_leBytes])
  have hrun := hcodec.block blk hblk rest
  rw [← hsame, hcodec.block blk' hblk' rest'] at hrun
  exact (Prod.mk.inj (Option.some.inj hrun)).1.symm

/-- No two records of the chain are at one position of one file. -/
theorem filePos_nodup (hcodec : Decodes rb enc chain) :
    ((dir.active.map DiskBlockIndex.toRecord).map BlockIndexRecord.filePos).Nodup := by
  rw [List.map_map, List.Nodup, List.pairwise_map, List.pairwise_iff_getElem]
  intro i j hi hj hlt hpos
  obtain ⟨blk, hblk, hknown, he⟩ := dir.index.exists_block (List.getElem?_eq_getElem hi)
  obtain ⟨blk', hblk', hknown', he'⟩ := dir.index.exists_block (List.getElem?_eq_getElem hj)
  obtain ⟨hfile, hdataPos⟩ := dir.index.toRecord_filePos hknown he
  obtain ⟨hfile', hdataPos'⟩ := dir.index.toRecord_filePos hknown' he'
  obtain ⟨hn, hp⟩ := Prod.mk.inj hpos
  have hnumber : dir.active[i].nFile = dir.active[j].nFile := by
    have := hfile.symm.trans (hn.trans hfile')
    omega
  have hstart : dir.active[i].nDataPos = dir.active[j].nDataPos :=
    hdataPos.symm.trans ((congrArg UInt32.toNat hp).trans hdataPos')
  have hsame := dir.inFile_unique hcodec (dir.inFile i _ blk (List.getElem?_eq_getElem hi) hblk)
    (dir.inFile j _ blk' (List.getElem?_eq_getElem hj) hblk') (List.mem_of_getElem? hblk)
    (List.mem_of_getElem? hblk') hnumber hstart
  -- a block has one entry, and an entry one height
  have hhash : rb.blockHash dir.active[i].blockHeader = rb.blockHash dir.active[j].blockHeader := by
    rw [he.blockHeader, he'.blockHeader, hsame]
  have hentry := List.inj_on_of_nodup_map dir.index.hashes hknown hknown' hhash
  have hheight := he.nHeight
  rw [hentry, he'.nHeight] at hheight
  omega

section

variable {db : BitcoinDB} {tgt : Target} {kv : KeyValue} (htx : dir.HasTxIndex kv)
  (hrecords : db.blockIndex.records = dir.active.map DiskBlockIndex.toRecord)
  (hindex : BlockIndex.new rb tgt (some dir.entries) = .ok db.blockIndex)
  (hstored : Stored rb enc host.disk kv db chain) (hcodec : Decodes rb enc chain)
include htx hrecords hindex hstored hcodec

/-- The height of a transaction is that of its block. -/
theorem getBlockHeight_of_mem {h : Nat} {blk : Block} {tx : Transaction}
    (hgenesis : rb.computeTxid tx = genesisTxid → h = 0) (hblk : chain[h]? = some blk)
    (hmem : tx ∈ blk.txdata) : db.getBlockHeight tgt (rb.computeTxid tx) = .ok h := by
  obtain ⟨txDb, htxDb, hkv, hid⟩ := hstored.txDb_eq
  rw [BitcoinDB.getBlockHeight, htxDb, Outcome.ofOption, Outcome.ok_bind]
  by_cases hgen : rb.computeTxid tx = genesisTxid
  · rw [TxDB.getBlockHeight, if_pos (by rw [TxDB.isGenesisTx, hid, hgen]; exact decide_eq_true rfl),
      hgenesis hgen]
  have hother : txDb.isGenesisTx (rb.computeTxid tx) = false := by
    rw [TxDB.isGenesisTx, hid]
    exact decide_eq_false hgen
  obtain ⟨pre, post, hsplit⟩ := List.append_of_mem hmem
  obtain ⟨d, hknown, hd, he⟩ := dir.index.exists_entry hblk
  obtain ⟨hfile, hdataPos⟩ := dir.index.toRecord_filePos hknown he
  have hentry := htx.entry h d blk pre tx post hd hblk hsplit hgen
  have hoffset : (enc.beforeTx blk pre).length < 2 ^ 32 := by
    obtain ⟨r, -, -, -, hheld⟩ := hstored.block h blk hblk
    have hlen := hheld.length_lt
    rw [enc.block_split hsplit, List.length_append, List.length_append] at hlen
    omega
  rw [← hkv, ← hdataPos, ← UInt32.toNat_ofNat_of_lt' hoffset] at hentry
  rw [TxDB.getBlockHeight_of_entry hother he.nFile hentry]
  -- the position is that of record `h`
  have hdistinct : (db.blockIndex.records.map BlockIndexRecord.filePos).Nodup :=
    hrecords ▸ dir.filePos_nodup hcodec
  have hat : ∃ r, db.blockIndex.records[h]? = some r ∧
      r.filePos = (↑d.nFile, d.toRecord.nDataPos) :=
    ⟨d.toRecord, by rw [hrecords, List.getElem?_map, hd, Option.map_some], by rw [← hfile]⟩
  obtain ⟨n, hn, hheight⟩ := (BitcoinDB.filePosToHeight_asUsize hindex hdistinct
    (htxDb ▸ hstored.txDb.symm)).mpr hat
  rw [hn]
  dsimp only
  rw [hheight]

end

end CoreDir

/-- The genesis transaction is the one of block 0, and no other block has its txid. -/
theorem genesis_unique {rb : RustBitcoin} {chain : List Block}
    (hdistinct : ((transactions chain).map rb.computeTxid).Nodup)
    (hgenesis : ∀ blk, chain[0]? = some blk → ∃ tx, blk.txdata = [tx] ∧
      rb.computeTxid tx = genesisTxid) {h : Nat} {blk : Block} {tx : Transaction}
    (hblk : chain[h]? = some blk) (hmem : tx ∈ blk.txdata)
    (hid : rb.computeTxid tx = genesisTxid) : h = 0 ∧ blk.txdata = [tx] := by
  cases chain with
  | nil => cases hblk
  | cons first rest =>
    obtain ⟨genesis, hdata, hgen⟩ := hgenesis first rfl
    cases h with
    | zero =>
      obtain rfl := Option.some.inj hblk
      rw [hdata, List.mem_singleton] at hmem
      exact ⟨rfl, by rw [hdata, hmem]⟩
    | succ n =>
      have hrest : tx ∈ transactions rest :=
        mem_transactions.mpr ⟨blk, List.mem_of_getElem? hblk, hmem⟩
      have hall : transactions (first :: rest) = genesis :: transactions rest := by
        rw [transactions, List.flatMap_cons, hdata, List.singleton_append, transactions]
      rw [hall, List.map_cons, List.nodup_cons] at hdistinct
      exact absurd (List.mem_map.mpr ⟨tx, hrest, hid.trans hgen.symm⟩) hdistinct.1

namespace Stored

variable {rb : RustBitcoin} {enc : ConsensusEncoding} {disk : Disk} {kv : KeyValue}
  {db : BitcoinDB} {chain : List Block}

/-- A transaction is found through its block or through its entry. -/
theorem getTransaction (hstored : Stored rb enc disk kv db chain) (hcodec : Decodes rb enc chain)
    (tgt : Target) {tx : Transaction} (hmem : tx ∈ transactions chain)
    (hgenesis : rb.computeTxid tx = genesisTxid → ∃ blk, chain[0]? = some blk ∧ blk.txdata = [tx])
    {T : Type} (into : Transaction → T) :
    db.getTransaction rb tgt disk into (rb.computeTxid tx) = .ok (into tx) := by
  obtain ⟨txDb, htxDb, hkv, hid⟩ := hstored.txDb_eq
  rw [BitcoinDB.getTransaction, htxDb, Outcome.ofOption, Outcome.ok_bind]
  by_cases hgen : rb.computeTxid tx = genesisTxid
  · obtain ⟨blk, hblk, hdata⟩ := hgenesis hgen
    rw [if_pos (by rw [TxDB.isGenesisTx, hid, hgen]; exact decide_eq_true rfl),
      hstored.getBlock hcodec tgt id hblk, Outcome.ok_bind, id, hdata]
    rfl
  · rw [if_neg (by rw [TxDB.isGenesisTx, hid]; simpa using hgen)]
    obtain ⟨txPos, hpos, hread⟩ := hstored.findTx hcodec tgt hkv hmem hgen
    rw [hpos, Outcome.ok_bind, hread, Outcome.ok_bind]

/-- A transaction that is found is connected with the outputs its inputs name. -/
theorem getConnectedTransaction (hstored : Stored rb enc disk kv db chain)
    (hcodec : Decodes rb enc chain) (tgt : Target) (hv : ValidChain rb chain)
    (hspends : ∀ o ∈ chainSpends chain, o.txid ≠ genesisTxid) {tx : Transaction}
    (hmem : tx ∈ transactions chain)
    (hnull : tx.isCoinbase = true ∨ ∀ i ∈ tx.input, i.previousOutput.isNull = false)
    (hfound : db.getTransaction rb tgt disk id (rb.computeTxid tx) = .ok tx) {Tx Out : Type}
    (CT : ConnectedTx Tx Out)
    {connect : Transaction → TxDB → BlockIndex → BlkFile → Outcome Error Tx}
    (hconnect : ∀ txDb, connect tx txDb db.blockIndex db.blkFile =
      connectTx CT (connectInput rb tgt disk txDb db.blockIndex db.blkFile) tx) :
    ∃ t, CT.connectWith (namedOutput rb chain) tx = some t ∧
      db.getConnectedTransaction rb tgt disk connect (rb.computeTxid tx) = .ok t := by
  obtain ⟨txDb, htxDb, -⟩ := hstored.txDb_eq
  have hsome : ∀ o ∈ spends tx.input, (namedOutput rb chain o).isSome = true := by
    obtain ⟨blk, hblk, hin⟩ := mem_transactions.mp hmem
    obtain ⟨h, hh⟩ := List.getElem?_of_mem hblk
    exact fun o ho => hv.connectable.namedOutput_isSome hh (Block.mem_spends.mpr ⟨tx, hin, ho⟩)
  have hcount := inputsFound_namedInput hsome hnull
  unfold InputsFound at hcount
  refine ⟨_, ConnectedTx.connectWith_eq hsome, ?_⟩
  rw [BitcoinDB.getConnectedTransaction, htxDb, Outcome.ofOption, Outcome.ok_bind, hfound,
    Outcome.ok_bind, hconnect, connectTx, connectTxInputs_eq fun i hi =>
      connectInput_eq hv hstored hcodec hspends tgt htxDb hmem hi, if_neg (not_not.mpr hcount),
    Outcome.ok_bind]
  rfl

/-- So is every block, in a format whose `connect` wraps the transactions of `connect_block_inputs`
as the trait methods `from` and `add_tx` do. -/
theorem getConnectedBlock (hstored : Stored rb enc disk kv db chain) (hcodec : Decodes rb enc chain)
    (tgt : Target) (hv : ValidChain rb chain)
    (hspends : ∀ o ∈ chainSpends chain, o.txid ≠ genesisTxid)
    (hnull : ∀ tx ∈ transactions chain,
      tx.isCoinbase = true ∨ ∀ i ∈ tx.input, i.previousOutput.isNull = false)
    {Blk Tx Out : Type} {CB : ConnectedBlock Blk Tx Out}
    {connect : Block → TxDB → BlockIndex → BlkFile → Outcome Error Blk} {h : Nat}
    (hlt : h < chain.length) {mk : BlockHeader → List Tx → Blk}
    (hheader : ∀ header, CB.ofHeader header (rb.blockHash header) = mk header [])
    (hmk : ∀ header ts t, CB.addTx (mk header ts) t = mk header (ts ++ [t]))
    (hconnect : ∀ blk txDb ts,
      connectBlockInputs CB.tx (connectInput rb tgt disk txDb db.blockIndex db.blkFile)
        blk.txdata = .ok ts → connect blk txDb db.blockIndex db.blkFile = .ok (mk blk.header ts)) :
    ∃ b, expectedBlock CB rb chain h = some b ∧
      db.getConnectedBlock rb tgt disk connect h = .ok b := by
  have hblk := List.getElem?_eq_getElem hlt
  obtain ⟨txDb, htxDb, -⟩ := hstored.txDb_eq
  have hsome : ∀ tx ∈ chain[h].txdata, ∀ o ∈ spends tx.input,
      (namedOutput rb chain o).isSome = true := fun tx htx o ho =>
    hv.connectable.namedOutput_isSome hblk (Block.mem_spends.mpr ⟨tx, htx, ho⟩)
  refine ⟨mk chain[h].header (chain[h].txdata.map
    (withInputs CB.tx (namedInput (namedOutput rb chain)))), ?_, ?_⟩
  · rw [expectedBlock, hblk, Option.bind_some, ConnectedBlock.connectWith, hheader,
      ConnectedBlock.addTxs_eq (hmk _) hsome, List.nil_append]
  · rw [BitcoinDB.getConnectedBlock, htxDb, Outcome.ofOption, Outcome.ok_bind,
      hstored.getBlock hcodec tgt id hblk, Outcome.ok_bind]
    exact hconnect _ txDb _ (connectBlockInputs_stored hv hstored hcodec hspends tgt hnull htxDb
      CB.tx (List.mem_of_getElem? hblk))

end Stored

/-- **Opening a node's data directory with its txindex gives a database that answers as the
transactions of the active chain**: each is found under its txid, in the block it is in, and
connected with the outputs its inputs name, alone or as part of its block, in both formats. -/
theorem CoreDir.answersTransactions (rb : RustBitcoin) (tgt : Target) (enc : ConsensusEncoding)
    (host : Host) (dataDir : PathBuf) (chain : List Block)
    (dir : CoreDir rb enc host dataDir chain) (kv : KeyValue) (htx : dir.HasTxIndex kv)
    (hne : chain ≠ []) (hcodec : Decodes rb enc chain) (hv : ValidChain rb chain)
    (hgenesis : ∀ blk, chain[0]? = some blk → ∃ tx, blk.txdata = [tx] ∧
      rb.computeTxid tx = genesisTxid)
    (hspends : ∀ o ∈ chainSpends chain, o.txid ≠ genesisTxid)
    (hnull : ∀ tx ∈ transactions chain,
      tx.isCoinbase = true ∨ ∀ i ∈ tx.input, i.previousOutput.isNull = false) :
    ∃ db, BitcoinDB.new rb tgt host dataDir true = .ok db ∧
      AnswersTransactions rb tgt host.disk db chain := by
  obtain ⟨db, hnew, hindex, hrecords, hstored⟩ := dir.stored htx tgt hne
  have hfind : ∀ tx ∈ transactions chain, ∀ {T : Type} (into : Transaction → T),
      db.getTransaction rb tgt host.disk into (rb.computeTxid tx) = .ok (into tx) := by
    intro tx hmem T into
    refine hstored.getTransaction hcodec tgt hmem (fun hid => ?_) into
    obtain ⟨blk, hblk, hin⟩ := mem_transactions.mp hmem
    obtain ⟨h, hh⟩ := List.getElem?_of_mem hblk
    obtain ⟨rfl, hdata⟩ := genesis_unique hv.txids hgenesis hh hin hid
    exact ⟨blk, hh, hdata⟩
  refine ⟨db, hnew, ?_⟩
  exact
    { transaction := fun h blk tx hblk hmem T into =>
        hfind tx (mem_transactions.mpr ⟨blk, List.mem_of_getElem? hblk, hmem⟩) into
      height := fun h blk tx hblk hmem =>
        dir.getBlockHeight_of_mem htx hrecords hindex hstored hcodec
          (fun hid => (genesis_unique hv.txids hgenesis hblk hmem hid).1) hblk hmem
      compactBlock := fun h hlt => hstored.getConnectedBlock hcodec tgt hv hspends hnull hlt
        (fun _ => rfl) (fun _ _ _ => rfl) fun blk txDb ts hts => by
          dsimp only [compactConnectedBlock] at hts
          rw [CompactConnectedBlock.connect, hts, Outcome.ok_bind]
      fullBlock := fun h hlt => hstored.getConnectedBlock hcodec tgt hv hspends hnull hlt
        (fun _ => rfl) (fun _ _ _ => rfl) fun blk txDb ts hts => by
          dsimp only [fullConnectedBlock] at hts
          rw [FullConnectedBlock.connect, hts, Outcome.ok_bind]
      compactTx := fun tx hmem => hstored.getConnectedTransaction hcodec tgt hv hspends hmem
        (hnull tx hmem) (hfind tx hmem id) (compactConnectedTx rb) fun _ =>
          CompactConnectedTransaction.connectBy_eq
      fullTx := fun tx hmem => hstored.getConnectedTransaction hcodec tgt hv hspends hmem
        (hnull tx hmem) (hfind tx hmem id) (fullConnectedTx rb) fun _ =>
          FullConnectedTransaction.connectBy_eq }

/-- The directory of three blocks, one of which spends the block before it. -/
theorem CoreDir.answersTransactions_storedDir :
    ∃ db, BitcoinDB.new storedBitcoin ⟨true, true⟩ storedHost "/data" true = .ok db ∧
      AnswersTransactions storedBitcoin ⟨true, true⟩ storedHost.disk db storedChain :=
  CoreDir.answersTransactions storedBitcoin ⟨true, true⟩ legacyEncoding storedHost "/data"
    storedChain storedDir storedTxIndex storedDir_hasTxIndex (by decide) storedChain_decodes
    storedChain_valid storedChain_genesis (by decide +kernel) (by decide +kernel)

end BitcoinExplorer
