import BitcoinExplorer.CoreDir
import BitcoinExplorer.TxLookup
import BitcoinExplorer.Unmasked

/-!
# A node that goes on

The node goes on appending to its block files while a database is open, and every query opens them
again; the txindex may lag behind the chain, and a database opened later has a longer chain. What a
query has answered does not change by this: a read that succeeds depends on the bytes it consumed
only. Bytes that the node still may overwrite or cut off, such as space it has reserved, do not
count as there: the settled front parts of the files are a disk of their own.

* `Disk.Grows`: the same files, with more bytes at their ends.
* `BitcoinDB.Extends`: more bytes, more records on the chain, more entries in the txindex.
  `Disk.Grows.extends` and `GoesOn.extends` are the two ways to come by it.
* `queries_of_extended`: then every `Ok` answer stays as it is, though a lookup that fails may
  become one that finds its output, and `iter_heights` delivers the same blocks and perhaps more.
* **`answers_stay`**: the answers of a database stay while its files grow, and are those of a
  database that is opened later.
-/

namespace BitcoinExplorer

open Rust ByteStream KeyStream Conc FileSystem

/-- The files of `disk` are on `disk'`, each with more bytes at its end. -/
def Disk.Grows (disk disk' : Disk) : Prop :=
  ∀ path content, disk.content path = some content →
    ∃ more, disk'.content path = some (content ++ more)

/-! ## Reading -/

/-- Every file that `bf` reads on `disk` is one that `bf'` reads on `disk'`, with more unmasked
bytes at its end. -/
def BlkFile.Grows (disk disk' : Disk) (bf bf' : BlkFile) : Prop :=
  ∀ nFile bytes, bf.bytes disk nFile = .ok bytes →
    ∃ more, bf'.bytes disk' nFile = .ok (bytes ++ more)

namespace BlkFile

variable {bf bf' : BlkFile} {disk disk' : Disk}

/-- The unmasked bytes grow with the file. -/
theorem grows_of_disk (hg : disk.Grows disk') (bf : BlkFile) : bf.Grows disk disk' bf := by
  intro nFile bytes h
  obtain ⟨path, hpath, h⟩ := Outcome.bind_eq_ok.mp h
  obtain ⟨content, hcontent, h⟩ := Outcome.bind_eq_ok.mp h
  obtain rfl := Outcome.ok.inj h
  obtain ⟨more, hmore⟩ := hg path content (Outcome.ofOption_eq_ok.mp hcontent)
  rw [BlkFile.bytes, hpath, Outcome.ok_bind, hmore, Outcome.ofOption, Outcome.ok_bind,
    xorFrom_append]
  exact ⟨_, rfl⟩

/-- What a decoder reads from a place in a file it reads there from the file grown. -/
theorem run_drop_append {α : Type} {d : Decoder α} {bytes rest : List UInt8} {start : Nat}
    {a : α} (h : d.run (bytes.drop start) = some (a, rest)) (more : List UInt8) :
    ∃ rest', d.run ((bytes ++ more).drop start) = some (a, rest ++ rest') := by
  rw [List.drop_append]
  exact ⟨_, d.run_append _ h⟩

variable (hg : bf.Grows disk disk' bf')
include hg

theorem readRawBlock_settles (tgt : Target) (nFile : Int) (offset : UInt32) :
    (bf.readRawBlock tgt disk nFile offset).Settles
      (bf'.readRawBlock tgt disk' nFile offset) := by
  rw [readRawBlock_eq, readRawBlock_eq]
  intro raw h
  obtain ⟨bytes, hbytes, h⟩ := Outcome.bind_eq_ok.mp h
  obtain ⟨more, hmore⟩ := hg nFile bytes hbytes
  obtain ⟨start, hstart, h⟩ := Outcome.bind_eq_ok.mp h
  rw [hmore, Outcome.ok_bind, hstart, Outcome.ok_bind]
  by_cases hlt : start < 2 ^ 63
  · rw [if_pos hlt] at h ⊢
    obtain ⟨⟨size, rest⟩, hsize, h⟩ := Outcome.bind_eq_ok.mp h
    obtain ⟨⟨block, rest'⟩, hblock, h⟩ := Outcome.bind_eq_ok.mp h
    obtain ⟨more', hsize'⟩ := run_drop_append (Outcome.ofOption_eq_ok.mp hsize) more
    have hblock' := Decoder.run_append _ more' (Outcome.ofOption_eq_ok.mp hblock)
    rw [hsize', Outcome.ofOption, Outcome.ok_bind]
    dsimp only
    rw [hblock', Outcome.ofOption, Outcome.ok_bind]
    exact h
  · rw [if_neg hlt] at h
    cases h

theorem readBlock_settles (rb : RustBitcoin) (tgt : Target) (nFile : Int) (offset : UInt32) :
    (bf.readBlock rb tgt disk nFile offset).Settles
      (bf'.readBlock rb tgt disk' nFile offset) :=
  (readRawBlock_settles hg tgt nFile offset).bind fun _ => .refl _

theorem readTransaction_settles (rb : RustBitcoin) (nFile : Int) (nPos nTxOffset : UInt32) :
    (bf.readTransaction rb disk nFile nPos nTxOffset).Settles
      (bf'.readTransaction rb disk' nFile nPos nTxOffset) := by
  rw [readTransaction_eq, readTransaction_eq]
  intro tx h
  obtain ⟨bytes, hbytes, h⟩ := Outcome.bind_eq_ok.mp h
  obtain ⟨more, hmore⟩ := hg nFile bytes hbytes
  obtain ⟨⟨tx', rest⟩, hrun, h⟩ := Outcome.bind_eq_ok.mp h
  obtain ⟨more', hrun'⟩ := run_drop_append (Outcome.ofOption_eq_ok.mp hrun) more
  rw [hmore, Outcome.ok_bind, hrun', Outcome.ofOption, Outcome.ok_bind]
  exact h

end BlkFile

/-! ## More data -/

/-- Every entry of `txDb` is one of `txDb'`, and every position with a height keeps it. -/
structure TxDB.Extends (txDb txDb' : TxDB) : Prop where
  genesisTxid : txDb'.genesisTxid = txDb.genesisTxid
  entries : ∀ key value, txDb.db key = .ok (some value) → txDb'.db key = .ok (some value)
  heights : ∀ pos n, txDb.filePosToHeight pos = some n → txDb'.filePosToHeight pos = some n

namespace TxDB.Extends

variable {txDb txDb' : TxDB} (h : txDb.Extends txDb') (tgt : Target) (txid : Txid)
include h

theorem isGenesisTx : txDb'.isGenesisTx txid = txDb.isGenesisTx txid := by
  rw [TxDB.isGenesisTx, TxDB.isGenesisTx, h.genesisTxid]

theorem getTxPosition_settles :
    (txDb.getTxPosition tgt txid).Settles (txDb'.getTxPosition tgt txid) := by
  intro txPos hok
  unfold TxDB.getTxPosition at hok ⊢
  cases hget : txDb.db (txKey txid) with
  | error e =>
    rw [hget] at hok
    cases hok
  | ok value =>
    rw [hget] at hok
    cases value with
    | none => cases hok
    | some bytes =>
      rw [h.entries _ bytes hget]
      exact hok

theorem getBlockHeight_settles :
    (txDb.getBlockHeight tgt txid).Settles (txDb'.getBlockHeight tgt txid) := by
  unfold TxDB.getBlockHeight
  rw [h.isGenesisTx]
  split
  · exact .refl _
  · refine (h.getTxPosition_settles tgt txid).bind fun txPos height hok => ?_
    cases hlookup : txDb.filePosToHeight (txPos.nFile, txPos.nDataPos) with
    | none =>
      rw [hlookup] at hok
      cases hok
    | some n =>
      rw [hlookup] at hok
      rw [h.heights _ n hlookup]
      exact hok

end TxDB.Extends

/-- What `db` finds on `disk` is what `db'` finds on `disk'`, where there may be more: bytes at the
ends of the block files, records at the end of the chain, entries in the txindex. -/
structure BitcoinDB.Extends (disk disk' : Disk) (db db' : BitcoinDB) : Prop where
  blkFile : db.blkFile.Grows disk disk' db'.blkFile
  records : db.blockIndex.records <+: db'.blockIndex.records
  hashToHeight : ∀ hash n, db.blockIndex.hashToHeight hash = some n →
    db'.blockIndex.hashToHeight hash = some n
  txDb : ∀ txDb, db.txDb = some txDb → ∃ txDb', db'.txDb = some txDb' ∧ txDb.Extends txDb'

/-- The same database over files that have grown. -/
theorem Disk.Grows.extends {disk disk' : Disk} (h : disk.Grows disk') (db : BitcoinDB) :
    db.Extends disk disk' db where
  blkFile := BlkFile.grows_of_disk h db.blkFile
  records := List.prefix_rfl
  hashToHeight _ _ h := h
  txDb txDb h := ⟨txDb, h, rfl, fun _ _ h => h, fun _ _ h => h⟩

section

variable {rb : RustBitcoin} {tgt : Target} {db db' : BitcoinDB}
  (hrecords : db.blockIndex.records <+: db'.blockIndex.records)
include hrecords

/-- A chain that got longer keeps the heights of its hashes. -/
theorem hashToHeight_of_prefix {entries entries' : Option Entries}
    (hindex : BlockIndex.new rb tgt entries = .ok db.blockIndex)
    (hindex' : BlockIndex.new rb tgt entries' = .ok db'.blockIndex) {hash : BlockHash} {n : Int}
    (h : db.blockIndex.hashToHeight hash = some n) :
    db'.blockIndex.hashToHeight hash = some n := by
  obtain ⟨r, hr, hkey, hn⟩ := (BitcoinDB.hashToHeight_eq_some hindex).mp h
  exact (BitcoinDB.hashToHeight_eq_some hindex').mpr ⟨r, hrecords.subset hr, hkey, hn⟩

/-- The txindexes opened over it, when no entry is lost and no two blocks are at one position. -/
theorem TxDB.extends_of_prefix {kv kv' : KeyValue} {txDb txDb' : TxDB}
    (hdistinct : (db'.blockIndex.records.map BlockIndexRecord.filePos).Nodup)
    (hopen : TxDB.openAt (some kv) db.blockIndex = some txDb)
    (hopen' : TxDB.openAt (some kv') db'.blockIndex = some txDb')
    (hkept : ∀ key value, kv key = .ok (some value) → kv' key = .ok (some value)) :
    txDb.Extends txDb' := by
  have hheights : ∀ pos n, txDb.filePosToHeight pos = some n →
      txDb'.filePosToHeight pos = some n := by
    intro pos n hn
    have hsub := hrecords.sublist.map BlockIndexRecord.filePos
    obtain ⟨r, hr, hpos, hheight⟩ :=
      (BitcoinDB.filePosToHeight_eq_some (hdistinct.sublist hsub) hopen).mp hn
    exact (BitcoinDB.filePosToHeight_eq_some hdistinct hopen').mpr
      ⟨r, hrecords.subset hr, hpos, hheight⟩
  obtain rfl := Option.some.inj hopen
  obtain rfl := Option.some.inj hopen'
  exact ⟨rfl, hkept, hheights⟩

end

/-- The node went on from `host`, where `db` was opened, to `host'`, where `db'` is opened with its
txindex: the block files have grown, the chain of the one begins that of the other, whose blocks are
at distinct positions, and the txindex has lost no entry. -/
structure GoesOn (rb : RustBitcoin) (tgt : Target) (host host' : Host) (dataDir : PathBuf)
    (db db' : BitcoinDB) : Prop where
  opened : BitcoinDB.new rb tgt host' dataDir true = .ok db'
  files : db.blkFile.Grows host.disk host'.disk db'.blkFile
  records : db.blockIndex.records <+: db'.blockIndex.records
  positions : (db'.blockIndex.records.map BlockIndexRecord.filePos).Nodup
  entries : ∀ kv, host.openTxDb (BitcoinDB.txIndexPath dataDir) = some kv →
    ∃ kv', host'.openTxDb (BitcoinDB.txIndexPath dataDir) = some kv' ∧
      ∀ key value, kv key = .ok (some value) → kv' key = .ok (some value)

/-- Then the database that is opened later extends the other one: its maps from hashes and from
positions are built from the longer chain. -/
theorem GoesOn.extends {rb : RustBitcoin} {tgt : Target} {host host' : Host} {dataDir : PathBuf}
    {txIndex : Bool} {db db' : BitcoinDB} (h : GoesOn rb tgt host host' dataDir db db')
    (hnew : BitcoinDB.new rb tgt host dataDir txIndex = .ok db) :
    db.Extends host.disk host'.disk db' := by
  obtain ⟨-, hindex, -, htxDb⟩ := BitcoinDB.new_eq_ok.mp hnew
  obtain ⟨-, hindex', -, htxDb'⟩ := BitcoinDB.new_eq_ok.mp h.opened
  refine ⟨h.files, h.records, fun hash n hn => hashToHeight_of_prefix h.records hindex hindex' hn,
    fun txDb hopen => ?_⟩
  rw [htxDb] at hopen
  split at hopen
  · cases hkv : host.openTxDb (BitcoinDB.txIndexPath dataDir) with
    | none =>
      rw [hkv] at hopen
      cases hopen
    | some kv =>
      obtain ⟨kv', hkv', hkept⟩ := h.entries kv hkv
      rw [hkv] at hopen
      rw [if_pos rfl, hkv'] at htxDb'
      exact ⟨_, htxDb', TxDB.extends_of_prefix h.records h.positions hopen rfl hkept⟩
  · cases hopen

namespace BitcoinDB.Extends

variable {disk disk' : Disk} {db db' : BitcoinDB} (h : db.Extends disk disk' db')
include h

/-- The records of the shorter chain stay at their heights. -/
theorem record {height : Nat} {r : BlockIndexRecord}
    (hr : db.blockIndex.records[height]? = some r) :
    db'.blockIndex.records[height]? = some r := by
  obtain ⟨hlt, rfl⟩ := List.getElem?_eq_some_iff.mp hr
  exact (List.prefix_iff_getElem?.mp h.records) height hlt

theorem record_settles {T : Type} (e : Error) (f : BlockIndexRecord → T) (height : Nat) :
    (Outcome.ofOption e (db.blockIndex.records[height]?.map f)).Settles
      (Outcome.ofOption e (db'.blockIndex.records[height]?.map f)) := by
  intro a ha
  obtain ⟨r, hr, rfl⟩ := Option.map_eq_some_iff.mp (Outcome.ofOption_eq_ok.mp ha)
  rw [h.record hr]
  rfl

/-- A query through the txindex. -/
theorem txDb_bind {T : Type} {f g : TxDB → Outcome Error T}
    (hfg : ∀ txDb txDb', txDb.Extends txDb' → (f txDb).Settles (g txDb')) :
    (Outcome.ofOption .txDbUnavailable db.txDb >>= f).Settles
      (Outcome.ofOption .txDbUnavailable db'.txDb >>= g) := by
  intro a ha
  obtain ⟨txDb, htxDb, ha⟩ := Outcome.bind_eq_ok.mp ha
  obtain ⟨txDb', htxDb', hext⟩ := h.txDb txDb (Outcome.ofOption_eq_ok.mp htxDb)
  rw [htxDb', Outcome.ofOption, Outcome.ok_bind]
  exact hfg txDb txDb' hext a ha

end BitcoinDB.Extends

/-! ## Connecting -/

/-- `connect'` finds what `connect` finds, and neither finds anything for a null input. -/
structure FindsMore (connect connect' : TxIn → Outcome Error (Option TxOut)) : Prop where
  null : ∀ i, isCoinBase i = true → connect i = .ok none ∧ connect' i = .ok none
  found : ∀ i out, connect i = .ok (some out) → connect' i = .ok (some out)

/-- More data only makes `connect_input` find more. -/
theorem connectInput_findsMore {rb : RustBitcoin} {tgt : Target} {disk disk' : Disk}
    {db db' : BitcoinDB} (h : db.Extends disk disk' db') {txDb txDb' : TxDB}
    (htx : txDb.Extends txDb') :
    FindsMore (connectInput rb tgt disk txDb db.blockIndex db.blkFile)
      (connectInput rb tgt disk' txDb' db'.blockIndex db'.blkFile) where
  null i hi := by
    rw [connectInput, connectInput, if_pos hi, if_pos hi]
    exact ⟨rfl, rfl⟩
  found i out hok := by
    rw [connectInput] at hok ⊢
    by_cases hnull : isCoinBase i = true
    · rw [if_pos hnull] at hok
      cases hok
    · rw [if_neg hnull] at hok ⊢
      dsimp only at hok ⊢
      rw [htx.isGenesisTx]
      by_cases hgen : txDb.isGenesisTx i.previousOutput.txid = true
      · rw [if_pos hgen] at hok ⊢
        cases hpos : db.blockIndex.records.head? with
        | none =>
          rw [hpos] at hok
          cases hok
        | some pos =>
          have hpos' : db'.blockIndex.records.head? = some pos := by
            rw [List.head?_eq_getElem?] at hpos ⊢
            exact h.record hpos
          rw [hpos] at hok
          rw [hpos']
          dsimp only at hok ⊢
          cases hread : db.blkFile.readBlock rb tgt disk pos.nFile pos.nDataPos with
          | ok blk =>
            rw [BlkFile.readBlock_settles h.blkFile rb tgt _ _ blk hread]
            rwa [hread] at hok
          | err e =>
            rw [hread] at hok
            cases hok
          | panic =>
            rw [hread] at hok
            cases hok
      · rw [if_neg hgen] at hok ⊢
        cases hpos : txDb.getTxPosition tgt i.previousOutput.txid with
        | ok txPos =>
          rw [hpos] at hok
          rw [htx.getTxPosition_settles tgt _ txPos hpos]
          dsimp only at hok ⊢
          cases hread : db.blkFile.readTransaction rb disk txPos.nFile txPos.nDataPos
              txPos.nTxOffset with
          | ok tx =>
            rw [BlkFile.readTransaction_settles h.blkFile rb _ _ _ tx hread]
            rwa [hread] at hok
          | err e =>
            rw [hread] at hok
            cases hok
          | panic =>
            rw [hread] at hok
            cases hok
        | err e =>
          rw [hpos] at hok
          cases hok
        | panic =>
          rw [hpos] at hok
          cases hok

section

variable {Tx Out : Type} {CT : ConnectedTx Tx Out}
  {connect connect' : TxIn → Outcome Error (Option TxOut)}

/-- An input whose output was found, or that is null, is connected the same way by a lookup that
finds more. -/
theorem FindsMore.eq_of_found (h : FindsMore connect connect') {tx : Transaction}
    (hall : ∀ i ∈ tx.input, connect i = .ok (foundBy connect i))
    (hfound : InputsFound (foundBy connect) tx) :
    ∀ i ∈ tx.input, connect' i = .ok (foundBy connect i) := by
  intro i hi
  have hi' := hall i hi
  cases hout : foundBy connect i with
  | none => exact (h.null i (hfound.isNull_of_none hi hout)).2
  | some out =>
    rw [hout] at hi'
    exact h.found i out hi'

/-- A transaction that was connected is connected the same way. -/
theorem FindsMore.connectTxInputs_settles (h : FindsMore connect connect') (tx : Transaction) :
    (connectTxInputs connect tx.input tx.isCoinbase).Settles
      (connectTxInputs connect' tx.input tx.isCoinbase) := by
  intro outs hok
  obtain ⟨hall, hfound, -⟩ := connectTxInputs_eq_ok hok
  rw [connectTxInputs_eq (h.eq_of_found hall hfound), ← connectTxInputs_eq hall, hok]

/-- So is a block. -/
theorem FindsMore.connectBlockInputs_settles (h : FindsMore connect connect')
    (txs : List Transaction) : (connectBlockInputs CT connect txs).Settles
      (connectBlockInputs CT connect' txs) := by
  intro connected hok
  obtain ⟨hall, hfound, rfl⟩ := connectBlockInputs_eq_ok hok
  exact connectBlockInputs_eq (fun tx htx => h.eq_of_found (hall tx htx) (hfound tx htx)) hfound

end

/-! ## The queries -/

/-- Every `Ok` answer of `db` over `disk` is the answer of `db'` over `disk'`, and the block
iterator delivers what it delivered, and then perhaps more. -/
structure KeepsAnswers (rb : RustBitcoin) (tgt : Target) (disk disk' : Disk) (db db' : BitcoinDB) :
    Prop where
  count : db.getBlockCount ≤ db'.getBlockCount
  header : ∀ height, (db.getHeader height).Settles (db'.getHeader height)
  hash : ∀ height, (db.getHashFromHeight rb height).Settles (db'.getHashFromHeight rb height)
  height : ∀ hash, (db.getHeightFromHash hash).Settles (db'.getHeightFromHash hash)
  rawBlock : ∀ height,
    (db.getRawBlock tgt disk height).Settles (db'.getRawBlock tgt disk' height)
  block : ∀ {T : Type} (into : Block → T) height,
    (db.getBlock rb tgt disk into height).Settles (db'.getBlock rb tgt disk' into height)
  transaction : ∀ {T : Type} (into : Transaction → T) txid,
    (db.getTransaction rb tgt disk into txid).Settles (db'.getTransaction rb tgt disk' into txid)
  blockHeight : ∀ txid, (db.getBlockHeight tgt txid).Settles (db'.getBlockHeight tgt txid)
  fullBlock : ∀ height,
    (db.getConnectedBlock rb tgt disk (FullConnectedBlock.connect rb tgt disk) height).Settles
      (db'.getConnectedBlock rb tgt disk' (FullConnectedBlock.connect rb tgt disk') height)
  compactBlock : ∀ height,
    (db.getConnectedBlock rb tgt disk (CompactConnectedBlock.connect rb tgt disk) height).Settles
      (db'.getConnectedBlock rb tgt disk' (CompactConnectedBlock.connect rb tgt disk') height)
  fullTx : ∀ txid,
    (db.getConnectedTransaction rb tgt disk (FullConnectedTransaction.connect rb tgt disk)
        txid).Settles
      (db'.getConnectedTransaction rb tgt disk' (FullConnectedTransaction.connect rb tgt disk')
        txid)
  compactTx : ∀ txid,
    (db.getConnectedTransaction rb tgt disk (CompactConnectedTransaction.connect rb tgt disk)
        txid).Settles
      (db'.getConnectedTransaction rb tgt disk' (CompactConnectedTransaction.connect rb tgt disk')
        txid)
  iterHeights : ∀ {B : Type} (into : Block → B) heights s s',
    (db.iterHeights rb tgt disk into heights).Reachable () s →
    (db'.iterHeights rb tgt disk' into heights).Reachable () s' →
    Pipeline.Complete (db'.iterHeights rb tgt disk' into heights) s' → s.emitted <+: s'.emitted

/-- Where more heights can be read, an iterator delivers more. -/
theorem BlockIter.emitted_prefix {B : Type} {getBlock getBlock' : Nat → Outcome Error B}
    (hsettles : ∀ h, (getBlock h).Settles (getBlock' h)) {heights : List Nat}
    {s : Config (calls (fetch getBlock)) Unit B B} {s' : Config (calls (fetch getBlock')) Unit B B}
    (hr : (new getBlock heights).Reachable () s) (hr' : (new getBlock' heights).Reachable () s')
    (hC : Pipeline.Complete (new getBlock' heights) s') : s.emitted <+: s'.emitted := by
  obtain ⟨n, hok, -, hd⟩ := delivers getBlock heights hr
  obtain ⟨n', hok', hend', hd'⟩ := delivers getBlock' heights hr'
  have hlen : n' ≤ heights.length := by
    rcases hend' with rfl | ⟨h, hh, -⟩
    · exact le_rfl
    · exact (List.getElem?_eq_some_iff.mp hh).1.le
  have hn' : s'.emitted.length = n' := hd'.length_of_complete hlen hC
  have hle : n ≤ n' := by
    rcases hend' with rfl | ⟨h, hh, hfail⟩
    · by_contra hlt
      obtain ⟨h, hh, -⟩ := hok heights.length (by omega)
      exact absurd (List.getElem?_eq_some_iff.mp hh).1 (Nat.lt_irrefl _)
    · by_contra hlt
      obtain ⟨h', hh', hread⟩ := hok n' (by omega)
      obtain rfl := Option.some.inj (hh.symm.trans hh')
      obtain ⟨b, hb⟩ := Outcome.isOk_iff.mp hread
      rw [hsettles h b hb] at hfail
      cases hfail
  -- the first `n` heights have the same blocks
  have hsame : ∀ i, i < n → (heights[i]?.bind fun h => (getBlock h).toOption) =
      heights[i]?.bind fun h => (getBlock' h).toOption := by
    intro i hi
    obtain ⟨h, hh, hread⟩ := hok i hi
    obtain ⟨b, hb⟩ := Outcome.isOk_iff.mp hread
    rw [hh, Option.bind_some, Option.bind_some, hb, hsettles h b hb]
  have htake : s.emitted = s'.emitted.take s.emitted.length := by
    apply List.map_injective_iff.mpr (Option.some_injective B)
    rw [List.map_take, hd'.emitted, hn', ← List.map_take, List.take_range,
      Nat.min_eq_left (hd.emitted_le.trans hle)]
    exact (hd.congr hsame).emitted
  rw [htake]
  exact List.take_prefix _ _

/-- Where there is more, what has been answered stays answered. -/
theorem queries_of_extended (rb : RustBitcoin) (tgt : Target) (disk disk' : Disk)
    (db db' : BitcoinDB) (h : db.Extends disk disk' db') :
    KeepsAnswers rb tgt disk disk' db db' := by
  have hindex : ∀ height, (db.getHeader height).Settles (db'.getHeader height) := by
    intro height
    have hrecord := h.record_settles (.blockIndexRecordNotFound height) id height
    rwa [Option.map_id_fun, id, id] at hrecord
  have hblock : ∀ {T : Type} (into : Block → T) height,
      (db.getBlock rb tgt disk into height).Settles (db'.getBlock rb tgt disk' into height) :=
    fun into height => (hindex height).bind fun index =>
      (BlkFile.readBlock_settles h.blkFile rb tgt _ _).bind fun _ => .refl _
  have htransaction : ∀ {T : Type} (into : Transaction → T) txid,
      (db.getTransaction rb tgt disk into txid).Settles
        (db'.getTransaction rb tgt disk' into txid) := by
    intro T into txid
    refine h.txDb_bind fun txDb txDb' htx => ?_
    rw [htx.isGenesisTx]
    split
    · exact (hblock id 0).bind fun _ => .refl _
    · exact (htx.getTxPosition_settles tgt txid).bind fun txPos =>
        (BlkFile.readTransaction_settles h.blkFile rb _ _ _).bind fun _ => .refl _
  exact
    { count := by
        obtain ⟨more, hmore⟩ := h.records
        have hle : db.getBlockCount ≤ db.blockIndex.records.length := List.findIdx_le_length
        rw [BitcoinDB.getBlockCount] at hle ⊢
        rw [BitcoinDB.getBlockCount, ← hmore, List.findIdx_append]
        split <;> omega
      header := hindex
      hash := fun height => h.record_settles _ _ height
      height := fun hash n hok => by
        obtain ⟨m, hm, rfl⟩ := Option.map_eq_some_iff.mp (Outcome.ofOption_eq_ok.mp hok)
        rw [BitcoinDB.getHeightFromHash, h.hashToHeight hash m hm]
        rfl
      rawBlock := fun height => (hindex height).bind fun index =>
        BlkFile.readRawBlock_settles h.blkFile tgt _ _
      block := hblock
      transaction := htransaction
      blockHeight := fun txid => h.txDb_bind fun _ _ htx => htx.getBlockHeight_settles tgt txid
      fullBlock := fun height => h.txDb_bind fun _ _ htx => (hblock id height).bind fun blk =>
        ((connectInput_findsMore h htx).connectBlockInputs_settles blk.txdata).bind fun _ => .refl _
      compactBlock := fun height => h.txDb_bind fun _ _ htx => (hblock id height).bind fun blk =>
        ((connectInput_findsMore h htx).connectBlockInputs_settles blk.txdata).bind fun _ => .refl _
      fullTx := fun txid => h.txDb_bind fun _ _ htx => (htransaction id txid).bind fun tx =>
        ((connectInput_findsMore h htx).connectTxInputs_settles tx).bind fun _ => .refl _
      compactTx := fun txid => h.txDb_bind fun _ _ htx => (htransaction id txid).bind fun tx =>
        ((connectInput_findsMore h htx).connectTxInputs_settles tx).bind fun _ => .refl _
      iterHeights := fun into heights s s' hr hr' hC =>
        BlockIter.emitted_prefix (hblock into) hr hr' hC }

/-- **What has been answered stays answered** while the files of a database grow, and also by a
database that is opened after the node has gone on. -/
theorem answers_stay (rb : RustBitcoin) (tgt : Target) (host : Host) (dataDir : PathBuf)
    (txIndex : Bool) (db : BitcoinDB) (hnew : BitcoinDB.new rb tgt host dataDir txIndex = .ok db) :
    (∀ disk', host.disk.Grows disk' → KeepsAnswers rb tgt host.disk disk' db db) ∧
      ∀ host' db', GoesOn rb tgt host host' dataDir db db' →
        KeepsAnswers rb tgt host.disk host'.disk db db' :=
  ⟨fun disk' hg => queries_of_extended rb tgt host.disk disk' db db (hg.extends db),
    fun host' db' h => queries_of_extended rb tgt host.disk host'.disk db db' (h.extends hnew)⟩

/-- The machine of the three blocks before the node knew the last one and had indexed a
transaction. -/
def laggingHost : Host :=
  { storedHost with
    short := fun _ _ => 7
    blockDb := fun path =>
      if path = "/data/blocks/index" then some (mainnetEntries.eraseIdx 1) else none
    txDb := fun _ => some fun _ => .ok none }

/-- The same files with one more byte at the end of each. -/
def grownDisk : Disk where
  content path := (laggingHost.disk.content path).map (· ++ [0])
  short _ _ := 0

/-- The block index it opens. -/
def laggingIndex : BlockIndex :=
  ⟨mainnetRecords.take 2, reverseIndex storedBitcoin (mainnetRecords.take 2)⟩

/-- The scan of the block files does not depend on how they are read. -/
theorem blkFile_laggingHost :
    BlkFile.new laggingHost (Path.join "/data" "blocks") =
      BlkFile.new storedHost (Path.join "/data" "blocks") := by
  have hcontent : laggingHost.fs.content laggingHost.cwd
      (Path.join (Path.join "/data" "blocks") "xor.dat") = some (storedMask.toList ++ []) := by
    decide +kernel
  rw [BlkFile.new, BlkFile.new, readXorMask_of_content hcontent, storedDir.readXorMask_eq]
  rfl

theorem openTxDb_laggingHost :
    laggingHost.openTxDb (BitcoinDB.txIndexPath "/data") = some fun _ => .ok none := by
  rw [Host.openTxDb, if_pos (by decide +kernel)]
  rfl

/-- It opens with two records, an empty txindex and the files of all blocks. -/
theorem laggingHost_opens {bf : BlkFile}
    (hfile : BlkFile.new storedHost (Path.join "/data" "blocks") = .ok bf) :
    BitcoinDB.new storedBitcoin ⟨true, true⟩ laggingHost "/data" true =
      .ok ⟨bf, laggingIndex, TxDB.openAt (some fun _ => .ok none) laggingIndex⟩ := by
  refine BitcoinDB.new_eq_ok.mpr ⟨by decide +kernel, ?_, blkFile_laggingHost.trans hfile, ?_⟩
  · have hpath : laggingHost.blockDb (BitcoinDB.indexPath "/data") =
        some (mainnetEntries.eraseIdx 1) := by decide +kernel
    rw [hpath]
    exact BlockIndex.new_of_load (by decide +kernel)
  · rw [openTxDb_laggingHost, if_pos rfl]

/-- What was answered there is answered after one more byte was written, and by the database that
has all three blocks. -/
theorem answers_stay_laggingHost :
    ∃ db db', BitcoinDB.new storedBitcoin ⟨true, true⟩ laggingHost "/data" true = .ok db ∧
      BitcoinDB.new storedBitcoin ⟨true, true⟩ storedHost "/data" true = .ok db' ∧
      KeepsAnswers storedBitcoin ⟨true, true⟩ laggingHost.disk grownDisk db db ∧
      KeepsAnswers storedBitcoin ⟨true, true⟩ laggingHost.disk storedHost.disk db db' := by
  obtain ⟨db', hnew', -⟩ := storedDir.opens ⟨true, true⟩ (by decide) true
  obtain ⟨-, hindex', hfile', -⟩ := BitcoinDB.new_eq_ok.mp hnew'
  have hload' : BlockIndex.new storedBitcoin ⟨true, true⟩ (some (([0x6c], [0]) :: mainnetEntries)) =
      .ok ⟨mainnetRecords, reverseIndex storedBitcoin mainnetRecords⟩ :=
    BlockIndex.new_of_load (by decide +kernel)
  have hblockIndex : db'.blockIndex = ⟨mainnetRecords, reverseIndex storedBitcoin mainnetRecords⟩ :=
    Outcome.ok.inj (hindex'.symm.trans (by rw [storedDir.blockDb]; exact hload'))
  have hnew := laggingHost_opens hfile'
  have hgrown : laggingHost.disk.Grows grownDisk := fun _ _ h =>
    ⟨[0], congrArg (Option.map (· ++ [0])) h⟩
  have hsame : laggingHost.disk.Grows storedHost.disk := fun _ content h =>
    ⟨[], by rw [List.append_nil]; exact h⟩
  obtain ⟨hfiles, hreopened⟩ := answers_stay storedBitcoin ⟨true, true⟩ laggingHost "/data" true _
    hnew
  refine ⟨_, db', hnew, hnew', hfiles grownDisk hgrown, hreopened storedHost db'
    ⟨hnew', BlkFile.grows_of_disk hsame _, ?_, ?_, fun kv hkv => ?_⟩⟩
  · rw [hblockIndex]
    exact List.take_prefix 2 mainnetRecords
  · rw [hblockIndex]
    decide +kernel
  · obtain rfl := Option.some.inj (openTxDb_laggingHost.symm.trans hkv)
    exact ⟨_, storedDir_hasTxIndex.opened, fun _ _ h => by cases h⟩

end BitcoinExplorer
