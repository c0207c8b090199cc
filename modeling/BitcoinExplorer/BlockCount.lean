import BitcoinExplorer.Api
import BitcoinExplorer.Parser.DiskBlockIndex

/-!
# What `get_block_count` promises

`get_block_count` stops at the first record without transactions, and is documented as the number of
blocks that have been downloaded and are available for query. `load_block_index` keeps a record of
height 0 whatever its status is, so nothing says that its block is there.

* **`blockCountGuarantee_iff`**: the promise holds exactly when record 0 has data or no
  transactions, and no counted record stores the number that stands for an absent file or position.
-/

namespace BitcoinExplorer

open Rust

/-- The record holds the numbers of an entry. -/
def StoredAs (enc : BlockHeader → List UInt8) (entries : Entries) (r : BlockIndexRecord)
    (d : DiskBlockIndex) : Prop :=
  ∃ k rest, isBlockIndexRecord k = true ∧ (k, d.serialize enc ++ rest) ∈ entries ∧ r = d.toRecord

/-- The block of a record is available: the record has data, with transactions, at a position that
the database stores and that is not an absent one. -/
structure Available (enc : BlockHeader → List UInt8) (entries : Entries) (r : BlockIndexRecord) :
    Prop where
  haveData : haveData r.nStatus = true
  nTx : 0 < r.nTx
  stored : ∃ d, StoredAs enc entries r d ∧ r.nFile = asI32 d.nFile ∧ r.nDataPos = asU32 d.nDataPos
  nFile : r.nFile ≠ -1
  nDataPos : r.nDataPos ≠ 0xffffffff

/-- The promise of `get_block_count`. -/
structure BlockCountGuarantee (enc : BlockHeader → List UInt8) (entries : Entries)
    (db : BitcoinDB) : Prop where
  available : ∀ h < db.getBlockCount, ∃ r, db.getHeader h = .ok r ∧ Available enc entries r
  largest : ∀ n, (∀ h < n, ∃ r, db.blockIndex.records[h]? = some r ∧ 0 < r.nTx) →
    n ≤ db.getBlockCount

/-- Record 0 has data or no transactions; and a record with data and transactions, such that all
below it have transactions, stores neither its file nor its position as `2 ^ 32 - 1`, modulo
`2 ^ 32`. -/
structure BlocksStored (enc : BlockHeader → List UInt8) (entries : Entries)
    (records : List BlockIndexRecord) : Prop where
  genesis : ∀ r, records[0]? = some r → r.nTx = 0 ∨ haveData r.nStatus = true
  present : ∀ (h : Nat) r d, records[h]? = some r →
    (∀ i ≤ h, ∃ r', records[i]? = some r' ∧ 0 < r'.nTx) → haveData r.nStatus = true →
    StoredAs enc entries r d →
    d.nFile % 2 ^ 32 ≠ 2 ^ 32 - 1 ∧ d.nDataPos % 2 ^ 32 ≠ 2 ^ 32 - 1

/-! ## The numbers of a record with data -/

theorem asI32_eq_neg_one {n : Nat} : asI32 n = -1 ↔ n % 2 ^ 32 = 2 ^ 32 - 1 := by
  have hmod : asI32 n % 2 ^ 32 = (n : Int) % 2 ^ 32 := Int.bmod_emod
  have hbounds := asI32_bounds n
  generalize asI32 n = i at hmod hbounds
  omega

theorem asU32_eq_max {n : Nat} : asU32 n = 0xffffffff ↔ n % 2 ^ 32 = 2 ^ 32 - 1 := by
  rw [← UInt32.toNat_inj, DiskBlockIndex.toNat_asU32]
  rfl

/-- A status with data has a file. -/
theorem haveFile_of_haveData {nStatus : UInt32} (h : haveData nStatus = true) :
    haveFile nStatus = true := by
  have hpos : nStatus &&& blockHaveData > 0 := of_decide_eq_true h
  refine decide_eq_true (UInt32.pos_iff_ne_zero.mpr fun hzero => ?_)
  -- the bit of the data is one of the two
  have hbit : nStatus &&& blockHaveData = (nStatus &&& (blockHaveData ||| blockHaveUndo)) &&&
      blockHaveData := by
    rw [UInt32.and_assoc]
    rfl
  rw [hbit, hzero, UInt32.zero_and] at hpos
  exact absurd hpos (by decide)

variable {rb : RustBitcoin} {tgt : Target} {enc : BlockHeader → List UInt8} {entries : Entries}
  {db : BitcoinDB}

theorem StoredAs.fields {r : BlockIndexRecord} {d : DiskBlockIndex} (h : StoredAs enc entries r d)
    (hdata : haveData r.nStatus = true) :
    r.nFile = asI32 d.nFile ∧ r.nDataPos = asU32 d.nDataPos := by
  obtain ⟨k, rest, -, -, rfl⟩ := h
  exact ⟨if_pos (haveFile_of_haveData hdata), if_pos hdata⟩

/-! ## The records of an index -/

/-- A record of the index is that of an entry, and above height 0 it has data. -/
theorem record_stored (hnew : BlockIndex.new rb tgt (some entries) = .ok db.blockIndex)
    (hheader : rb.headerDecoder.Consumes enc) {h : Nat} {r : BlockIndexRecord}
    (hr : db.blockIndex.records[h]? = some r) :
    (h ≠ 0 → haveData r.nStatus = true) ∧ ∃ d, StoredAs enc entries r d := by
  obtain ⟨records, hload, hindex⟩ := Outcome.bind_eq_ok.mp hnew
  rw [← Outcome.ok.inj hindex] at hr
  obtain ⟨valid, hrecords, hchain, -⟩ := loadBlockIndex_eq_ok hload
  have hheight : r.nHeight = h := hchain.rank h r hr
  have hvalid := Backtrace.mem_of_store (hchain.stored r (List.mem_of_getElem? hr))
  obtain ⟨k, v, hmem, hk, hdecode, hvalid⟩ := (mem_validRecords hrecords r).mp hvalid
  refine ⟨fun hne => ?_, ?_⟩
  · have hne : r.nHeight ≠ 0 := by omega
    simp only [BlockIndexRecord.isValid, Bool.or_eq_true, decide_eq_true_eq,
      Bool.and_eq_true] at hvalid
    exact decide_eq_true (hvalid.resolve_left hne).2
  · obtain ⟨d, rest, rfl, hrecord⟩ := decode_eq_ok hheader hdecode
    exact ⟨d, k, rest, hk, hmem, hrecord⟩

/-- A height is counted when all records up to it have transactions. -/
theorem lt_getBlockCount {h : Nat} : h < db.getBlockCount ↔
    ∀ i ≤ h, ∃ r, db.blockIndex.records[i]? = some r ∧ 0 < r.nTx := by
  rw [BitcoinDB.getBlockCount, List.lt_findIdx_iff]
  simp only [decide_eq_false_iff_not]
  constructor
  · rintro ⟨hlt, hall⟩ i hi
    exact ⟨_, List.getElem?_eq_getElem (by omega), UInt32.pos_iff_ne_zero.mpr (hall i hi)⟩
  · intro hall
    obtain ⟨r, hr, -⟩ := hall h (Nat.le_refl h)
    refine ⟨(List.getElem?_eq_some_iff.mp hr).1, fun i hi => ?_⟩
    obtain ⟨r', hr', hpos⟩ := hall i hi
    rw [(List.getElem?_eq_some_iff.mp hr').2]
    exact UInt32.pos_iff_ne_zero.mp hpos

/-- **`get_block_count` keeps its promise exactly when the counted blocks are stored**: for every
database that `BlockIndex::new` loads. -/
theorem blockCountGuarantee_iff (rb : RustBitcoin) (tgt : Target) (enc : BlockHeader → List UInt8)
    (hheader : rb.headerDecoder.Consumes enc) (entries : Entries) (db : BitcoinDB)
    (hnew : BlockIndex.new rb tgt (some entries) = .ok db.blockIndex) :
    BlockCountGuarantee enc entries db ↔ BlocksStored enc entries db.blockIndex.records := by
  constructor
  · intro hcount
    have havailable : ∀ (h : Nat) r, db.blockIndex.records[h]? = some r →
        (∀ i ≤ h, ∃ r', db.blockIndex.records[i]? = some r' ∧ 0 < r'.nTx) →
        Available enc entries r := by
      intro h r hr hall
      obtain ⟨r', hr', hok⟩ := hcount.available h (lt_getBlockCount.mpr hall)
      rw [BitcoinDB.getHeader, hr] at hr'
      rwa [Outcome.ok.inj hr']
    refine ⟨fun r hr => ?_, fun h r d hr hall hdata hd => ?_⟩
    · refine or_iff_not_imp_left.mpr fun hne => (havailable 0 r hr fun i hi => ?_).haveData
      exact ⟨r, Nat.le_zero.mp hi ▸ hr, UInt32.pos_iff_ne_zero.mpr hne⟩
    · have hok := havailable h r hr hall
      obtain ⟨hfile, hpos⟩ := hd.fields hdata
      exact ⟨fun hmax => hok.nFile (hfile.trans (asI32_eq_neg_one.mpr hmax)),
        fun hmax => hok.nDataPos (hpos.trans (asU32_eq_max.mpr hmax))⟩
  · intro hstored
    refine ⟨fun h hlt => ?_, fun n hall => ?_⟩
    · have hall := lt_getBlockCount.mp hlt
      obtain ⟨r, hr, hpos⟩ := hall h (Nat.le_refl h)
      obtain ⟨habove, d, hd⟩ := record_stored hnew hheader hr
      have hdata : haveData r.nStatus = true := by
        rcases Nat.eq_zero_or_pos h with rfl | hne
        · exact (hstored.genesis r hr).resolve_left (UInt32.pos_iff_ne_zero.mp hpos)
        · exact habove (Nat.ne_of_gt hne)
      obtain ⟨hfile, hdatapos⟩ := hd.fields hdata
      obtain ⟨hfile', hdatapos'⟩ := hstored.present h r d hr hall hdata hd
      refine ⟨r, by rw [BitcoinDB.getHeader, hr, Outcome.ofOption], hdata, hpos,
        ⟨d, hd, hfile, hdatapos⟩, ?_, ?_⟩
      · rw [hfile]
        exact mt asI32_eq_neg_one.mp hfile'
      · rw [hdatapos]
        exact mt asU32_eq_max.mp hdatapos'
    · rcases Nat.eq_zero_or_pos n with rfl | hpos
      · exact Nat.zero_le _
      · have hlt : n - 1 < db.getBlockCount := lt_getBlockCount.mpr fun i hi => hall i (by omega)
        omega

/-- A database opened on records, with the names of its blk files. -/
def indexedDb (records : List BlockIndexRecord) : BitcoinDB where
  blkFile := ⟨fun nFile => if nFile = 0 then some "blk00000.dat" else none, none⟩
  blockIndex := ⟨records, reverseIndex mainnetBitcoin records⟩
  txDb := none

/-- Three blocks with data. -/
theorem blockCountGuarantee_mainnet :
    BlockCountGuarantee encodeHeader mainnetEntries (indexedDb mainnetRecords) ↔
      BlocksStored encodeHeader mainnetEntries mainnetRecords := by
  have hload : loadBlockIndex mainnetBitcoin ⟨true, true⟩ (some mainnetEntries) =
      .ok mainnetRecords := by decide +kernel
  exact blockCountGuarantee_iff mainnetBitcoin ⟨true, true⟩ encodeHeader consumes_header
    mainnetEntries (indexedDb mainnetRecords) (BlockIndex.new_of_load hload)

/-- The genesis block is known, with its transaction, but its data is not there (status 5). -/
def absentGenesis : Entries := [([0x62, 0], [1, 0, 5, 1] ++ encodeHeader genesisHeader)]

/-- Its record. -/
def absentRecord : BlockIndexRecord := ⟨1, 0, 5, 1, -1, 0xffffffff, 0xffffffff, genesisHeader⟩

/-- **A genesis block without data is counted**, and `get_block` does not find it. -/
theorem getBlockCount_absentGenesis :
    BlockIndex.new mainnetBitcoin ⟨true, true⟩ (some absentGenesis) =
        .ok (indexedDb [absentRecord]).blockIndex ∧
      (indexedDb [absentRecord]).getBlockCount = 1 ∧
      ¬ BlockCountGuarantee encodeHeader absentGenesis (indexedDb [absentRecord]) ∧
      (indexedDb [absentRecord]).getBlock mainnetBitcoin ⟨true, true⟩
        ⟨fun _ => none, fun _ _ => 0⟩ id 0 = .err (.blockFileNotFound (-1)) := by
  have hload : loadBlockIndex mainnetBitcoin ⟨true, true⟩ (some absentGenesis) =
      .ok [absentRecord] := by decide +kernel
  refine ⟨BlockIndex.new_of_load hload, by decide, fun hcount => ?_, rfl⟩
  obtain ⟨r, hr, hok⟩ := hcount.available 0 (by decide)
  cases hr
  exact absurd hok.haveData (by decide)

end BitcoinExplorer
