import BitcoinExplorer.LegacyCodec
import BitcoinExplorer.Lib.Backtrace
import BitcoinExplorer.Parser.Reader

/-!
# `src/parser/block_index.rs`: the block index

The block index is a leveldb whose entries under a key starting with `b` are block headers with
their height, status and place on disk. `load_block_index` keeps the valid ones, and walks from the
one of the greatest height back to height 0. A database is the list of its entries in the order of
the iterator, `none` when it cannot be opened.

* **`loadBlockIndex_wellFormed`**: what it returns is a chain of valid records, one for each height
  up to the greatest one.
* **`loadBlockIndex_panics_iff`**: it aborts exactly when the chain below the greatest height is not
  complete.
-/

namespace BitcoinExplorer

open Rust Backtrace

def blockValidHeader : UInt32 := 1
def blockValidTree : UInt32 := 2
def blockValidTransactions : UInt32 := 3
def blockValidChain : UInt32 := 4
def blockValidScripts : UInt32 := 5
def blockValidMask : UInt32 :=
  blockValidHeader ||| blockValidTree ||| blockValidTransactions ||| blockValidChain |||
    blockValidScripts
def blockHaveData : UInt32 := 8
def blockHaveUndo : UInt32 := 16

/-- `BlockIndexRecord`. -/
structure BlockIndexRecord where
  nVersion : Int
  nHeight : Int
  nStatus : UInt32
  nTx : UInt32
  nFile : Int
  nDataPos : UInt32
  nUndoPos : UInt32
  blockHeader : BlockHeader
  deriving DecidableEq, Repr

namespace BlockIndexRecord

/-- `is_valid`. -/
def isValid (self : BlockIndexRecord) : Bool :=
  self.nHeight = 0 ||
    (self.nStatus &&& blockValidMask ≥ blockValidScripts && self.nStatus &&& blockHaveData > 0)

/-- `if present { reader.read_varint()? as T } else { absent }`. -/
def readVarintIf {α : Type} (tgt : Target) (present : Bool) (cast : Nat → α) (absent : α)
    (reader : List UInt8) : Outcome Error (α × List UInt8) :=
  if present then do
    let (n, reader) ← readVarint tgt reader 0
    .ok (cast n, reader)
  else .ok (absent, reader)

/-- `decode`. -/
def decode (rb : RustBitcoin) (tgt : Target) (values : List UInt8) :
    Outcome Error BlockIndexRecord := do
  let (nVersion, reader) ← readVarint tgt values 0
  let (nHeight, reader) ← readVarint tgt reader 0
  let (nStatus, reader) ← readVarint tgt reader 0
  let nStatus := asU32 nStatus
  let (nTx, reader) ← readVarint tgt reader 0
  let (nFile, reader) ←
    readVarintIf tgt (nStatus &&& (blockHaveData ||| blockHaveUndo) > 0) asI32 (-1) reader
  let (nDataPos, reader) ←
    readVarintIf tgt (nStatus &&& blockHaveData > 0) asU32 0xffffffff reader
  let (nUndoPos, reader) ←
    readVarintIf tgt (nStatus &&& blockHaveUndo > 0) asU32 0xffffffff reader
  let (blockHeader, _) ← Outcome.ofOption .encode (rb.headerDecoder.run reader)
  .ok
    { nVersion := asI32 nVersion
      nHeight := asI32 nHeight
      nStatus
      nTx := asU32 nTx
      nFile
      nDataPos
      nUndoPos
      blockHeader }

end BlockIndexRecord

/-- `is_block_index_record`. -/
def isBlockIndexRecord (data : List UInt8) : Bool := data.head? = some 0x62

/-- The entries of a leveldb, in the order of its iterator. -/
abbrev Entries := List (List UInt8 × List UInt8)

/-! ## The scan over the entries -/

/-- The variables of the first loop of `load_block_index`. -/
structure Scan where
  blockIndexByBlockHash : BlockHash → Option BlockIndexRecord
  maxHeightBlockHash : Option (BlockHash × Int)

section

variable (rb : RustBitcoin) (tgt : Target)

/-- The loop body for a valid record. -/
def Scan.insert (s : Scan) (record : BlockIndexRecord) : Scan :=
  let blockHash := rb.blockHash record.blockHeader
  { maxHeightBlockHash :=
      match s.maxHeightBlockHash with
      | some (hash, height) =>
        if record.nHeight > height then some (blockHash, record.nHeight) else some (hash, height)
      | none => some (blockHash, record.nHeight)
    blockIndexByBlockHash := fun hash =>
      if hash = blockHash then some record else s.blockIndexByBlockHash hash }

/-- The loop `while iter.advance()`. -/
def Scan.run : Entries → Scan → Outcome Error Scan
  | [], s => .ok s
  | (k, v) :: iter, s =>
    if isBlockIndexRecord k then do
      let record ← BlockIndexRecord.decode rb tgt v
      if record.isValid then Scan.run iter (s.insert rb record) else Scan.run iter s
    else Scan.run iter s

/-! ## The walk from the greatest height -/

/-- `size_of::<BlockIndexRecord>()`. -/
def blockIndexRecordSize : Nat := 108

/-- `Vec::with_capacity` of records: the size in bytes must not exceed `isize::MAX`. -/
def withCapacity (capacity : Nat) : Outcome Error Unit :=
  if capacity * blockIndexRecordSize < 2 ^ 63 then .ok () else .panic

/-- The loop `while current_height >= 0`, as the records it pushes. The argument is
`current_height + 1`. -/
def walkBack : Nat → BlockHash → (BlockHash → Option BlockIndexRecord) →
    Outcome Error (List BlockIndexRecord)
  | 0, _, _ => .ok []
  | currentHeight + 1, currentHash, blockIndexByBlockHash =>
    match blockIndexByBlockHash currentHash with
    | none => .panic
    | some blk =>
      if (currentHeight : Int) = blk.nHeight then do
        let blockIndex ← walkBack currentHeight blk.blockHeader.prevBlockhash
          (erase blockIndexByBlockHash currentHash)
        .ok (blk :: blockIndex)
      else .panic

/-- `load_block_index`. -/
def loadBlockIndex (db : Option Entries) : Outcome Error (List BlockIndexRecord) := do
  let entries ← .ofOption .leveldb db
  let s ← Scan.run rb tgt entries ⟨fun _ => none, none⟩
  match s.maxHeightBlockHash with
  | some (hash, height) => do
    let capacity ← .overflowing tgt (asUsize height + 1 < 2 ^ 64) (asUsize height + 1)
      ((asUsize height + 1) % 2 ^ 64)
    withCapacity capacity
    let blockIndex ← walkBack (height + 1).toNat hash s.blockIndexByBlockHash
    .ok blockIndex.reverse
  | none => .ok []

/-- `BlockIndex`. -/
structure BlockIndex where
  records : List BlockIndexRecord
  hashToHeight : BlockHash → Option Int

/-- The reverse index that `BlockIndex::new` builds: one insertion for each record. -/
def reverseIndex (records : List BlockIndexRecord) : BlockHash → Option Int :=
  records.foldl
    (fun (m : BlockHash → Option Int) b hash =>
      if hash = rb.blockHash b.blockHeader then some b.nHeight else m hash)
    fun _ => none

/-- `BlockIndex::new`. -/
def BlockIndex.new (db : Option Entries) : Outcome Error BlockIndex := do
  let records ← loadBlockIndex rb tgt db
  .ok { records, hashToHeight := reverseIndex rb records }

/-! ## What the scan keeps -/

/-- How the records of the index are linked. -/
abbrev recordLinks : Links BlockHash BlockIndexRecord where
  key r := rb.blockHash r.blockHeader
  prev r := r.blockHeader.prevBlockhash
  rank := BlockIndexRecord.nHeight

/-- The valid records of a database, in the order of its entries. -/
def validRecords : Entries → Outcome Error (List BlockIndexRecord)
  | [] => .ok []
  | (k, v) :: entries =>
    if isBlockIndexRecord k then do
      let record ← BlockIndexRecord.decode rb tgt v
      let records ← validRecords entries
      .ok (if record.isValid then record :: records else records)
    else validRecords entries

/-- A valid record of a database. -/
def ValidRecord (entries : Entries) (r : BlockIndexRecord) : Prop :=
  ∃ k v, (k, v) ∈ entries ∧ isBlockIndexRecord k = true ∧ BlockIndexRecord.decode rb tgt v = .ok r ∧
    r.isValid = true

variable {rb} {tgt} {entries : Entries} {valid : List BlockIndexRecord}

theorem validRecord_cons {k v : List UInt8} {r : BlockIndexRecord} :
    ValidRecord rb tgt ((k, v) :: entries) r ↔
      isBlockIndexRecord k = true ∧ BlockIndexRecord.decode rb tgt v = .ok r ∧ r.isValid = true ∨
        ValidRecord rb tgt entries r := by
  unfold ValidRecord
  constructor
  · rintro ⟨k', v', hmem, h⟩
    rcases List.mem_cons.mp hmem with he | hmem
    · cases he
      exact Or.inl h
    · exact Or.inr ⟨k', v', hmem, h⟩
  · rintro (h | ⟨k', v', hmem, h⟩)
    · exact ⟨k, v, List.mem_cons_self, h⟩
    · exact ⟨k', v', List.mem_cons_of_mem _ hmem, h⟩

theorem mem_validRecords : ∀ {entries : Entries} {valid : List BlockIndexRecord},
    validRecords rb tgt entries = .ok valid → ∀ r, r ∈ valid ↔ ValidRecord rb tgt entries r
  | [], valid, h, r => by
    cases h
    simp [ValidRecord]
  | (k, v) :: entries, valid, h, r => by
    rw [validRecord_cons]
    unfold validRecords at h
    split at h
    · rename_i hk
      obtain ⟨record, hdecode, h⟩ := Outcome.bind_eq_ok.mp h
      obtain ⟨records, hrecords, h⟩ := Outcome.bind_eq_ok.mp h
      obtain rfl := Outcome.ok.inj h
      rw [← mem_validRecords hrecords r, hdecode]
      have hrecord : Outcome.ok (ε := Error) record = .ok r ↔ r = record := by
        rw [Outcome.ok.injEq, eq_comm]
      by_cases hvalid : record.isValid = true
      · rw [if_pos hvalid, List.mem_cons, hrecord]
        exact or_congr_left ⟨fun he => ⟨hk, he, he ▸ hvalid⟩, fun he => he.2.1⟩
      · rw [if_neg hvalid, hrecord]
        exact ⟨Or.inr, fun he => he.resolve_left fun he => hvalid (he.2.1 ▸ he.2.2)⟩
    · rename_i hk
      rw [← mem_validRecords h r]
      exact ⟨Or.inr, fun he => he.resolve_left fun he => hk he.1⟩

/-- The scan so far has kept the last record of each hash, and the first one of the greatest
height. -/
structure Scanned (rb : RustBitcoin) (s : Scan) (valid : List BlockIndexRecord) : Prop where
  index : s.blockIndexByBlockHash = store (recordLinks rb) valid
  best : s.maxHeightBlockHash =
    (tip (recordLinks rb) valid).map fun t => (rb.blockHash t.blockHeader, t.nHeight)

theorem Scanned.start : Scanned rb ⟨fun _ => none, none⟩ [] := ⟨rfl, rfl⟩

theorem Scanned.insert {s : Scan} (h : Scanned rb s valid) (record : BlockIndexRecord) :
    Scanned rb (s.insert rb record) (valid ++ [record]) where
  index := by
    rw [store_concat, ← h.index]
    rfl
  best := by
    rw [tip_concat, Scan.insert]
    dsimp only
    rw [h.best]
    cases ht : tip (recordLinks rb) valid with
    | none => rfl
    | some t =>
      dsimp only [Option.map_some]
      split <;> rfl

theorem Scanned.foldl : ∀ {valid' valid : List BlockIndexRecord} {s : Scan},
    Scanned rb s valid → Scanned rb (valid'.foldl (Scan.insert rb) s) (valid ++ valid')
  | [], valid, s, h => by rwa [List.append_nil]
  | record :: valid', valid, s, h => by
    rw [List.append_cons]
    exact (h.insert record).foldl

/-- The scan inserts the valid records in the order of the entries. -/
theorem scan_run_eq : ∀ (entries : Entries) (s : Scan), Scan.run rb tgt entries s =
    validRecords rb tgt entries >>= fun valid => .ok (valid.foldl (Scan.insert rb) s)
  | [], s => rfl
  | (k, v) :: entries, s => by
    unfold validRecords Scan.run
    split
    · cases BlockIndexRecord.decode rb tgt v with
      | err e => rfl
      | panic => rfl
      | ok record =>
        rw [Outcome.ok_bind, Outcome.ok_bind, scan_run_eq entries, scan_run_eq entries]
        cases validRecords rb tgt entries with
        | err e => split <;> rfl
        | panic => split <;> rfl
        | ok valid =>
          simp only [Outcome.ok_bind]
          split <;> rfl
    · exact scan_run_eq entries s

/-! ## What the walk finds -/

/-- The loop is a walk back along the links, which panics where that gives up. -/
theorem walkBack_eq : ∀ (n : Nat) (hash : BlockHash) (m : BlockHash → Option BlockIndexRecord),
    walkBack n hash m =
      match walk (recordLinks rb) n hash m with
      | some blockIndex => .ok blockIndex
      | none => .panic
  | 0, _, _ => rfl
  | n + 1, hash, m => by
    unfold walkBack walk
    cases m hash with
    | none => rfl
    | some blk =>
      dsimp only
      by_cases hn : (n : Int) = blk.nHeight
      · rw [if_pos hn, if_pos hn.symm, walkBack_eq n]
        cases walk (recordLinks rb) n blk.blockHeader.prevBlockhash (erase m hash) <;> rfl
      · rw [if_neg hn, if_neg (Ne.symm hn)]

/-- What `load_block_index` does after the scan. -/
def bestChain (rb : RustBitcoin) (tgt : Target) (valid : List BlockIndexRecord) :
    Outcome Error (List BlockIndexRecord) :=
  match tip (recordLinks rb) valid with
  | none => .ok []
  | some t => do
    let capacity ← .overflowing tgt (asUsize t.nHeight + 1 < 2 ^ 64) (asUsize t.nHeight + 1)
      ((asUsize t.nHeight + 1) % 2 ^ 64)
    withCapacity capacity
    let blockIndex ← walkBack (t.nHeight + 1).toNat (rb.blockHash t.blockHeader)
      (store (recordLinks rb) valid)
    .ok blockIndex.reverse

theorem loadBlockIndex_eq (entries : Entries) :
    loadBlockIndex rb tgt (some entries) = validRecords rb tgt entries >>= bestChain rb tgt := by
  rw [loadBlockIndex, Outcome.ofOption, Outcome.ok_bind, scan_run_eq]
  cases validRecords rb tgt entries with
  | err e => rfl
  | panic => rfl
  | ok valid =>
    have hscanned : Scanned rb (valid.foldl (Scan.insert rb) ⟨fun _ => none, none⟩)
        ([] ++ valid) := Scanned.start.foldl
    obtain ⟨hindex, hbest⟩ := hscanned
    simp only [Outcome.ok_bind, bestChain, hindex, hbest, List.nil_append]
    cases tip (recordLinks rb) valid <;> rfl

theorem asI32_bounds (n : Nat) : -2 ^ 31 ≤ asI32 n ∧ asI32 n < 2 ^ 31 := by
  have hle := Int.le_bmod (x := n) (Nat.two_pow_pos 32)
  have hlt := Int.bmod_lt (x := n) (Nat.two_pow_pos 32)
  unfold asI32
  omega

/-- A decoded height is an `i32`. -/
theorem nHeight_bounds {values : List UInt8} {r : BlockIndexRecord}
    (h : BlockIndexRecord.decode rb tgt values = .ok r) :
    -2 ^ 31 ≤ r.nHeight ∧ r.nHeight < 2 ^ 31 := by
  unfold BlockIndexRecord.decode at h
  simp only [Outcome.bind_eq_ok] at h
  obtain ⟨_, -, nHeight, -, _, -, _, -, _, -, _, -, _, -, _, -, h⟩ := h
  rw [← Outcome.ok.inj h]
  dsimp only
  exact asI32_bounds nHeight.1

/-- A complete chain of valid records below the first one of the greatest height. -/
structure Ancestry (rb : RustBitcoin) (valid v : List BlockIndexRecord) : Prop where
  chain : Chain (recordLinks rb) (store (recordLinks rb) valid) v
  ends : ∃ t, tip (recordLinks rb) valid = some t ∧ (v.length : Int) = t.nHeight + 1 ∧
    EndsAt (recordLinks rb) v (rb.blockHash t.blockHeader)

section Tip

variable {t : BlockIndexRecord} (ht : tip (recordLinks rb) valid = some t)
include ht

/-- With a greatest height that is not negative, the walk decides. -/
theorem bestChain_of_nonneg (h0 : 0 ≤ t.nHeight) (hlt : t.nHeight < 2 ^ 31) :
    bestChain rb tgt valid =
      match walk (recordLinks rb) (t.nHeight + 1).toNat (rb.blockHash t.blockHeader)
        (store (recordLinks rb) valid) with
      | some blockIndex => .ok blockIndex.reverse
      | none => .panic := by
  have hsize : asUsize t.nHeight = t.nHeight.toNat := by
    unfold asUsize
    omega
  have hcapacity : withCapacity (t.nHeight.toNat + 1) = .ok () := by
    rw [withCapacity, if_pos (by unfold blockIndexRecordSize; omega)]
  unfold bestChain
  rw [ht]
  dsimp only
  rw [hsize, Outcome.overflowing_of_fits (by omega), Outcome.ok_bind, hcapacity, Outcome.ok_bind,
    walkBack_eq]
  cases walk (recordLinks rb) (t.nHeight + 1).toNat (rb.blockHash t.blockHeader)
    (store (recordLinks rb) valid) <;> rfl

/-- With a negative greatest height the vector is empty, if the capacity passes at all. -/
theorem bestChain_of_neg (hneg : t.nHeight < 0) (hge : -2 ^ 31 ≤ t.nHeight)
    {v : List BlockIndexRecord} (h : bestChain rb tgt valid = .ok v) : t.nHeight = -1 ∧ v = [] := by
  have hsize : asUsize t.nHeight = 2 ^ 64 - (-t.nHeight).toNat := by
    unfold asUsize
    omega
  unfold bestChain at h
  rw [ht] at h
  dsimp only at h
  by_cases h1 : t.nHeight = -1
  · rw [h1] at h
    simp only [Outcome.bind_eq_ok] at h
    obtain ⟨_, -, _, -, _, hwalk, h⟩ := h
    cases hwalk
    obtain rfl := Outcome.ok.inj h
    exact ⟨h1, rfl⟩
  · rw [hsize, Outcome.overflowing_of_fits (by omega), Outcome.ok_bind, withCapacity,
      if_neg (by unfold blockIndexRecordSize; omega)] at h
    cases h

/-- A walk down from the tip finds a complete chain. -/
theorem walk_eq_some_iff_ancestry (h0 : 0 ≤ t.nHeight) {l : List BlockIndexRecord} :
    walk (recordLinks rb) (t.nHeight + 1).toNat (rb.blockHash t.blockHeader)
      (store (recordLinks rb) valid) = some l ↔ Ancestry rb valid l.reverse := by
  rw [walk_eq_some (keyed_store valid)]
  constructor
  · rintro ⟨hchain, hlen, hend⟩
    exact ⟨hchain, t, ht, by rw [List.length_reverse]; omega, hend⟩
  · rintro ⟨hchain, t', ht', hlen, hend⟩
    obtain rfl := Option.some.inj (ht.symm.trans ht')
    rw [List.length_reverse] at hlen
    exact ⟨hchain, by omega, hend⟩

/-- **The walk finds the complete chain** when there is one. -/
theorem bestChain_eq_ok (h0 : 0 ≤ t.nHeight) (hlt : t.nHeight < 2 ^ 31)
    {v : List BlockIndexRecord} : bestChain rb tgt valid = .ok v ↔ Ancestry rb valid v := by
  rw [bestChain_of_nonneg ht h0 hlt, ← List.reverse_reverse v, ← walk_eq_some_iff_ancestry ht h0]
  cases walk (recordLinks rb) (t.nHeight + 1).toNat (rb.blockHash t.blockHeader)
    (store (recordLinks rb) valid) with
  | none => simp
  | some l => simp [List.reverse_eq_iff]

/-- **It aborts when there is none.** -/
theorem bestChain_eq_panic (h0 : 0 ≤ t.nHeight) (hlt : t.nHeight < 2 ^ 31) :
    bestChain rb tgt valid = .panic ↔ ¬ ∃ v, Ancestry rb valid v := by
  constructor
  · rintro hpanic ⟨v, hv⟩
    rw [(bestChain_eq_ok ht h0 hlt).mpr hv] at hpanic
    cases hpanic
  · intro hnone
    rw [bestChain_of_nonneg ht h0 hlt]
    cases hwalk : walk (recordLinks rb) (t.nHeight + 1).toNat (rb.blockHash t.blockHeader)
      (store (recordLinks rb) valid) with
    | none => rfl
    | some l => exact absurd ⟨_, (walk_eq_some_iff_ancestry ht h0).mp hwalk⟩ hnone

end Tip

/-- What `load_block_index` returns is a chain, of a length fixed by the greatest height. -/
theorem loadBlockIndex_eq_ok {v : List BlockIndexRecord}
    (h : loadBlockIndex rb tgt (some entries) = .ok v) :
    ∃ valid, validRecords rb tgt entries = .ok valid ∧
      Chain (recordLinks rb) (store (recordLinks rb) valid) v ∧
      ((valid = [] ∧ v = []) ∨
        ∃ t, tip (recordLinks rb) valid = some t ∧ (v.length : Int) = t.nHeight + 1) := by
  rw [loadBlockIndex_eq] at h
  obtain ⟨valid, hvalid, h⟩ := Outcome.bind_eq_ok.mp h
  refine ⟨valid, hvalid, ?_⟩
  cases ht : tip (recordLinks rb) valid with
  | none =>
    rw [bestChain, ht] at h
    obtain rfl := Outcome.ok.inj h
    exact ⟨Chain.nil, Or.inl ⟨tip_eq_none.mp ht, rfl⟩⟩
  | some t =>
    obtain ⟨k, bytes, -, -, hdecode, -⟩ := (mem_validRecords hvalid t).mp (tip_eq_some ht).1
    obtain ⟨hge, hlt⟩ := nHeight_bounds hdecode
    by_cases h0 : 0 ≤ t.nHeight
    · obtain ⟨hchain, t', ht', hlen, -⟩ := (bestChain_eq_ok ht h0 hlt).mp h
      exact ⟨hchain, Or.inr ⟨t', ht.symm.trans ht', hlen⟩⟩
    · obtain ⟨h1, rfl⟩ := bestChain_of_neg ht (by omega) hge h
      exact ⟨Chain.nil, Or.inr ⟨t, rfl, by rw [h1]; rfl⟩⟩

end

/-- **`load_block_index` returns a well-formed best chain**: one valid record of the database for
each height up to the greatest height of a valid record, each naming the hash of the one before it,
and no hash twice. -/
theorem loadBlockIndex_wellFormed (rb : RustBitcoin) (tgt : Target) (entries : Entries)
    (v : List BlockIndexRecord) (h : loadBlockIndex rb tgt (some entries) = .ok v) :
    ((∀ r, ¬ ValidRecord rb tgt entries r) → v = []) ∧
      ((∃ r, ValidRecord rb tgt entries r) → ∃ r, ValidRecord rb tgt entries r ∧
        (∀ r', ValidRecord rb tgt entries r' → r'.nHeight ≤ r.nHeight) ∧
        (v.length : Int) = r.nHeight + 1) ∧
      (∀ (i : Nat) r, v[i]? = some r → r.nHeight = i ∧ ValidRecord rb tgt entries r) ∧
      (∀ (i : Nat) r r', v[i]? = some r → v[i + 1]? = some r' →
        r'.blockHeader.prevBlockhash = rb.blockHash r.blockHeader) ∧
      (v.map fun r => rb.blockHash r.blockHeader).Nodup := by
  obtain ⟨valid, hvalid, hchain, hlength⟩ := loadBlockIndex_eq_ok h
  have hmem := mem_validRecords hvalid
  refine ⟨fun hnone => ?_, fun ⟨r, hr⟩ => ?_, fun i r hi => ⟨hchain.rank i r hi, ?_⟩,
    fun i r r' hi hi' => ?_, hchain.keys_nodup⟩
  · rcases hlength with ⟨-, hv⟩ | ⟨t, ht, -⟩
    · exact hv
    · exact absurd ((hmem t).mp (tip_eq_some ht).1) (hnone t)
  · rcases hlength with ⟨rfl, -⟩ | ⟨t, ht, hlen⟩
    · exact absurd ((hmem r).mpr hr) List.not_mem_nil
    · obtain ⟨htmem, hmax⟩ := tip_eq_some ht
      exact ⟨t, (hmem t).mp htmem, fun r' hr' => hmax r' ((hmem r').mpr hr'), hlen⟩
  · exact (hmem r).mp (mem_of_store (hchain.stored r (List.mem_of_getElem? hi)))
  · obtain ⟨hlt, rfl⟩ := List.getElem?_eq_some_iff.mp hi
    obtain ⟨hlt', rfl⟩ := List.getElem?_eq_some_iff.mp hi'
    exact List.isChain_iff_getElem.mp hchain.linked i hlt'

/-- The reverse index maps each hash to the height of the last record with it. -/
theorem reverseIndex_eq (rb : RustBitcoin) (records : List BlockIndexRecord) :
    reverseIndex rb records =
      fun hash => (store (recordLinks rb) records hash).map BlockIndexRecord.nHeight :=
  foldl_insert_eq (fun r : BlockIndexRecord => rb.blockHash r.blockHeader) _ records

/-- The index of the records that were loaded. -/
theorem BlockIndex.new_of_load {rb : RustBitcoin} {tgt : Target} {db : Option Entries}
    {records : List BlockIndexRecord} (h : loadBlockIndex rb tgt db = .ok records) :
    BlockIndex.new rb tgt db = .ok ⟨records, reverseIndex rb records⟩ := by
  rw [BlockIndex.new, h]
  rfl

/-- **What `BlockIndex::new` builds**: records at their heights with distinct hashes, and the map
from these hashes to the heights. -/
theorem BlockIndex.new_eq_ok {rb : RustBitcoin} {tgt : Target} {db : Option Entries}
    {index : BlockIndex} (h : BlockIndex.new rb tgt db = .ok index) :
    (∀ (i : Nat) r, index.records[i]? = some r → r.nHeight = i ∧ i < 2 ^ 31) ∧
      (index.records.map fun r => rb.blockHash r.blockHeader).Nodup ∧
      ∀ hash, index.hashToHeight hash =
        (store (recordLinks rb) index.records hash).map BlockIndexRecord.nHeight := by
  obtain ⟨records, hload, h⟩ := Outcome.bind_eq_ok.mp h
  obtain rfl := Outcome.ok.inj h
  cases db with
  | none => cases hload
  | some entries =>
    obtain ⟨valid, hvalid, hchain, -⟩ := loadBlockIndex_eq_ok hload
    refine ⟨fun i r hi => ?_, hchain.keys_nodup,
      fun hash => congrFun (reverseIndex_eq rb records) hash⟩
    have hrank : r.nHeight = i := hchain.rank i r hi
    have hmem := mem_of_store (hchain.stored r (List.mem_of_getElem? hi))
    obtain ⟨k, bytes, -, -, hdecode, -⟩ := (mem_validRecords hvalid r).mp hmem
    have hlt := (nHeight_bounds hdecode).2
    exact ⟨hrank, by omega⟩

/-- The height of a record of the index, as `usize`, is its place. -/
theorem BlockIndex.exists_height_iff {rb : RustBitcoin} {tgt : Target} {db : Option Entries}
    {index : BlockIndex} (h : BlockIndex.new rb tgt db = .ok index) {P : BlockIndexRecord → Prop}
    {height : Nat} :
    (∃ n, (∃ r ∈ index.records, P r ∧ r.nHeight = n) ∧ asUsize n = height) ↔
      ∃ r, index.records[height]? = some r ∧ P r := by
  obtain ⟨hheight, -, -⟩ := BlockIndex.new_eq_ok h
  constructor
  · rintro ⟨n, ⟨r, hmem, hr, hn⟩, hsize⟩
    obtain ⟨i, hi⟩ := List.getElem?_of_mem hmem
    obtain ⟨hrank, hlt⟩ := hheight i r hi
    rw [← hn, hrank, asUsize_natCast (by omega)] at hsize
    exact ⟨r, hsize ▸ hi, hr⟩
  · rintro ⟨r, hi, hr⟩
    obtain ⟨hrank, hlt⟩ := hheight height r hi
    exact ⟨height, ⟨r, List.mem_of_getElem? hi, hr, hrank⟩, asUsize_natCast (by omega)⟩

/-- A header of the main network: the genesis block. -/
def genesisHeader : BlockHeader where
  version := 1
  prevBlockhash := 0
  merkleRoot := 0x4a5e1e4baab89f3a32518a88c31bc87f618f76673e2cc77ab2127b7afdeda33b
  time := 1231006505
  bits := 0x1d00ffff
  nonce := 2083236893

/-- The header after it. -/
def block1Header : BlockHeader where
  version := 1
  prevBlockhash := 0x000000000019d6689c085ae165831e934ff763ae46a2a6c172b3f1b60a8ce26f
  merkleRoot := 0x0e3e2357e806b6cdb1f70b54c3a3a17b6714ee1f0e68bebb44a74b1efd512098
  time := 1231469665
  bits := 0x1d00ffff
  nonce := 2573394689

/-- A header on top of them. -/
def block2Header : BlockHeader where
  version := 1
  prevBlockhash := 0x00000000839a8e6886ab5951d76f411475428afc90947ee320161bbf18eb6048
  merkleRoot := 0x75eec0844edc24efc42634cb0c42b4716881127ca97a090c5c5df4a53797e742
  time := 0
  bits := 0
  nonce := 0

/-- Their hashes. -/
def mainnetHashes : List (BlockHeader × BlockHash) :=
  [(genesisHeader, block1Header.prevBlockhash), (block1Header, block2Header.prevBlockhash),
    (block2Header, 0x3e1a9df96a76cdbe6ecbf3296eb34f5dfca1b50ddb000a3f81d8e02b3a044a51)]

def mainnetBitcoin : RustBitcoin := (RustBitcoin.ofTables [] mainnetHashes).withLegacyCodec

/-- Their entries, under keys that start with `b`: version 1, the height, status, one transaction,
and with `BLOCK_HAVE_DATA` file 0 and a position. -/
def mainnetEntries : Entries :=
  [([0x62, 1], [1, 1, 13, 1, 0, 0x81, 0x2d] ++ encodeHeader block1Header),
    ([0x62, 2], [1, 2, 13, 1, 0, 0x83, 0x0c] ++ encodeHeader block2Header),
    ([0x62, 0], [1, 0, 13, 1, 0, 8] ++ encodeHeader genesisHeader)]

/-- Their records. -/
def mainnetRecords : List BlockIndexRecord :=
  [⟨1, 0, 13, 1, 0, 8, 0xffffffff, genesisHeader⟩, ⟨1, 1, 13, 1, 0, 301, 0xffffffff, block1Header⟩,
    ⟨1, 2, 13, 1, 0, 524, 0xffffffff, block2Header⟩]

/-- The record at height 1 is valid and at its place, though its entry comes first. -/
theorem loadBlockIndex_mainnet :
    ValidRecord mainnetBitcoin ⟨true, true⟩ mainnetEntries
        ⟨1, 1, 13, 1, 0, 301, 0xffffffff, block1Header⟩ ∧
      (mainnetRecords.map fun r => mainnetBitcoin.blockHash r.blockHeader).Nodup := by
  obtain ⟨-, -, hrecords, -, hnodup⟩ := loadBlockIndex_wellFormed mainnetBitcoin ⟨true, true⟩
    mainnetEntries mainnetRecords (by decide +kernel)
  exact ⟨(hrecords 1 _ rfl).2, hnodup⟩

/-! ## When loading aborts -/

section

variable {rb : RustBitcoin} {tgt : Target}

theorem validRecords_ne_panic : ∀ {entries : Entries},
    (∀ e ∈ entries, isBlockIndexRecord e.1 = true → BlockIndexRecord.decode rb tgt e.2 ≠ .panic) →
      validRecords rb tgt entries ≠ .panic
  | [], _ => by simp [validRecords]
  | (k, v) :: entries, h => by
    have ih := validRecords_ne_panic fun e he => h e (List.mem_cons_of_mem _ he)
    unfold validRecords
    split
    · rename_i hk
      intro hpanic
      rcases Outcome.bind_eq_panic.mp hpanic with hdecode | ⟨record, -, hpanic⟩
      · exact h (k, v) List.mem_cons_self hk hdecode
      · rcases Outcome.bind_eq_panic.mp hpanic with hpanic | ⟨records, -, hpanic⟩
        · exact ih hpanic
        · cases hpanic
    · exact ih

end

/-- **Loading aborts exactly when the chain below the greatest height is not complete**, on a
database whose numbers are read without an arithmetic overflow and whose greatest height is not
negative. -/
theorem loadBlockIndex_panics_iff (rb : RustBitcoin) (tgt : Target) (entries : Entries)
    (hdecode : ∀ e ∈ entries, isBlockIndexRecord e.1 = true →
      BlockIndexRecord.decode rb tgt e.2 ≠ .panic)
    (hheight : (∃ r, ValidRecord rb tgt entries r) →
      ∃ r, ValidRecord rb tgt entries r ∧ 0 ≤ r.nHeight) :
    loadBlockIndex rb tgt (some entries) = .panic ↔
      ∃ valid, validRecords rb tgt entries = .ok valid ∧ valid ≠ [] ∧
        ¬ ∃ v, Ancestry rb valid v := by
  rw [loadBlockIndex_eq, Outcome.bind_eq_panic, or_iff_right (validRecords_ne_panic hdecode)]
  refine exists_congr fun valid => and_congr_right fun hvalid => ?_
  have hmem := mem_validRecords hvalid
  cases ht : tip (recordLinks rb) valid with
  | none =>
    rw [bestChain, ht]
    exact ⟨fun h => absurd h (by simp), fun h => absurd (tip_eq_none.mp ht) h.1⟩
  | some t =>
    obtain ⟨htmem, hmax⟩ := tip_eq_some ht
    obtain ⟨k, bytes, -, -, hdecodes, -⟩ := (hmem t).mp htmem
    obtain ⟨r, hr, h0⟩ := hheight ⟨t, (hmem t).mp htmem⟩
    have hge : 0 ≤ t.nHeight := Int.le_trans h0 (hmax r ((hmem r).mpr hr))
    rw [bestChain_eq_panic ht hge (nHeight_bounds hdecodes).2]
    exact ⟨fun h => ⟨List.ne_nil_of_mem htmem, h⟩, fun h => h.2⟩

/-- The database of a pruned node: block 1 has no data (status 5), block 2 has. -/
def prunedEntries : Entries :=
  [([0x62, 0], [1, 0, 13, 1, 0, 8] ++ encodeHeader genesisHeader),
    ([0x62, 1], [1, 1, 5, 1] ++ encodeHeader block1Header),
    ([0x62, 2], [1, 2, 13, 1, 0, 8] ++ encodeHeader block2Header)]

/-- On a pruned database the walk does not find block 1. -/
theorem incompleteChain_pruned :
    ∃ valid, validRecords mainnetBitcoin ⟨true, true⟩ prunedEntries = .ok valid ∧
      valid ≠ [] ∧ ¬ ∃ v, Ancestry mainnetBitcoin valid v :=
  (loadBlockIndex_panics_iff mainnetBitcoin ⟨true, true⟩ prunedEntries
    (by decide +kernel) fun _ => ⟨⟨1, 0, 13, 1, 0, 8, 0xffffffff, genesisHeader⟩,
      ⟨[0x62, 0], _, List.mem_cons_self, rfl, by decide +kernel, rfl⟩, by decide⟩).mp
    (by decide +kernel)

/-- **A pruned database aborts the load.** -/
theorem loadBlockIndex_panics_on_pruned :
    loadBlockIndex mainnetBitcoin ⟨true, true⟩ (some prunedEntries) = .panic := by
  decide +kernel

end BitcoinExplorer
