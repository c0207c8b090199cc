import BitcoinExplorer.CoreData
import BitcoinExplorer.Lib.Items

/-!
# `src/api.rs`: the raw and the decoded view of a block

`get_raw_block` returns as many bytes as the length prefix in the file says; `get_block` decodes a
block from the front of the same bytes and ignores the rest. So the raw view is the encoding of the
decoded one, followed by whatever else the prefix covers: `rawBlock_extends_block`.
-/

namespace BitcoinExplorer

open Rust ByteStream Decoder

variable {rb : RustBitcoin} {tgt : Target} {disk : Disk} {db : BitcoinDB}

/-- The decoded view is decoded from the front of the raw one. -/
theorem getBlock_eq_ok_iff_raw {height : Nat} {block : Block} :
    db.getBlock rb tgt disk id height = .ok block ↔
      ∃ raw rest, db.getRawBlock tgt disk height = .ok raw ∧
        rb.blockDecoder.run raw = some (block, rest) := by
  simp only [BitcoinDB.getBlock, BitcoinDB.getRawBlock, BlkFile.readBlock, Outcome.bind_eq_ok,
    Outcome.ofOption_eq_ok, id_eq, Outcome.ok.injEq, exists_eq_right, Prod.exists]
  constructor
  · rintro ⟨r, hr, raw, hraw, block', rest, hrun, rfl⟩
    exact ⟨raw, rest, ⟨r, hr, hraw⟩, hrun⟩
  · rintro ⟨raw, rest, ⟨r, hr, hraw⟩, hrun⟩
    exact ⟨r, hr, raw, hraw, block, rest, hrun, rfl⟩

theorem getRawBlock_of_record {height : Nat} {r : BlockIndexRecord}
    (hr : db.blockIndex.records[height]? = some r) :
    db.getRawBlock tgt disk height = db.blkFile.readRawBlock tgt disk r.nFile r.nDataPos := by
  rw [BitcoinDB.getRawBlock, hr]
  rfl

/-- **The raw view extends the encoding of the decoded view**, by nothing exactly when it is as
long. What follows the encoding is ignored: wherever the raw view extends it, the decoded view is
the same block. -/
theorem rawBlock_extends_block (rb : RustBitcoin) (tgt : Target) (encode : Block → List UInt8)
    (hencode : rb.blockDecoder.Consumes encode) (disk : Disk) (db : BitcoinDB) (height : Nat)
    (block : Block) (h : db.getBlock rb tgt disk id height = .ok block) :
    (∃ rest, db.getRawBlock tgt disk height = .ok (encode block ++ rest)) ∧
      (∀ raw, db.getRawBlock tgt disk height = .ok raw →
        (raw = encode block ↔ raw.length = (encode block).length)) ∧
      ∀ (disk' : Disk) (db' : BitcoinDB) (height' : Nat) (rest' : List UInt8),
        db'.getRawBlock tgt disk' height' = .ok (encode block ++ rest') →
          db'.getBlock rb tgt disk' id height' = .ok block := by
  obtain ⟨raw, rest, hraw, hrun⟩ := getBlock_eq_ok_iff_raw.mp h
  have hsplit : raw = encode block ++ rest := hencode raw block rest hrun
  refine ⟨⟨rest, hsplit ▸ hraw⟩, fun raw' hraw' => ?_, fun disk' db' height' rest' hraw' => ?_⟩
  · obtain rfl := Outcome.ok.inj (hraw.symm.trans hraw')
    constructor
    · exact fun heq => congrArg List.length heq
    · intro hlen
      rw [hsplit, List.length_append, Nat.add_eq_left] at hlen
      rw [hsplit, List.eq_nil_of_length_eq_zero hlen, List.append_nil]
  · obtain ⟨word, hword, hraw₂⟩ := run_eq_some_iff.mp hrun
    obtain rfl := List.append_cancel_right (hraw₂.symm.trans hsplit)
    exact getBlock_eq_ok_iff_raw.mpr ⟨_, rest', hraw', hword rest'⟩

/-- The file of the mainnet genesis block, under a length that covers one byte more. -/
def coveredByteDisk : Disk where
  content path :=
    if path = "blk00000.dat" then
      some (maskedFile (some storedMask) (blkFileBytes mainnetMagic
        [legacyEncoding.block ⟨genesisHeader, [genesisTx]⟩ ++ [0xff]] []))
    else none
  short _ _ := 0

theorem coveredByte_views (tgt : Target) :
    storedDb.getRawBlock tgt coveredByteDisk 0 =
        .ok (legacyEncoding.block ⟨genesisHeader, [genesisTx]⟩ ++ [0xff]) ∧
      storedDb.getBlock storedBitcoin tgt coveredByteDisk id 0 =
        .ok ⟨genesisHeader, [genesisTx]⟩ := by
  have hholds : storedDb.blkFile.Holds coveredByteDisk 0 8
      (legacyEncoding.block ⟨genesisHeader, [genesisTx]⟩ ++ [0xff]) :=
    ⟨"blk00000.dat", _, _, _, 0, rfl, rfl, by decide +kernel, rfl, by decide +kernel⟩
  have hraw : storedDb.getRawBlock tgt coveredByteDisk 0 =
      .ok (legacyEncoding.block ⟨genesisHeader, [genesisTx]⟩ ++ [0xff]) :=
    (getRawBlock_of_record rfl).trans (hholds.readRawBlock tgt)
  have hrun := storedChain_decodes.block ⟨genesisHeader, [genesisTx]⟩ List.mem_cons_self [0xff]
  exact ⟨hraw, getBlock_eq_ok_iff_raw.mpr ⟨_, _, hraw, hrun⟩⟩

theorem rawBlock_extends_genesis :
    ∃ rest, storedDb.getRawBlock ⟨true, true⟩ coveredByteDisk 0 =
      .ok (legacyEncoding.block ⟨genesisHeader, [genesisTx]⟩ ++ rest) :=
  (rawBlock_extends_block storedBitcoin ⟨true, true⟩ legacyEncoding.block consumes_block
    coveredByteDisk storedDb 0 _ (coveredByte_views ⟨true, true⟩).2).1

/-- The covered byte is in the raw view, and the block is accepted all the same. -/
theorem rawBlock_not_encoding :
    ∃ raw block, storedDb.getBlock storedBitcoin ⟨true, true⟩ coveredByteDisk id 0 = .ok block ∧
      storedDb.getRawBlock ⟨true, true⟩ coveredByteDisk 0 = .ok raw ∧
      raw ≠ legacyEncoding.block block :=
  ⟨_, _, (coveredByte_views ⟨true, true⟩).2, (coveredByte_views ⟨true, true⟩).1, by
    intro h
    have hlen := congrArg List.length h
    rw [List.length_append, List.length_singleton] at hlen
    omega⟩

end BitcoinExplorer
