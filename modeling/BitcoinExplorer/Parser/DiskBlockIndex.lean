import BitcoinExplorer.Parser.BlockIndex

/-!
# The records Bitcoin Core stores in the block index

`CDiskBlockIndex` is what Bitcoin Core serialises under the key of a block: the fields of the record
as `VARINT`s, the file and the positions only when the status says that they are there, then the
header.

* **`decode_serialize`**: `BlockIndexRecord::decode` undoes it.
* **`decode_reencodes_iff`**: what `decode` accepts has this layout; the fields are the stored
  numbers modulo `2 ^ 32`, so the record encodes back exactly when every stored number is below
  that.
-/

namespace BitcoinExplorer

open Rust Varint BlockIndexRecord

/-- `BLOCK_HAVE_DATA` is set. -/
def haveData (nStatus : UInt32) : Bool := nStatus &&& blockHaveData > 0

/-- `BLOCK_HAVE_UNDO` is set. -/
def haveUndo (nStatus : UInt32) : Bool := nStatus &&& blockHaveUndo > 0

/-- One of them is set. -/
def haveFile (nStatus : UInt32) : Bool := nStatus &&& (blockHaveData ||| blockHaveUndo) > 0

/-- The numbers of a record, without a bound, and its header. -/
structure DiskBlockIndex where
  nVersion : Nat
  nHeight : Nat
  nStatus : Nat
  nTx : Nat
  nFile : Nat
  nDataPos : Nat
  nUndoPos : Nat
  blockHeader : BlockHeader

/-- A number that is there under a condition. -/
def writeVarIntIf (present : Bool) (n : Nat) : List UInt8 := if present then writeVarInt n else []

namespace DiskBlockIndex

variable (enc : BlockHeader → List UInt8) (d : DiskBlockIndex)

/-- The status as the 32-bit field it is in Bitcoin Core. -/
def status : UInt32 := asU32 d.nStatus

/-- `CDiskBlockIndex::SERIALIZE_METHODS`. -/
def serialize : List UInt8 :=
  writeVarInt d.nVersion ++ (writeVarInt d.nHeight ++ (writeVarInt d.nStatus ++
    (writeVarInt d.nTx ++ (writeVarIntIf (haveFile d.status) d.nFile ++
      (writeVarIntIf (haveData d.status) d.nDataPos ++
        (writeVarIntIf (haveUndo d.status) d.nUndoPos ++ enc d.blockHeader))))))

/-- The record that holds these numbers in 32-bit fields. -/
def toRecord : BlockIndexRecord where
  nVersion := asI32 d.nVersion
  nHeight := asI32 d.nHeight
  nStatus := d.status
  nTx := asU32 d.nTx
  nFile := if haveFile d.status then asI32 d.nFile else -1
  nDataPos := if haveData d.status then asU32 d.nDataPos else 0xffffffff
  nUndoPos := if haveUndo d.status then asU32 d.nUndoPos else 0xffffffff
  blockHeader := d.blockHeader

/-- Every number that is stored is below a bound. -/
structure Below (bound : Nat) : Prop where
  nVersion : d.nVersion < bound
  nHeight : d.nHeight < bound
  nStatus : d.nStatus < bound
  nTx : d.nTx < bound
  nFile : haveFile d.status = true → d.nFile < bound
  nDataPos : haveData d.status = true → d.nDataPos < bound
  nUndoPos : haveUndo d.status = true → d.nUndoPos < bound

end DiskBlockIndex

/-! ## Decoding what was serialised -/

section

variable {rb : RustBitcoin} {tgt : Target} {enc : BlockHeader → List UInt8}

/-- The optional field is read back. -/
theorem readVarintIf_writeVarIntIf (tgt : Target) {α : Type} {present : Bool} {n : Nat}
    (hn : present = true → n < 2 ^ 64) (cast : Nat → α) (absent : α) (rest : List UInt8) :
    readVarintIf tgt present cast absent (writeVarIntIf present n ++ rest) =
      .ok (if present then cast n else absent, rest) := by
  cases present with
  | false => rfl
  | true =>
    simp only [readVarintIf, writeVarIntIf, if_true]
    rw [readVarint_writeVarInt tgt (hn rfl), Outcome.ok_bind]

/-- **`decode` undoes the serialisation** of numbers that fit `usize`. -/
theorem decode_serialize (tgt : Target) {d : DiskBlockIndex} (hd : d.Below (2 ^ 64))
    (hheader : ∀ rest, rb.headerDecoder.run (enc d.blockHeader ++ rest) =
      some (d.blockHeader, rest))
    (rest : List UInt8) :
    BlockIndexRecord.decode rb tgt (d.serialize enc ++ rest) = .ok d.toRecord := by
  unfold BlockIndexRecord.decode DiskBlockIndex.serialize
  simp only [List.append_assoc]
  rw [readVarint_writeVarInt tgt hd.nVersion, Outcome.ok_bind]
  dsimp only
  rw [readVarint_writeVarInt tgt hd.nHeight, Outcome.ok_bind]
  dsimp only
  rw [readVarint_writeVarInt tgt hd.nStatus, Outcome.ok_bind]
  dsimp only
  rw [readVarint_writeVarInt tgt hd.nTx, Outcome.ok_bind]
  have hfile := readVarintIf_writeVarIntIf tgt hd.nFile asI32 (-1)
  have hdata := readVarintIf_writeVarIntIf tgt hd.nDataPos asU32 0xffffffff
  have hundo := readVarintIf_writeVarIntIf tgt hd.nUndoPos asU32 0xffffffff
  unfold haveFile DiskBlockIndex.status at hfile
  unfold haveData DiskBlockIndex.status at hdata
  unfold haveUndo DiskBlockIndex.status at hundo
  dsimp only [haveFile, haveData, haveUndo, DiskBlockIndex.status]
  rw [hfile, Outcome.ok_bind]
  dsimp only
  rw [hdata, Outcome.ok_bind]
  dsimp only
  rw [hundo, Outcome.ok_bind]
  dsimp only
  rw [hheader, Outcome.ofOption, Outcome.ok_bind]
  rfl

end

/-- **`decode` undoes `CDiskBlockIndex`**: the record has exactly the fields that were serialised,
and the ones that are absent under the status are -1 and `u32::MAX`. -/
theorem decode_diskBlockIndex (rb : RustBitcoin) (tgt : Target) (enc : BlockHeader → List UInt8)
    (nVersion nHeight nFile : Nat) (hversion : nVersion < 2 ^ 31) (hheight : nHeight < 2 ^ 31)
    (hfile : nFile < 2 ^ 31) (nStatus nTx nDataPos nUndoPos : UInt32) (blockHeader : BlockHeader)
    (hheader : ∀ rest, rb.headerDecoder.run (enc blockHeader ++ rest) = some (blockHeader, rest))
    (rest : List UInt8) :
    BlockIndexRecord.decode rb tgt
        (DiskBlockIndex.serialize enc ⟨nVersion, nHeight, nStatus.toNat, nTx.toNat, nFile,
          nDataPos.toNat, nUndoPos.toNat, blockHeader⟩ ++ rest) =
      .ok
        { nVersion, nHeight, nStatus, nTx
          nFile := if haveFile nStatus then nFile else -1
          nDataPos := if haveData nStatus then nDataPos else 0xffffffff
          nUndoPos := if haveUndo nStatus then nUndoPos else 0xffffffff
          blockHeader } := by
  have hint : 2 ^ 31 < 2 ^ 64 := by decide
  have huint : 2 ^ 32 < 2 ^ 64 := by decide
  rw [decode_serialize tgt ⟨hversion.trans hint, hheight.trans hint, nStatus.toNat_lt.trans huint,
    nTx.toNat_lt.trans huint, fun _ => hfile.trans hint, fun _ => nDataPos.toNat_lt.trans huint,
    fun _ => nUndoPos.toNat_lt.trans huint⟩ hheader rest]
  simp only [DiskBlockIndex.toRecord, DiskBlockIndex.status, asU32, UInt32.ofNat_toNat,
    asI32_of_lt hversion, asI32_of_lt hheight, asI32_of_lt hfile]

/-- The record of a block with data and no undo data, with bytes after it. -/
theorem decode_diskBlockIndex_block1 :
    BlockIndexRecord.decode mainnetBitcoin ⟨true, true⟩
        (DiskBlockIndex.serialize encodeHeader ⟨1, 1, 13, 1, 0, 301, 0, block1Header⟩ ++ [7]) =
      .ok ⟨1, 1, 13, 1, 0, 301, 0xffffffff, block1Header⟩ := by
  have hversion : IsI32 block1Header.version := by decide
  have hheader : ∀ rest, mainnetBitcoin.headerDecoder.run (encodeHeader block1Header ++ rest) =
      some (block1Header, rest) := inverts_header hversion
  exact decode_diskBlockIndex mainnetBitcoin ⟨true, true⟩ encodeHeader 1 1 0 (by decide) (by decide)
    (by decide) 13 1 301 0 block1Header hheader [7]

/-! ## What `decode` accepts -/

section

variable {rb : RustBitcoin} {tgt : Target} {enc : BlockHeader → List UInt8}

theorem asI32_mod (n : Nat) : asI32 (n % 2 ^ 64) = asI32 n := by
  have hmod : ((n % 2 ^ 64 : Nat) : Int) % ((2 ^ 32 : Nat) : Int) =
      (n : Int) % ((2 ^ 32 : Nat) : Int) := by
    exact_mod_cast Nat.mod_mod_of_dvd n (by decide : 2 ^ 32 ∣ 2 ^ 64)
  unfold asI32
  rw [← Int.emod_bmod, hmod, Int.emod_bmod]

theorem asU32_mod {n w : Nat} (hw : 2 ^ 32 ∣ w) : asU32 (n % w) = asU32 n := by
  unfold asU32
  rw [← UInt32.toNat_inj, UInt32.toNat_ofNat', UInt32.toNat_ofNat', Nat.mod_mod_of_dvd n hw]

/-- An optional field that was read: the bytes encode some number, and the field is its cast. -/
theorem readVarintIf_eq_ok {α : Type} {present : Bool} {cast : Nat → α} {absent a : α}
    {bytes rest : List UInt8} (h : readVarintIf tgt present cast absent bytes = .ok (a, rest)) :
    ∃ n, bytes = writeVarIntIf present n ++ rest ∧
      a = if present then cast (n % 2 ^ 64) else absent := by
  cases present with
  | false =>
    obtain ⟨rfl, rfl⟩ := Prod.mk.inj (Outcome.ok.inj h)
    exact ⟨0, rfl, rfl⟩
  | true =>
    simp only [readVarintIf, if_true] at h
    obtain ⟨⟨m, reader⟩, hread, h⟩ := Outcome.bind_eq_ok.mp h
    obtain ⟨rfl, rfl⟩ := Prod.mk.inj (Outcome.ok.inj h)
    obtain ⟨n, hbytes, rfl⟩ := readVarint_eq_ok hread
    exact ⟨n, hbytes, rfl⟩

/-- **What `decode` accepts has the layout of `CDiskBlockIndex`**, with numbers of any size that the
fields hold modulo `2 ^ 32`. -/
theorem decode_eq_ok (hheader : rb.headerDecoder.Consumes enc) {values : List UInt8}
    {r : BlockIndexRecord} (h : BlockIndexRecord.decode rb tgt values = .ok r) :
    ∃ d rest, values = DiskBlockIndex.serialize enc d ++ rest ∧ r = d.toRecord := by
  obtain ⟨⟨_, _⟩, h1, h⟩ := Outcome.bind_eq_ok.mp h
  obtain ⟨⟨_, _⟩, h2, h⟩ := Outcome.bind_eq_ok.mp h
  obtain ⟨⟨_, _⟩, h3, h⟩ := Outcome.bind_eq_ok.mp h
  obtain ⟨⟨_, _⟩, h4, h⟩ := Outcome.bind_eq_ok.mp h
  obtain ⟨⟨_, _⟩, h5, h⟩ := Outcome.bind_eq_ok.mp h
  obtain ⟨⟨_, _⟩, h6, h⟩ := Outcome.bind_eq_ok.mp h
  obtain ⟨⟨_, _⟩, h7, h⟩ := Outcome.bind_eq_ok.mp h
  obtain ⟨⟨blockHeader, rest⟩, h8, h⟩ := Outcome.bind_eq_ok.mp h
  obtain rfl := Outcome.ok.inj h
  obtain ⟨nVersion, rfl, rfl⟩ := readVarint_eq_ok h1
  obtain ⟨nHeight, rfl, rfl⟩ := readVarint_eq_ok h2
  obtain ⟨nStatus, rfl, rfl⟩ := readVarint_eq_ok h3
  obtain ⟨nTx, rfl, rfl⟩ := readVarint_eq_ok h4
  rw [asU32_mod (by decide)] at h5 h6 h7
  obtain ⟨nFile, rfl, rfl⟩ := readVarintIf_eq_ok h5
  obtain ⟨nDataPos, rfl, rfl⟩ := readVarintIf_eq_ok h6
  obtain ⟨nUndoPos, rfl, rfl⟩ := readVarintIf_eq_ok h7
  obtain rfl := hheader _ _ _ (Outcome.ofOption_eq_ok.mp h8)
  refine ⟨⟨nVersion, nHeight, nStatus, nTx, nFile, nDataPos, nUndoPos, blockHeader⟩, rest, ?_, ?_⟩
  · simp only [DiskBlockIndex.serialize, List.append_assoc]
    rfl
  · simp only [DiskBlockIndex.toRecord, asI32_mod, asU32_mod (show 2 ^ 32 ∣ 2 ^ 64 by decide)]
    rfl

end

/-! ## Encoding a record again -/

namespace DiskBlockIndex

variable {enc : BlockHeader → List UInt8}

/-- `as u32` on an `i32`. -/
def i32AsU32 (i : Int) : Nat := (i % 2 ^ 32).toNat

/-- The numbers of a record: the fields read as non-negative 32-bit numbers. -/
def ofRecord (r : BlockIndexRecord) : DiskBlockIndex where
  nVersion := i32AsU32 r.nVersion
  nHeight := i32AsU32 r.nHeight
  nStatus := r.nStatus.toNat
  nTx := r.nTx.toNat
  nFile := i32AsU32 r.nFile
  nDataPos := r.nDataPos.toNat
  nUndoPos := r.nUndoPos.toNat
  blockHeader := r.blockHeader

theorem i32AsU32_asI32 (n : Nat) : i32AsU32 (asI32 n) = n % 2 ^ 32 := by
  have hmod : asI32 n % 2 ^ 32 = (n : Int) % 2 ^ 32 := Int.bmod_emod
  rw [i32AsU32, hmod]
  omega

theorem toNat_asU32 (n : Nat) : (asU32 n).toNat = n % 2 ^ 32 := UInt32.toNat_ofNat'

/-- The record of a serialisation holds the stored numbers modulo `2 ^ 32`. -/
structure Wraps (d d' : DiskBlockIndex) : Prop where
  status : d'.status = d.status
  nVersion : d'.nVersion = d.nVersion % 2 ^ 32
  nHeight : d'.nHeight = d.nHeight % 2 ^ 32
  nStatus : d'.nStatus = d.nStatus % 2 ^ 32
  nTx : d'.nTx = d.nTx % 2 ^ 32
  nFile : haveFile d.status = true → d'.nFile = d.nFile % 2 ^ 32
  nDataPos : haveData d.status = true → d'.nDataPos = d.nDataPos % 2 ^ 32
  nUndoPos : haveUndo d.status = true → d'.nUndoPos = d.nUndoPos % 2 ^ 32
  blockHeader : d'.blockHeader = d.blockHeader

theorem wraps_of_fields {d : DiskBlockIndex} {nVersion nHeight nFile : Int}
    {nTx nDataPos nUndoPos : UInt32} (hversion : i32AsU32 nVersion = d.nVersion % 2 ^ 32)
    (hheight : i32AsU32 nHeight = d.nHeight % 2 ^ 32) (htx : nTx.toNat = d.nTx % 2 ^ 32)
    (hfile : haveFile d.status = true → i32AsU32 nFile = d.nFile % 2 ^ 32)
    (hdata : haveData d.status = true → nDataPos.toNat = d.nDataPos % 2 ^ 32)
    (hundo : haveUndo d.status = true → nUndoPos.toNat = d.nUndoPos % 2 ^ 32) :
    Wraps d (ofRecord ⟨nVersion, nHeight, d.status, nTx, nFile, nDataPos, nUndoPos,
      d.blockHeader⟩) where
  status := UInt32.ofNat_toNat
  nVersion := hversion
  nHeight := hheight
  nStatus := toNat_asU32 d.nStatus
  nTx := htx
  nFile := hfile
  nDataPos := hdata
  nUndoPos := hundo
  blockHeader := rfl

theorem wraps_ofRecord (d : DiskBlockIndex) : Wraps d (ofRecord d.toRecord) := by
  rw [toRecord]
  refine wraps_of_fields (i32AsU32_asI32 _) (i32AsU32_asI32 _) (toNat_asU32 _) (fun h => ?_)
    (fun h => ?_) fun h => ?_
  · rw [if_pos h, i32AsU32_asI32]
  · rw [if_pos h, toNat_asU32]
  · rw [if_pos h, toNat_asU32]

theorem writeVarIntIf_append_inj {present : Bool} {m n : Nat} {s t : List UInt8}
    (h : writeVarIntIf present m ++ s = writeVarIntIf present n ++ t) :
    (present = true → m = n) ∧ s = t := by
  cases present with
  | false => exact ⟨fun h => absurd h Bool.false_ne_true, h⟩
  | true =>
    obtain ⟨hn, hrest⟩ := writeVarInt_append_inj h
    exact ⟨fun _ => hn, hrest⟩

/-- What a serialisation starts with determines the stored numbers. -/
theorem Wraps.below {d d' : DiskBlockIndex} (hd : Wraps d d') {rest rest' : List UInt8}
    (h : d.serialize enc ++ rest = d'.serialize enc ++ rest') : d.Below (2 ^ 32) := by
  have hlt : ∀ {m n}, m = n → n = m % 2 ^ 32 → m < 2 ^ 32 := fun hmn hmod =>
    hmn.trans hmod ▸ Nat.mod_lt _ (by decide)
  unfold serialize at h
  rw [hd.status] at h
  simp only [List.append_assoc] at h
  obtain ⟨hversion, h⟩ := writeVarInt_append_inj h
  obtain ⟨hheight, h⟩ := writeVarInt_append_inj h
  obtain ⟨hstatus, h⟩ := writeVarInt_append_inj h
  obtain ⟨htx, h⟩ := writeVarInt_append_inj h
  obtain ⟨hfile, h⟩ := writeVarIntIf_append_inj h
  obtain ⟨hdata, h⟩ := writeVarIntIf_append_inj h
  obtain ⟨hundo, -⟩ := writeVarIntIf_append_inj h
  exact
    { nVersion := hlt hversion hd.nVersion
      nHeight := hlt hheight hd.nHeight
      nStatus := hlt hstatus hd.nStatus
      nTx := hlt htx hd.nTx
      nFile := fun present => hlt (hfile present) (hd.nFile present)
      nDataPos := fun present => hlt (hdata present) (hd.nDataPos present)
      nUndoPos := fun present => hlt (hundo present) (hd.nUndoPos present) }

/-- Stored numbers below `2 ^ 32` are not changed. -/
theorem Wraps.serialize_eq {d d' : DiskBlockIndex} (hd : Wraps d d') (hlt : d.Below (2 ^ 32)) :
    d'.serialize enc = d.serialize enc := by
  have hif : ∀ {present : Bool} {m n : Nat}, (present = true → m = n % 2 ^ 32) →
      (present = true → n < 2 ^ 32) → writeVarIntIf present m = writeVarIntIf present n := by
    intro present m n hmod hlt
    cases present with
    | false => rfl
    | true => rw [hmod rfl, Nat.mod_eq_of_lt (hlt rfl)]
  unfold serialize
  rw [hd.status, hd.nVersion, hd.nHeight, hd.nStatus, hd.nTx, hd.blockHeader,
    Nat.mod_eq_of_lt hlt.nVersion, Nat.mod_eq_of_lt hlt.nHeight, Nat.mod_eq_of_lt hlt.nStatus,
    Nat.mod_eq_of_lt hlt.nTx, hif hd.nFile hlt.nFile, hif hd.nDataPos hlt.nDataPos,
    hif hd.nUndoPos hlt.nUndoPos]

end DiskBlockIndex

/-- **What `decode` keeps of a number.** The bytes it accepts have the layout of `CDiskBlockIndex`;
each field is the stored number modulo `2 ^ 32`, so that the record encodes back to a front part of
the bytes if and only if every stored number is below `2 ^ 32`. -/
theorem decode_reencodes_iff (rb : RustBitcoin) (tgt : Target) (enc : BlockHeader → List UInt8)
    (hheader : rb.headerDecoder.Consumes enc) (values : List UInt8) (r : BlockIndexRecord)
    (h : BlockIndexRecord.decode rb tgt values = .ok r) :
    ∃ d rest, values = DiskBlockIndex.serialize enc d ++ rest ∧ r = d.toRecord ∧
      ((∃ rest', values = (DiskBlockIndex.ofRecord r).serialize enc ++ rest') ↔
        d.Below (2 ^ 32)) := by
  obtain ⟨d, rest, rfl, rfl⟩ := decode_eq_ok hheader h
  have hwraps := DiskBlockIndex.wraps_ofRecord d
  exact ⟨d, rest, rfl, rfl, fun ⟨_, h⟩ => hwraps.below h, fun hlt =>
    ⟨rest, by rw [hwraps.serialize_eq hlt]⟩⟩

/-- An entry whose height is stored as `2 ^ 32`. -/
def wrappedHeight : List UInt8 :=
  [1, 0x8e, 0xfe, 0xfe, 0xff, 0x00, 13, 1, 0, 8] ++ encodeHeader genesisHeader

/-- The record that is decoded from it. -/
def wrappedRecord : BlockIndexRecord := ⟨1, 0, 13, 1, 0, 8, 0xffffffff, genesisHeader⟩

/-- The entry of the genesis block encodes back. -/
theorem decode_reencodes_genesis :
    ∃ d rest, [1, 0, 13, 1, 0, 8] ++ encodeHeader genesisHeader =
        DiskBlockIndex.serialize encodeHeader d ++ rest ∧ wrappedRecord = d.toRecord ∧
      ((∃ rest', [1, 0, 13, 1, 0, 8] ++ encodeHeader genesisHeader =
        (DiskBlockIndex.ofRecord wrappedRecord).serialize encodeHeader ++ rest') ↔
        d.Below (2 ^ 32)) :=
  decode_reencodes_iff mainnetBitcoin ⟨true, true⟩ encodeHeader consumes_header
    ([1, 0, 13, 1, 0, 8] ++ encodeHeader genesisHeader) wrappedRecord (by decide +kernel)

/-- **A height of `2 ^ 32` is accepted as height 0**: the record does not encode back. -/
theorem decode_wraps_height :
    BlockIndexRecord.decode mainnetBitcoin ⟨true, true⟩ wrappedHeight = .ok wrappedRecord ∧
      ¬ ∃ rest, wrappedHeight =
        (DiskBlockIndex.ofRecord wrappedRecord).serialize encodeHeader ++ rest := by
  refine ⟨by decide +kernel, ?_⟩
  rintro ⟨rest, h⟩
  -- the encoding goes on with a one-byte height
  have hsmall : ∀ n < 128, writeVarInt n = [UInt8.ofNat (n % 128)] := fun n hn => by
    rw [writeVarInt, highBytes_of_lt hn, List.nil_append]
  unfold DiskBlockIndex.serialize at h
  rw [hsmall _ (by decide), hsmall _ (by decide)] at h
  have hheight : wrappedHeight[1]? = some 0 := by
    rw [h]
    rfl
  exact absurd hheight (by decide +kernel)

end BitcoinExplorer
