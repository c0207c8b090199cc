import BitcoinExplorer.Parser.Reader
import BitcoinExplorer.Parser.Xor

/-!
# `src/parser/blk_file.rs`: reading blocks and transactions from blk files

`Disk` is what the operating system holds: the bytes of each file, and how it splits the reads of an
open file. Opening a file starts at position 0.

* `blkFileBytes`: how Bitcoin Core lays blocks out in a blk file, before the mask.
* **`readRawBlock_undoes_layout`**: `read_raw_block` gives back each block of the layout, for every
  mask and every splitting of the reads.
-/

namespace BitcoinExplorer

open Rust ByteStream KeyStream

/-- `std::path::PathBuf`. -/
abbrev PathBuf := String

/-- The files on disk. -/
structure Disk where
  content : PathBuf → Option (List UInt8)
  short : PathBuf → Nat → Nat

/-- `File::open`. -/
def Disk.openFile (disk : Disk) (path : PathBuf) : Outcome Error File :=
  match disk.content path with
  | some content => .ok { content, cursor := 0, short := disk.short path, reads := 0 }
  | none => .err .io

/-- The size of a header. -/
def headerSize : Nat := 80

/-- Run a decoder on the reader; `e` is the variant of its errors. -/
def XorReader.decode {α : Type} (e : Error) (d : Decoder α) (r : XorReader) :
    Outcome Error (α × XorReader) :=
  .ofOption e (d.runOn XorReader.readExact r)

/-- `BlkFile`. -/
structure BlkFile where
  files : Int → Option PathBuf
  xorMask : Option XorMask

namespace BlkFile

/-- `read_raw_block`. -/
def readRawBlock (tgt : Target) (disk : Disk) (self : BlkFile) (nFile : Int) (offset : UInt32) :
    Outcome Error (List UInt8) := do
  let blkPath ← .ofOption (.blockFileNotFound nFile) (self.files nFile)
  let file ← disk.openFile blkPath
  let r := XorReader.new file self.xorMask
  let start ← .overflowing tgt (4 ≤ offset.toNat) (offset.toNat - 4) (offset.toNat + 2 ^ 64 - 4)
  let (result, r) := r.seek start
  let _ ← result
  let (blockSize, r) ← r.decode .bitcoinIo readU32
  let (block, _) ← r.decode .bitcoinIo (readVecU8 blockSize)
  .ok block

/-- `read_block`. -/
def readBlock (rb : RustBitcoin) (tgt : Target) (disk : Disk) (self : BlkFile) (nFile : Int)
    (offset : UInt32) : Outcome Error Block := do
  let raw ← self.readRawBlock tgt disk nFile offset
  let (block, _) ← Outcome.ofOption .encode (rb.blockDecoder.run raw)
  .ok block

/-- `read_transaction`. -/
def readTransaction (rb : RustBitcoin) (disk : Disk) (self : BlkFile) (nFile : Int)
    (nPos nTxOffset : UInt32) : Outcome Error Transaction := do
  let blkPath ← .ofOption (.blockFileNotFound nFile) (self.files nFile)
  let file ← disk.openFile blkPath
  let r := XorReader.new file self.xorMask
  let (result, r) := r.seek (nPos.toNat + nTxOffset.toNat + headerSize)
  let _ ← result
  let (tx, _) ← r.decode .encode rb.txDecoder
  .ok tx

end BlkFile

/-! ## When a read panics -/

/-- The start of the block, four bytes before its offset, is computed in a file that is there, and
is checked and negative. -/
def StartUnderflows (tgt : Target) (disk : Disk) (bf : BlkFile) (nFile : Int) (offset : UInt32) :
    Prop :=
  tgt.overflowChecks = true ∧ offset.toNat < 4 ∧
    ∃ path content, bf.files nFile = some path ∧ disk.content path = some content

namespace BlkFile

variable {disk : Disk} {bf : BlkFile} {nFile : Int}

theorem openFile_eq_ok {path : PathBuf} {file : File} :
    disk.openFile path = .ok file ↔
      ∃ content, disk.content path = some content ∧ ⟨content, 0, disk.short path, 0⟩ = file := by
  unfold Disk.openFile
  cases disk.content path <;> simp

theorem openFile_ne_panic (path : PathBuf) : disk.openFile path ≠ .panic := by
  unfold Disk.openFile
  cases disk.content path <;> simp

theorem seek_ne_panic (r : XorReader) (pos : Nat) : (r.seek pos).1 ≠ .panic := by
  unfold XorReader.seek
  cases r.inner.seek pos <;> simp

theorem decode_ne_panic {α : Type} (e : Error) (d : Decoder α) (r : XorReader) :
    r.decode e d ≠ .panic := Outcome.ofOption_ne_panic

/-- `read_raw_block` panics exactly when the subtraction does. -/
theorem readRawBlock_eq_panic {tgt : Target} {offset : UInt32} :
    bf.readRawBlock tgt disk nFile offset = .panic ↔ StartUnderflows tgt disk bf nFile offset := by
  unfold readRawBlock StartUnderflows
  simp only [Outcome.bind_eq_panic, Outcome.ofOption_ne_panic, openFile_ne_panic, seek_ne_panic,
    decode_ne_panic, Outcome.overflowing_eq_panic, Outcome.ofOption_eq_ok, openFile_eq_ok,
    reduceCtorEq, and_false, exists_false, or_false, false_or]
  constructor
  · rintro ⟨path, hfile, file, ⟨content, hcontent, -⟩, hchecks, hlt⟩
    exact ⟨hchecks, by omega, path, content, hfile, hcontent⟩
  · rintro ⟨hchecks, hlt, path, content, hfile, hcontent⟩
    exact ⟨path, hfile, _, ⟨content, hcontent, rfl⟩, hchecks, by omega⟩

/-- So does `read_block`. -/
theorem readBlock_eq_panic {rb : RustBitcoin} {tgt : Target} {offset : UInt32} :
    bf.readBlock rb tgt disk nFile offset = .panic ↔ StartUnderflows tgt disk bf nFile offset := by
  rw [readBlock, Outcome.bind_eq_panic, readRawBlock_eq_panic]
  simp only [Outcome.bind_eq_panic, Outcome.ofOption_ne_panic, reduceCtorEq, and_false,
    exists_false, or_false]

/-- `read_transaction` computes its start in 64 bits and never panics. -/
theorem readTransaction_ne_panic (rb : RustBitcoin) (nPos nTxOffset : UInt32) :
    bf.readTransaction rb disk nFile nPos nTxOffset ≠ .panic := by
  unfold readTransaction
  simp only [ne_eq, Outcome.bind_eq_panic, Outcome.ofOption_ne_panic, openFile_ne_panic,
    seek_ne_panic, decode_ne_panic, reduceCtorEq, and_false, exists_false, or_false,
    not_false_eq_true]

end BlkFile

/-! ## How Bitcoin Core lays out a blk file -/

/-- A block in a blk file: the magic bytes of the network, the length, the block. -/
def blkRecord (magic : Vector UInt8 4) (block : List UInt8) : List UInt8 :=
  magic.toList ++ (Bytes.leBytes 4 block.length ++ block)

/-- A blk file before the mask: records, then unused space. -/
def blkFileBytes (magic : Vector UInt8 4) (blocks : List (List UInt8)) (trailing : List UInt8) :
    List UInt8 :=
  blocks.flatMap (blkRecord magic) ++ trailing

/-- Where block `i` starts: after the records before it, its magic and its length. -/
def startPos (magic : Vector UInt8 4) (blocks : List (List UInt8)) (i : Nat) : Nat :=
  ((blocks.take i).flatMap (blkRecord magic)).length + 8

/-- The bytes on disk: each one XORed with the mask at its own position. -/
def maskedFile (mask : Option XorMask) (bytes : List UInt8) : List UInt8 :=
  bytes.mapIdx fun p x => x ^^^ xorKey mask p

theorem xorFrom_maskedFile (mask : Option XorMask) (bytes : List UInt8) :
    xorFrom (xorKey mask) 0 (maskedFile mask bytes) = bytes := by
  have hmask : maskedFile mask bytes = xorFrom (xorKey mask) 0 bytes := by
    rw [xorFrom_eq_mapIdx, maskedFile]
    simp only [Nat.zero_add]
  rw [hmask, xorFrom_xorFrom]

/-- From four bytes before its start, the file holds the length of a block, then the block. -/
theorem drop_startPos {magic : Vector UInt8 4} {blocks : List (List UInt8)} {i : Nat}
    {block : List UInt8} (hi : blocks[i]? = some block) (trailing : List UInt8) :
    ∃ rest, (blkFileBytes magic blocks trailing).drop (startPos magic blocks i - 4) =
      Bytes.leBytes 4 block.length ++ (block ++ rest) := by
  obtain ⟨hlt, rfl⟩ := List.getElem?_eq_some_iff.mp hi
  refine ⟨(blocks.drop (i + 1)).flatMap (blkRecord magic) ++ trailing, ?_⟩
  have hsplit : blkFileBytes magic blocks trailing =
      ((blocks.take i).flatMap (blkRecord magic) ++ magic.toList) ++
        (Bytes.leBytes 4 blocks[i].length ++
          (blocks[i] ++ ((blocks.drop (i + 1)).flatMap (blkRecord magic) ++ trailing))) := by
    unfold blkFileBytes
    conv_lhs => rw [← List.take_append_drop i blocks, List.drop_eq_getElem_cons hlt]
    rw [List.flatMap_append, List.flatMap_cons, blkRecord]
    simp only [List.append_assoc]
  rw [hsplit]
  refine List.drop_left' ?_
  rw [startPos, List.length_append, Vector.length_toList]
  omega

/-! ## Reading a file whose bytes are known -/

namespace BlkFile

variable {disk : Disk} {bf : BlkFile} {nFile : Int} {path : PathBuf} {bytes : List UInt8}

/-- Opening a file of the index and seeking delivers its unmasked bytes from there on. -/
theorem openFile_seek (hdisk : disk.content path = some (maskedFile bf.xorMask bytes)) {pos : Nat}
    (hpos : pos < 2 ^ 63) :
    ∃ file r, disk.openFile path = .ok file ∧
      (XorReader.new file bf.xorMask).seek pos = (.ok pos, r) ∧ r.Synced ∧
      r.stream = bytes.drop pos := by
  obtain ⟨r, hseek, hs, hstream⟩ := XorReader.seek_spec
    (XorReader.new ⟨maskedFile bf.xorMask bytes, 0, disk.short path, 0⟩ bf.xorMask) hpos
  refine ⟨_, r, by rw [Disk.openFile, hdisk], hseek, hs, ?_⟩
  rw [hstream]
  exact congrArg _ (xorFrom_maskedFile bf.xorMask bytes)

/-- A decoder that decodes the stream decodes the reader. -/
theorem decode_of_run {α : Type} {d : Decoder α} {r : XorReader} (hs : r.Synced) {a : α}
    {rest : List UInt8} (hrun : d.run r.stream = some (a, rest)) (e : Error) :
    ∃ r', r.decode e d = .ok (a, r') ∧ r'.Synced ∧ r'.stream = rest := by
  obtain ⟨r', hr', hs', hstream⟩ :=
    (d.runOn_of_views XorReader.views_stream ⟨hs, rfl⟩).1 a rest hrun
  exact ⟨r', by rw [XorReader.decode, hr']; rfl, hs', hstream⟩

theorem readRawBlock_of_bytes (tgt : Target) (hfile : bf.files nFile = some path)
    (hdisk : disk.content path = some (maskedFile bf.xorMask bytes)) {offset : UInt32}
    (hoffset : 4 ≤ offset.toNat) {block rest : List UInt8} (hlen : block.length < 2 ^ 32)
    (hbytes : bytes.drop (offset.toNat - 4) = Bytes.leBytes 4 block.length ++ (block ++ rest)) :
    bf.readRawBlock tgt disk nFile offset = .ok block := by
  have hlt := offset.toNat_lt
  obtain ⟨file, r, hopen, hseek, hs, hstream⟩ :=
    openFile_seek hdisk (by omega : offset.toNat - 4 < 2 ^ 63)
  rw [hbytes] at hstream
  obtain ⟨r₁, hsize, hs₁, hstream₁⟩ := decode_of_run hs (d := readU32)
    (by rw [hstream, readU32_run hlen]) .bitcoinIo
  obtain ⟨r₂, hblock, -, -⟩ := decode_of_run hs₁ (d := readVecU8 (UInt32.ofNat block.length))
    (by rw [hstream₁, readVecU8_run hlen]) .bitcoinIo
  rw [readRawBlock, hfile]
  simp only [Outcome.ofOption, Outcome.ok_bind, hopen, Outcome.overflowing_of_fits hoffset, hseek,
    hsize, hblock]

theorem readTransaction_of_bytes (rb : RustBitcoin) (hfile : bf.files nFile = some path)
    (hdisk : disk.content path = some (maskedFile bf.xorMask bytes)) {nPos nTxOffset : UInt32}
    {tx : Transaction} {rest : List UInt8}
    (hrun : rb.txDecoder.run (bytes.drop (nPos.toNat + nTxOffset.toNat + headerSize)) =
      some (tx, rest)) :
    bf.readTransaction rb disk nFile nPos nTxOffset = .ok tx := by
  have hpos := nPos.toNat_lt
  have hoff := nTxOffset.toNat_lt
  have hlt : nPos.toNat + nTxOffset.toNat + headerSize < 2 ^ 63 := by
    unfold headerSize
    omega
  obtain ⟨file, r, hopen, hseek, hs, hstream⟩ := openFile_seek hdisk hlt
  obtain ⟨r₁, htx, -, -⟩ := decode_of_run hs (d := rb.txDecoder) (by rw [hstream, hrun]) .encode
  rw [readTransaction, hfile]
  simp only [Outcome.ofOption, Outcome.ok_bind, hopen, hseek, htx]

/-- The blk files hold a block at this file and position, in Bitcoin Core's layout. -/
def Holds (bf : BlkFile) (disk : Disk) (nFile : Int) (pos : UInt32) (block : List UInt8) : Prop :=
  ∃ path magic blocks trailing i, bf.files nFile = some path ∧
    disk.content path = some (maskedFile bf.xorMask (blkFileBytes magic blocks trailing)) ∧
    (∀ block ∈ blocks, block.length < 2 ^ 32) ∧ blocks[i]? = some block ∧
    pos.toNat = startPos magic blocks i

theorem Holds.length_lt {pos : UInt32} {block : List UInt8} (h : bf.Holds disk nFile pos block) :
    block.length < 2 ^ 32 := by
  obtain ⟨path, magic, blocks, trailing, i, -, -, hlen, hi, -⟩ := h
  exact hlen block (List.mem_of_getElem? hi)

/-- A block is held behind its length. -/
theorem Holds.drop_eq {pos : UInt32} {block : List UInt8} (h : bf.Holds disk nFile pos block) :
    ∃ path bytes rest, bf.files nFile = some path ∧
      disk.content path = some (maskedFile bf.xorMask bytes) ∧ 4 ≤ pos.toNat ∧
      bytes.drop (pos.toNat - 4) = Bytes.leBytes 4 block.length ++ (block ++ rest) := by
  obtain ⟨path, magic, blocks, trailing, i, hfile, hdisk, -, hi, hpos⟩ := h
  obtain ⟨rest, hdrop⟩ := drop_startPos hi trailing
  refine ⟨path, _, rest, hfile, hdisk, ?_, by rw [hpos, hdrop]⟩
  rw [hpos, startPos]
  omega

theorem Holds.readRawBlock {pos : UInt32} {block : List UInt8} (h : bf.Holds disk nFile pos block)
    (tgt : Target) : bf.readRawBlock tgt disk nFile pos = .ok block := by
  obtain ⟨path, bytes, rest, hfile, hdisk, hpos, hbytes⟩ := h.drop_eq
  exact readRawBlock_of_bytes tgt hfile hdisk hpos h.length_lt hbytes

/-- A held block that decodes, decodes through the file. -/
theorem Holds.readBlock {rb : RustBitcoin} {pos : UInt32} {bytes rest : List UInt8} {block : Block}
    (h : bf.Holds disk nFile pos bytes) (hrun : rb.blockDecoder.run bytes = some (block, rest))
    (tgt : Target) : bf.readBlock rb tgt disk nFile pos = .ok block := by
  rw [BlkFile.readBlock, h.readRawBlock tgt, Outcome.ok_bind, hrun]
  rfl

/-- A transaction inside a held block is read at its offset behind the header. -/
theorem Holds.readTransaction {rb : RustBitcoin} {pos nTxOffset : UInt32}
    {front bytes : List UInt8} {tx : Transaction}
    (h : bf.Holds disk nFile pos (front ++ bytes))
    (hfront : front.length = nTxOffset.toNat + headerSize)
    (hrun : ∀ rest, ∃ rest', rb.txDecoder.run (bytes ++ rest) = some (tx, rest')) :
    bf.readTransaction rb disk nFile pos nTxOffset = .ok tx := by
  obtain ⟨path, all, rest, hfile, hdisk, hpos, hbytes⟩ := h.drop_eq
  obtain ⟨rest', hrun⟩ := hrun rest
  have hdrop : all.drop (pos.toNat + nTxOffset.toNat + headerSize) = bytes ++ rest := by
    have hsplit : pos.toNat + nTxOffset.toNat + headerSize =
        (pos.toNat - 4) + (4 + front.length) := by omega
    rw [hsplit, ← List.drop_drop, hbytes, ← List.append_assoc, ← List.append_assoc,
      List.append_assoc]
    refine List.drop_left' ?_
    rw [List.length_append, Bytes.length_leBytes]
  exact readTransaction_of_bytes rb hfile hdisk (hdrop ▸ hrun)

/-- **`read_raw_block` undoes the layout of a blk file**: for every mask and however the file splits
the reads, the block that starts at a position below `2 ^ 32` is read back. -/
theorem readRawBlock_undoes_layout (tgt : Target) (disk : Disk) (bf : BlkFile) (nFile : Int)
    (path : PathBuf) (hfile : bf.files nFile = some path) (magic : Vector UInt8 4)
    (blocks : List (List UInt8)) (trailing : List UInt8)
    (hdisk : disk.content path =
      some (maskedFile bf.xorMask (blkFileBytes magic blocks trailing)))
    (hlen : ∀ block ∈ blocks, block.length < 2 ^ 32) (i : Nat) (block : List UInt8)
    (hi : blocks[i]? = some block) (hpos : startPos magic blocks i < 2 ^ 32) :
    bf.readRawBlock tgt disk nFile (UInt32.ofNat (startPos magic blocks i)) = .ok block :=
  Holds.readRawBlock ⟨path, magic, blocks, trailing, i, hfile, hdisk, hlen, hi,
    UInt32.toNat_ofNat_of_lt' hpos⟩ tgt

/-- Two short blocks in a masked file that is read byte by byte. -/
theorem readRawBlock_sample :
    readRawBlock ⟨true, true⟩
      ⟨fun _ => some (maskedFile (some #v[1, 2, 3, 4, 5, 6, 7, 8])
        (blkFileBytes #v[0xf9, 0xbe, 0xb4, 0xd9] [[10, 20, 30], [40, 50]] [0, 0])), fun _ _ => 0⟩
      ⟨fun nFile => if nFile = 0 then some "blk00000.dat" else none,
        some #v[1, 2, 3, 4, 5, 6, 7, 8]⟩ 0 19 = .ok [40, 50] :=
  readRawBlock_undoes_layout ⟨true, true⟩ _ _ 0 "blk00000.dat" rfl #v[0xf9, 0xbe, 0xb4, 0xd9]
    [[10, 20, 30], [40, 50]] [0, 0] rfl (by decide) 1 [40, 50] rfl (by decide)

end BlkFile

end BitcoinExplorer
