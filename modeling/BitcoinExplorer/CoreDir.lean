import BitcoinExplorer.BlockCount
import BitcoinExplorer.CoreData
import BitcoinExplorer.DataDir
import BitcoinExplorer.Parser.BestChain

/-!
# The data directory of a node

What Bitcoin Core writes below its data directory, and that `BitcoinDB::new` opens it: an index with
an entry for every block the node has heard of, in any order and among entries of other kinds, block
files with or without a mask, and the txindex.

* `NodeIndex`: the block index of a node whose active chain is a given one.
* **`NodeIndex.load`**: `load_block_index` returns the records of the active chain.
* `CoreDir`: a data directory that holds a chain.
* **`CoreDir.opens`**: `BitcoinDB::new` succeeds on it, and what it opens stores the chain.
-/

namespace BitcoinExplorer

open Rust FileSystem Backtrace

/-! ## The block index -/

/-- The entry of a block of the active chain. -/
structure ActiveEntry (d : DiskBlockIndex) (h : Nat) (blk : Block) : Prop where
  blockHeader : d.blockHeader = blk.header
  nHeight : d.nHeight = h
  nTx : d.nTx = blk.txdata.length
  nFile : d.nFile < 2 ^ 31
  valid : d.toRecord.isValid = true
  haveData : haveData d.status = true

/-- The block index of a node: `known` are the entries of all blocks it has heard of, `active` those
of its active chain, which all other valid ones are below. -/
structure NodeIndex (rb : RustBitcoin) (encodeHeader : BlockHeader → List UInt8) (entries : Entries)
    (known active : List DiskBlockIndex) (chain : List Block) : Prop where
  serialized : (entries.filter fun e => isBlockIndexRecord e.1).map Prod.snd =
    known.map (DiskBlockIndex.serialize encodeHeader)
  inRange : ∀ d ∈ known, d.Below (2 ^ 32) ∧ d.nHeight < 2 ^ 31
  headers : ∀ d ∈ known, ∀ rest, rb.headerDecoder.run (encodeHeader d.blockHeader ++ rest) =
    some (d.blockHeader, rest)
  hashes : (known.map fun d => rb.blockHash d.blockHeader).Nodup
  active_known : active ⊆ known
  active_length : active.length = chain.length
  entry : ∀ (h : Nat) d blk, active[h]? = some d → chain[h]? = some blk → ActiveEntry d h blk
  linked : chain.IsChain fun blk blk' => blk'.header.prevBlockhash = rb.blockHash blk.header
  tallest : ∀ d ∈ known, d ∉ active → d.toRecord.isValid = true → d.nHeight + 1 < chain.length

section

variable {rb : RustBitcoin} {tgt : Target} {entries : Entries}

variable {encodeHeader : BlockHeader → List UInt8} {known active : List DiskBlockIndex}
  {chain : List Block}

namespace NodeIndex

variable (hi : NodeIndex rb encodeHeader entries known active chain)
include hi

/-- The entries decode to the records of the known blocks. -/
theorem decodesTo (tgt : Target) : DecodesTo rb tgt
    (entries.filter fun e => isBlockIndexRecord e.1) (known.map DiskBlockIndex.toRecord) := by
  have hdecode : ∀ d ∈ known, BlockIndexRecord.decode rb tgt (d.serialize encodeHeader) =
      .ok d.toRecord := by
    intro d hd
    have hlt : 2 ^ 32 < 2 ^ 64 := by decide
    obtain ⟨hbelow, -⟩ := hi.inRange d hd
    have h64 : d.Below (2 ^ 64) :=
      ⟨hbelow.nVersion.trans hlt, hbelow.nHeight.trans hlt, hbelow.nStatus.trans hlt,
        hbelow.nTx.trans hlt, fun h => (hbelow.nFile h).trans hlt,
        fun h => (hbelow.nDataPos h).trans hlt, fun h => (hbelow.nUndoPos h).trans hlt⟩
    have hserialized := decode_serialize tgt h64 (hi.headers d hd) []
    rwa [List.append_nil] at hserialized
  have hkeys : ∀ e ∈ entries.filter fun e => isBlockIndexRecord e.1,
      isBlockIndexRecord e.1 = true := fun e he => (List.mem_filter.mp he).2
  have hvalues : List.Forall₂ (fun e d => e.2 = d.serialize encodeHeader)
      (entries.filter fun e => isBlockIndexRecord e.1) known := by
    have hserialized := hi.serialized
    rwa [← List.forall₂_eq_eq_eq, List.forall₂_map_left_iff,
      List.forall₂_map_right_iff] at hserialized
  have hboth := (List.forall₂_and_left _ _).mpr
    ⟨hdecode, ((List.forall₂_and_left _ _).mpr ⟨hkeys, hvalues⟩).flip⟩
  refine List.forall₂_map_right_iff.mpr (hboth.flip.imp ?_)
  rintro e d ⟨hd, hk, he⟩
  exact ⟨hk, he ▸ hd⟩

/-- The height of a record of the index is the number that was stored. -/
theorem nHeight_toRecord {d : DiskBlockIndex} (hd : d ∈ known) :
    d.toRecord.nHeight = d.nHeight := by
  obtain ⟨-, hlt⟩ := hi.inRange d hd
  simp only [DiskBlockIndex.toRecord, asI32_of_lt hlt]

/-- Each height of the chain has its entry. -/
theorem exists_entry {h : Nat} {blk : Block} (hblk : chain[h]? = some blk) :
    ∃ d ∈ known, active[h]? = some d ∧ ActiveEntry d h blk := by
  have hlt : h < active.length := hi.active_length ▸ (List.getElem?_eq_some_iff.mp hblk).1
  have hd := List.getElem?_eq_getElem hlt
  exact ⟨_, hi.active_known (List.getElem_mem hlt), hd, hi.entry h _ blk hd hblk⟩

/-- Each active entry is that of a height of the chain. -/
theorem exists_block {h : Nat} {d : DiskBlockIndex} (hd : active[h]? = some d) :
    ∃ blk, chain[h]? = some blk ∧ d ∈ known ∧ ActiveEntry d h blk := by
  have hlt : h < chain.length := hi.active_length ▸ (List.getElem?_eq_some_iff.mp hd).1
  have hblk := List.getElem?_eq_getElem hlt
  exact ⟨_, hblk, hi.active_known (List.mem_of_getElem? hd), hi.entry h d _ hd hblk⟩

/-- The valid records have distinct hashes. -/
theorem keys_nodup : (((known.map DiskBlockIndex.toRecord).filter
    BlockIndexRecord.isValid).map (recordLinks rb).key).Nodup := by
  refine List.Nodup.sublist (List.filter_sublist.map _) ?_
  rw [List.map_map]
  exact hi.hashes

theorem mem_valid {h : Nat} {d : DiskBlockIndex} (hd : active[h]? = some d) :
    d.toRecord ∈ (known.map DiskBlockIndex.toRecord).filter BlockIndexRecord.isValid := by
  obtain ⟨blk, -, hknown, he⟩ := hi.exists_block hd
  exact List.mem_filter.mpr ⟨List.mem_map_of_mem hknown, he.valid⟩

/-- The records of the active chain are linked from height 0 up. -/
theorem linkedChain : Chain (recordLinks rb)
    (store (recordLinks rb) ((known.map DiskBlockIndex.toRecord).filter BlockIndexRecord.isValid))
    (active.map DiskBlockIndex.toRecord) where
  rank := by
    intro h r hr
    rw [List.getElem?_map, Option.map_eq_some_iff] at hr
    obtain ⟨d, hd, rfl⟩ := hr
    obtain ⟨blk, -, hknown, he⟩ := hi.exists_block hd
    rw [← he.nHeight, ← hi.nHeight_toRecord hknown]
  linked := by
    rw [List.isChain_map, List.isChain_iff_getElem]
    intro h hlt
    obtain ⟨blk, hblk, -, he⟩ := hi.exists_block (List.getElem?_eq_getElem (Nat.lt_of_succ_lt hlt))
    obtain ⟨blk', hblk', -, he'⟩ := hi.exists_block (List.getElem?_eq_getElem hlt)
    obtain ⟨hlt₁, rfl⟩ := List.getElem?_eq_some_iff.mp hblk
    obtain ⟨hlt₂, rfl⟩ := List.getElem?_eq_some_iff.mp hblk'
    have hlink := List.isChain_iff_getElem.mp hi.linked h hlt₂
    rw [← he.blockHeader, ← he'.blockHeader] at hlink
    exact hlink
  stored := by
    intro r hr
    obtain ⟨d, hd, rfl⟩ := List.mem_map.mp hr
    obtain ⟨h, hh⟩ := List.getElem?_of_mem hd
    exact (store_eq_some hi.keys_nodup).mpr ⟨hi.mem_valid hh, rfl⟩

/-- **`load_block_index` returns the records of the active chain.** -/
theorem load (tgt : Target) (hne : chain ≠ []) :
    loadBlockIndex rb tgt (some entries) = .ok (active.map DiskBlockIndex.toRecord) := by
  have hpos : 0 < chain.length := List.length_pos_of_ne_nil hne
  obtain ⟨t, hknown, ht, he⟩ := hi.exists_entry
    (List.getElem?_eq_getElem (Nat.sub_lt hpos Nat.one_pos : chain.length - 1 < chain.length))
  have hheight : t.toRecord.nHeight = (chain.length : Int) - 1 := by
    rw [hi.nHeight_toRecord hknown, he.nHeight]
    omega
  -- the last active entry is above every other valid one
  have htip : tip (recordLinks rb)
      ((known.map DiskBlockIndex.toRecord).filter BlockIndexRecord.isValid) = some t.toRecord := by
    refine tip_of_unique (hi.mem_valid ht) fun r hr hrt => ?_
    obtain ⟨hr, hvalid⟩ := List.mem_filter.mp hr
    obtain ⟨d, hd, rfl⟩ := List.mem_map.mp hr
    dsimp only [recordLinks]
    rw [hheight, hi.nHeight_toRecord hd]
    by_cases hactive : d ∈ active
    · obtain ⟨h, hh⟩ := List.getElem?_of_mem hactive
      obtain ⟨_, -, -, he'⟩ := hi.exists_block hh
      have hlt := (List.getElem?_eq_some_iff.mp hh).1
      rw [hi.active_length] at hlt
      have hne : h ≠ chain.length - 1 := by
        rintro rfl
        exact hrt (congrArg _ (Option.some.inj (hh.symm.trans ht)))
      rw [he'.nHeight]
      omega
    · have := hi.tallest d hd hactive hvalid
      omega
  obtain ⟨-, hlt⟩ := hi.inRange t hknown
  rw [loadBlockIndex_eq, ← validRecords_filter, (hi.decodesTo tgt).validRecords, Outcome.ok_bind]
  refine (bestChain_eq_ok htip (by omega) ?_).mpr ⟨hi.linkedChain, t.toRecord, htip, ?_, ?_⟩
  · rw [hi.nHeight_toRecord hknown]
    omega
  · rw [List.length_map, hi.active_length, hheight]
    omega
  · intro r hr
    rw [List.getLast?_eq_getElem?, List.length_map, hi.active_length, List.getElem?_map, ht] at hr
    rw [← Option.some.inj hr]

/-- The record of an active entry has the numbers that were stored. -/
theorem toRecord_filePos {d : DiskBlockIndex} {h : Nat} {blk : Block} (hd : d ∈ known)
    (he : ActiveEntry d h blk) :
    d.toRecord.nFile = d.nFile ∧ d.toRecord.nDataPos.toNat = d.nDataPos := by
  obtain ⟨hbelow, -⟩ := hi.inRange d hd
  constructor
  · simp only [DiskBlockIndex.toRecord, haveFile_of_haveData he.haveData, if_true,
      asI32_of_lt he.nFile]
  · simp only [DiskBlockIndex.toRecord, he.haveData, if_true, DiskBlockIndex.toNat_asU32,
      Nat.mod_eq_of_lt (hbelow.nDataPos he.haveData)]

end NodeIndex

end

/-! ## The directories -/

/-- A regular file of the entry's number has the block at the entry's position. -/
def InFile (enc : ConsensusEncoding) (fs : Files) (loc : Location) (mask : Option XorMask)
    (d : DiskBlockIndex) (blk : Block) : Prop :=
  ∃ name magic blocks trailing i, blkNumber name = some d.nFile ∧
    fs.node (name :: loc) =
      some (.file (maskedFile mask (blkFileBytes magic blocks trailing))) ∧
    (∀ block ∈ blocks, block.length < 2 ^ 32) ∧ blocks[i]? = some (enc.block blk) ∧
    d.nDataPos = startPos magic blocks i

/-- The data directory of a node with this active chain: a directory `blocks` of regular files with
the blocks and the mask, if there is one, and the block index. -/
structure CoreDir (rb : RustBitcoin) (enc : ConsensusEncoding) (host : Host) (dataDir : PathBuf)
    (chain : List Block) where
  loc : Location
  mask : Option XorMask
  entries : Entries
  known : List DiskBlockIndex
  active : List DiskBlockIndex
  exists_dataDir : host.exists dataDir = true
  locate_blocks : host.fs.locate host.cwd (Path.join dataDir "blocks") = some loc
  isDir : host.fs.isDir loc = true
  files : OnlyFiles host.fs loc
  xorDat : host.fs.node ("xor.dat" :: loc) = mask.map fun m => .file m.toList
  blockDb : host.blockDb (BitcoinDB.indexPath dataDir) = some entries
  index : NodeIndex rb enc.header entries known active chain
  inFile : ∀ (h : Nat) d blk, active[h]? = some d → chain[h]? = some blk →
    InFile enc host.fs loc mask d blk

namespace CoreDir

variable {rb : RustBitcoin} {enc : ConsensusEncoding} {host : Host} {dataDir : PathBuf}
  {chain : List Block}

/-- The node keeps a txindex, with an entry for each transaction but the genesis one. -/
structure HasTxIndex (dir : CoreDir rb enc host dataDir chain) (kv : KeyValue) : Prop where
  opened : host.openTxDb (BitcoinDB.txIndexPath dataDir) = some kv
  entry : ∀ (h : Nat) d blk pre tx post, dir.active[h]? = some d → chain[h]? = some blk →
    blk.txdata = pre ++ tx :: post → rb.computeTxid tx ≠ genesisTxid →
    kv (TxDB.txKey (rb.computeTxid tx)) =
      .ok (some (diskTxPos d.nFile d.nDataPos (enc.beforeTx blk pre).length))

variable (dir : CoreDir rb enc host dataDir chain)

/-- The mask is read back. -/
theorem readXorMask_eq : readXorMask host (Path.join dataDir "blocks") = .ok dir.mask := by
  have hname : Path.IsName "xor.dat" := by decide
  have hnode := dir.xorDat
  cases hmask : dir.mask with
  | none =>
    rw [hmask, Option.map_none] at hnode
    refine readXorMask_of_absent ?_
    rw [Host.exists, locate_join_of_none dir.locate_blocks dir.isDir hname hnode]
    rfl
  | some mask =>
    rw [hmask, Option.map_some] at hnode
    have hcontent := content_join dir.locate_blocks dir.isDir hname hnode (by simp [Node.fileType])
    rw [← List.append_nil mask.toList] at hcontent
    exact readXorMask_of_content hcontent

/-- The block files are found under their numbers. -/
theorem new_blkFile (hne : chain ≠ []) :
    ∃ bf, BlkFile.new host (Path.join dataDir "blocks") = .ok bf ∧ bf.xorMask = dir.mask ∧
      ∀ name ∈ host.fs.names dir.loc, ∀ n : Nat, blkNumber name = some n → ∃ path,
        bf.files n = some path ∧ host.fs.content host.cwd path =
          host.fs.content host.cwd (Path.join (Path.join dataDir "blocks") name) := by
  have hscan := (dir.files.leadsBack dir.locate_blocks dir.isDir).scanExact dir.locate_blocks
    dir.isDir host.order
  cases hfiles : scanBlocksDir host.fs host.order host.cwd (Path.join dataDir "blocks") with
  | panic =>
    rw [hfiles] at hscan
    exact hscan.elim
  | err e =>
    -- there is a block, so there is a block file
    rw [hfiles] at hscan
    obtain ⟨d, -, hd, -⟩ := dir.index.exists_entry
      (List.getElem?_eq_getElem (List.length_pos_of_ne_nil hne))
    obtain ⟨name, magic, blocks, trailing, i, hnumber, hnode, -⟩ :=
      dir.inFile 0 d _ hd (List.getElem?_eq_getElem (List.length_pos_of_ne_nil hne))
    have hin : name ∈ host.fs.names dir.loc := (host.fs.mem_names).mpr (by rw [hnode]; rfl)
    rw [hscan.2 name hin] at hnumber
    cases hnumber
  | ok files =>
    rw [hfiles] at hscan
    refine ⟨⟨fun nFile => files[nFile]?, dir.mask⟩, ?_, rfl, fun name hin n hn => ?_⟩
    · rw [BlkFile.new, dir.readXorMask_eq, Outcome.ok_bind, hfiles, Outcome.ok_bind]
    · obtain ⟨path, hpath⟩ := Option.isSome_iff_exists.mp ((hscan.1 n).mpr ⟨name, hin, n, hn, rfl⟩)
      exact ⟨path, hpath, hscan.2 name hin n path hn hpath⟩

/-- **`BitcoinDB::new` opens the data directory of a node.** The records are those of the active
chain, the block of each height is held where its record says, and the txindex is open if it was
asked for and is there. -/
theorem opens (tgt : Target) (hne : chain ≠ []) (txIndex : Bool) :
    ∃ db, BitcoinDB.new rb tgt host dataDir txIndex = .ok db ∧
      BlockIndex.new rb tgt (some dir.entries) = .ok db.blockIndex ∧
      db.blockIndex.records = dir.active.map DiskBlockIndex.toRecord ∧
      (∀ (h : Nat) d blk, dir.active[h]? = some d → chain[h]? = some blk →
        db.blkFile.Holds host.disk d.toRecord.nFile d.toRecord.nDataPos (enc.block blk)) ∧
      db.txDb = if txIndex then
        TxDB.openAt (host.openTxDb (BitcoinDB.txIndexPath dataDir)) db.blockIndex else none := by
  obtain ⟨bf, hbf, hmask, hpaths⟩ := dir.new_blkFile hne
  obtain ⟨index, hindex, hrecords⟩ : ∃ index, BlockIndex.new rb tgt (some dir.entries) =
      .ok index ∧ index.records = dir.active.map DiskBlockIndex.toRecord :=
    ⟨_, BlockIndex.new_of_load (dir.index.load tgt hne), rfl⟩
  refine ⟨⟨bf, index, if txIndex then
    TxDB.openAt (host.openTxDb (BitcoinDB.txIndexPath dataDir)) index else none⟩,
    BitcoinDB.new_eq_ok.mpr ⟨dir.exists_dataDir, ?_, hbf, rfl⟩, hindex, hrecords, ?_, rfl⟩
  · rw [dir.blockDb]
    exact hindex
  · intro h d blk hd hblk
    obtain ⟨_, hblk', hknown, he⟩ := dir.index.exists_block hd
    obtain rfl := Option.some.inj (hblk'.symm.trans hblk)
    obtain ⟨name, magic, blocks, trailing, i, hnumber, hnode, hlen, hi, hpos⟩ :=
      dir.inFile h d _ hd hblk
    have hin : name ∈ host.fs.names dir.loc := (host.fs.mem_names).mpr (by rw [hnode]; rfl)
    have hcontent := content_join dir.locate_blocks dir.isDir (host.fs.isName_of_mem_names hin)
      hnode (by simp [Node.fileType])
    obtain ⟨path, hpath, hopen⟩ := hpaths name hin d.nFile hnumber
    obtain ⟨hfile, hdataPos⟩ := dir.index.toRecord_filePos hknown he
    refine ⟨path, magic, blocks, trailing, i, ?_, ?_, hlen, hi, hdataPos.trans hpos⟩
    · rw [hfile]
      exact hpath
    · rw [hmask]
      exact hopen.trans hcontent

/-- What is opened with the txindex stores the chain. -/
theorem stored {kv : KeyValue} (htx : dir.HasTxIndex kv) (tgt : Target) (hne : chain ≠ []) :
    ∃ db, BitcoinDB.new rb tgt host dataDir true = .ok db ∧
      BlockIndex.new rb tgt (some dir.entries) = .ok db.blockIndex ∧
      db.blockIndex.records = dir.active.map DiskBlockIndex.toRecord ∧
      Stored rb enc host.disk kv db chain := by
  obtain ⟨db, hnew, hindex, hrecords, hholds, htxDb⟩ := dir.opens tgt hne true
  refine ⟨db, hnew, hindex, hrecords, ?_, fun h blk hblk => ?_, ?_⟩
  · rw [htxDb, if_pos rfl, htx.opened]
  · obtain ⟨d, hknown, hd, he⟩ := dir.index.exists_entry hblk
    obtain ⟨hfile, -⟩ := dir.index.toRecord_filePos hknown he
    have hlt := he.nFile
    refine ⟨d.toRecord, ?_, ?_, ?_, hholds h d blk hd hblk⟩
    · rw [hrecords, List.getElem?_map, hd, Option.map_some]
    · omega
    · omega
  · intro h blk r pre tx post hblk hr hsplit hid
    obtain ⟨d, hknown, hd, he⟩ := dir.index.exists_entry hblk
    obtain ⟨hfile, hpos⟩ := dir.index.toRecord_filePos hknown he
    rw [hrecords, List.getElem?_map, hd, Option.map_some] at hr
    obtain rfl := Option.some.inj hr
    rw [htx.entry h d blk pre tx post hd hblk hsplit hid, hfile, hpos, Int.toNat_natCast]

end CoreDir

/-! ## A node with three blocks -/

/-- The machine of a node that stores the three blocks: one masked block file that is read byte by
byte, and a block index with the number of that file among its entries. -/
def storedHost : Host where
  fs :=
    { nodes := [(["data"], .dir), (["blocks", "data"], .dir), (["index", "blocks", "data"], .dir),
        (["blk00000.dat", "blocks", "data"], .file (maskedFile (some storedMask)
          (blkFileBytes mainnetMagic (storedChain.map legacyEncoding.block) [0, 0, 0]))),
        (["xor.dat", "blocks", "data"], .file storedMask.toList), (["indexes", "data"], .dir),
        (["txindex", "indexes", "data"], .dir)]
      nodup := by decide
      named := by decide
      depth := 40 }
  order := ⟨_, fun _ => .refl _⟩
  cwd := []
  short _ _ := 0
  blockDb path :=
    if path = "/data/blocks/index" then some (([0x6c], [0]) :: mainnetEntries) else none
  txDb path := if path = "/data/indexes/txindex" then some storedTxIndex else none

/-- What the index stores of the three blocks, by height. -/
def storedActive : List DiskBlockIndex :=
  [⟨1, 0, 13, 1, 0, 8, 0, genesisHeader⟩, ⟨1, 1, 13, 1, 0, 301, 0, block1Header⟩,
    ⟨1, 2, 13, 1, 0, 524, 0, block2Header⟩]

theorem storedChain_index : NodeIndex storedBitcoin encodeHeader (([0x6c], [0]) :: mainnetEntries)
    [⟨1, 1, 13, 1, 0, 301, 0, block1Header⟩, ⟨1, 2, 13, 1, 0, 524, 0, block2Header⟩,
      ⟨1, 0, 13, 1, 0, 8, 0, genesisHeader⟩] storedActive storedChain where
  serialized := by decide +kernel
  inRange := by
    intro d hd
    simp only [List.mem_cons, List.not_mem_nil, or_false] at hd
    rcases hd with rfl | rfl | rfl <;>
      exact ⟨⟨by decide, by decide, by decide, by decide, by decide, by decide, by decide⟩,
        by decide⟩
  headers := by
    intro d hd
    simp only [List.mem_cons, List.not_mem_nil, or_false] at hd
    rcases hd with rfl | rfl | rfl <;> exact inverts_header (by decide)
  hashes := by decide +kernel
  active_known := by
    intro d hd
    simp only [storedActive, List.mem_cons, List.not_mem_nil, or_false] at hd ⊢
    tauto
  active_length := rfl
  entry := by
    intro h d blk hd hblk
    match h with
    | 0 =>
      cases hd
      cases hblk
      exact ⟨rfl, rfl, rfl, by decide, by decide, by decide⟩
    | 1 =>
      cases hd
      cases hblk
      exact ⟨rfl, rfl, rfl, by decide, by decide, by decide⟩
    | 2 =>
      cases hd
      cases hblk
      exact ⟨rfl, rfl, rfl, by decide, by decide, by decide⟩
    | n + 3 => cases hd
  linked := by decide +kernel
  tallest := by
    intro d hd hactive
    refine absurd ?_ hactive
    simp only [storedActive, List.mem_cons, List.not_mem_nil, or_false] at hd ⊢
    rcases hd with hd | hd | hd
    · exact .inr (.inl hd)
    · exact .inr (.inr hd)
    · exact .inl hd

/-- Its data directory. -/
def storedDir : CoreDir storedBitcoin legacyEncoding storedHost "/data" storedChain where
  loc := ["blocks", "data"]
  mask := some storedMask
  entries := ([0x6c], [0]) :: mainnetEntries
  known := _
  active := storedActive
  exists_dataDir := by decide +kernel
  locate_blocks := by decide +kernel
  isDir := rfl
  files := ⟨by constructor <;> decide +kernel, by decide +kernel, by decide +kernel⟩
  xorDat := rfl
  blockDb := by decide +kernel
  index := storedChain_index
  inFile := by
    intro h d blk hd hblk
    match h with
    | 0 =>
      cases hd
      cases hblk
      exact ⟨"blk00000.dat", _, _, _, 0, by decide, rfl, by decide +kernel, rfl, by decide +kernel⟩
    | 1 =>
      cases hd
      cases hblk
      exact ⟨"blk00000.dat", _, _, _, 1, by decide, rfl, by decide +kernel, rfl, by decide +kernel⟩
    | 2 =>
      cases hd
      cases hblk
      exact ⟨"blk00000.dat", _, _, _, 2, by decide, rfl, by decide +kernel, rfl, by decide +kernel⟩
    | n + 3 => cases hd

theorem storedDir_hasTxIndex : storedDir.HasTxIndex storedTxIndex where
  opened := by
    have hexists : storedHost.exists (BitcoinDB.txIndexPath "/data") = true := by decide +kernel
    have hpath : BitcoinDB.txIndexPath "/data" = "/data/indexes/txindex" := by decide +kernel
    rw [Host.openTxDb, if_pos hexists, hpath]
    simp only [storedHost, if_true]
  entry := by
    intro h d blk pre tx post hd hblk hsplit hne
    obtain _ | _ | _ | n := h
    · cases hd
      exact storedChain_stored.tx 0 blk _ pre tx post hblk rfl hsplit hne
    · cases hd
      exact storedChain_stored.tx 1 blk _ pre tx post hblk rfl hsplit hne
    · cases hd
      exact storedChain_stored.tx 2 blk _ pre tx post hblk rfl hsplit hne
    · cases hd

end BitcoinExplorer
