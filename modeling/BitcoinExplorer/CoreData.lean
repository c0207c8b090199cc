import BitcoinExplorer.Api
import BitcoinExplorer.Iter.Ledger

/-!
# A chain as Bitcoin Core stores it

What the queries of `BitcoinDB` return on the data directory of a node: the blocks of a chain in blk
files, and a txindex with an entry for each transaction but the genesis one. `ConsensusEncoding` is
how headers and transactions are written; `Stored` says where.

* **`getTransaction_finds`**: `get_transaction` finds every transaction of the chain.
-/

namespace BitcoinExplorer

open Rust ByteStream

/-- How headers and transactions are serialised. -/
structure ConsensusEncoding where
  header : BlockHeader → List UInt8
  tx : Transaction → List UInt8

namespace ConsensusEncoding

variable (enc : ConsensusEncoding)

/-- The serialised block. -/
def block : Block → List UInt8 := encodeBlock enc.header enc.tx

/-- The bytes between the header and a transaction that comes after `pre`. -/
def beforeTx (blk : Block) (pre : List Transaction) : List UInt8 :=
  compactSize blk.txdata.length ++ pre.flatMap enc.tx

theorem block_split {blk : Block} {pre post : List Transaction} {tx : Transaction}
    (h : blk.txdata = pre ++ tx :: post) :
    enc.block blk = (enc.header blk.header ++ enc.beforeTx blk pre) ++
      (enc.tx tx ++ post.flatMap enc.tx) := by
  unfold block encodeBlock beforeTx
  conv_lhs => rw [h, List.flatMap_append, List.flatMap_cons, ← h]
  simp only [List.append_assoc]

end ConsensusEncoding

/-- The codec of the crate decodes what was encoded and leaves the bytes after it; a header takes 80
bytes. -/
structure Decodes (rb : RustBitcoin) (enc : ConsensusEncoding) (chain : List Block) : Prop where
  headerLength : ∀ blk ∈ chain, (enc.header blk.header).length = headerSize
  tx : ∀ tx ∈ transactions chain, ∀ rest, rb.txDecoder.run (enc.tx tx ++ rest) = some (tx, rest)
  block : ∀ blk ∈ chain, ∀ rest, rb.blockDecoder.run (enc.block blk ++ rest) = some (blk, rest)

/-- The encoding without witnesses. -/
def legacyEncoding : ConsensusEncoding := ⟨encodeHeader, encodeTx⟩

/-- **The codec without witnesses decodes what it encodes**, on every chain it can hold. -/
theorem legacy_decodes (rb : RustBitcoin) {chain : List Block}
    (hversion : ∀ blk ∈ chain, IsI32 blk.header.version)
    (hlen : ∀ blk ∈ chain, blk.txdata.length < 2 ^ 64)
    (htx : ∀ tx ∈ transactions chain, Legacy tx) :
    Decodes rb.withLegacyCodec legacyEncoding chain where
  headerLength blk _ := length_encodeHeader blk.header
  tx tx h := inverts_tx (htx tx h)
  block blk h := inverts_block (hversion blk h) (hlen blk h) fun tx hmem =>
    htx tx (mem_transactions.mpr ⟨blk, h, hmem⟩)

/-- A database opened on the data of a node that stores the chain: record `h` points at block `h`,
and the txindex `kv` has the place of every transaction but the genesis one. -/
structure Stored (rb : RustBitcoin) (enc : ConsensusEncoding) (disk : Disk) (kv : KeyValue)
    (db : BitcoinDB) (chain : List Block) : Prop where
  txDb : db.txDb = TxDB.openAt (some kv) db.blockIndex
  block : ∀ (h : Nat) blk, chain[h]? = some blk → ∃ r, db.blockIndex.records[h]? = some r ∧
    0 ≤ r.nFile ∧ r.nFile < 2 ^ 31 ∧ db.blkFile.Holds disk r.nFile r.nDataPos (enc.block blk)
  tx : ∀ (h : Nat) blk r pre tx post, chain[h]? = some blk → db.blockIndex.records[h]? = some r →
    blk.txdata = pre ++ tx :: post → rb.computeTxid tx ≠ genesisTxid →
    kv (TxDB.txKey (rb.computeTxid tx)) =
      .ok (some (diskTxPos r.nFile.toNat r.nDataPos.toNat (enc.beforeTx blk pre).length))

namespace Stored

variable {rb : RustBitcoin} {enc : ConsensusEncoding} {disk : Disk} {kv : KeyValue}
  {db : BitcoinDB} {chain : List Block}

/-- The opened txindex. -/
theorem txDb_eq (hs : Stored rb enc disk kv db chain) :
    ∃ txDb, db.txDb = some txDb ∧ txDb.db = kv ∧ txDb.genesisTxid = genesisTxid :=
  ⟨_, hs.txDb, rfl, rfl⟩

/-- `get_block` returns the block of each height. -/
theorem getBlock (hs : Stored rb enc disk kv db chain) (hcodec : Decodes rb enc chain)
    (tgt : Target) {T : Type} (into : Block → T) {h : Nat} {blk : Block}
    (hblk : chain[h]? = some blk) :
    db.getBlock rb tgt disk into h = .ok (into blk) := by
  obtain ⟨r, hr, -, -, hholds⟩ := hs.block h blk hblk
  have hrun := hcodec.block blk (List.mem_of_getElem? hblk) []
  rw [List.append_nil] at hrun
  rw [BitcoinDB.getBlock, hr, Outcome.ofOption, Outcome.ok_bind, hholds.readBlock hrun tgt,
    Outcome.ok_bind]

/-- The txindex leads to each transaction but the genesis one. -/
theorem findTx (hs : Stored rb enc disk kv db chain) (hcodec : Decodes rb enc chain) (tgt : Target)
    {txDb : TxDB} (htxDb : txDb.db = kv) {tx : Transaction} (htx : tx ∈ transactions chain)
    (hne : rb.computeTxid tx ≠ genesisTxid) :
    ∃ txPos, txDb.getTxPosition tgt (rb.computeTxid tx) = .ok txPos ∧
      db.blkFile.readTransaction rb disk txPos.nFile txPos.nDataPos txPos.nTxOffset = .ok tx := by
  obtain ⟨blk, hblk, hmem⟩ := mem_transactions.mp htx
  obtain ⟨h, hh⟩ := List.getElem?_of_mem hblk
  obtain ⟨pre, post, hsplit⟩ := List.append_of_mem hmem
  obtain ⟨r, hr, hfile, hfile', hholds⟩ := hs.block h blk hh
  have hkv := hs.tx h blk r pre tx post hh hr hsplit hne
  have hblock := enc.block_split hsplit
  have hlen := hholds.length_lt
  rw [hblock, List.length_append, List.length_append] at hlen
  have hoffset : (enc.beforeTx blk pre).length < 2 ^ 32 := by omega
  have hfront : (enc.header blk.header ++ enc.beforeTx blk pre).length =
      (UInt32.ofNat (enc.beforeTx blk pre).length).toNat + headerSize := by
    rw [List.length_append, hcodec.headerLength blk hblk, UInt32.toNat_ofNat_of_lt' hoffset]
    exact Nat.add_comm _ _
  refine ⟨_, TxDB.getTxPosition_diskTxPos tgt (by omega) r.nDataPos.toNat_lt hoffset
    (htxDb ▸ hkv), ?_⟩
  dsimp only
  rw [Int.toNat_of_nonneg hfile, UInt32.ofNat_toNat]
  rw [hblock] at hholds
  refine hholds.readTransaction hfront fun rest => ⟨post.flatMap enc.tx ++ rest, ?_⟩
  rw [List.append_assoc, hcodec.tx tx htx]

end Stored

/-- **`get_transaction` finds every transaction** of a chain with distinct txids, the genesis
transaction included, whatever the files, the mask and the splitting of the reads. -/
theorem getTransaction_finds (rb : RustBitcoin) (tgt : Target) (enc : ConsensusEncoding)
    (disk : Disk) (kv : KeyValue) (db : BitcoinDB) (chain : List Block)
    (hstored : Stored rb enc disk kv db chain) (hcodec : Decodes rb enc chain)
    (hdistinct : ((transactions chain).map rb.computeTxid).Nodup)
    (hgenesis : ∀ blk, chain[0]? = some blk → ∃ tx, blk.txdata = [tx] ∧
      rb.computeTxid tx = genesisTxid)
    {T : Type} (into : Transaction → T) (tx : Transaction) (htx : tx ∈ transactions chain) :
    db.getTransaction rb tgt disk into (rb.computeTxid tx) = .ok (into tx) := by
  obtain ⟨txDb, htxDb, hkv, hid⟩ := hstored.txDb_eq
  unfold BitcoinDB.getTransaction
  rw [htxDb, Outcome.ofOption, Outcome.ok_bind]
  by_cases hgen : rb.computeTxid tx = genesisTxid
  · rw [if_pos (by rw [TxDB.isGenesisTx, hid, hgen]; exact decide_eq_true rfl)]
    cases hblk : chain[0]? with
    | none =>
      rw [List.getElem?_eq_none_iff, Nat.le_zero, List.length_eq_zero_iff] at hblk
      subst hblk
      cases htx
    | some blk =>
      obtain ⟨genesis, hdata, hid⟩ := hgenesis blk hblk
      have hmem : genesis ∈ transactions chain :=
        mem_transactions.mpr ⟨blk, List.mem_of_getElem? hblk,
          by rw [hdata]; exact List.mem_singleton.mpr rfl⟩
      have hsame := List.inj_on_of_nodup_map hdistinct htx hmem (hgen.trans hid.symm)
      rw [hstored.getBlock hcodec tgt id hblk, Outcome.ok_bind, id, hdata, swapRemove,
        List.getElem?_cons_zero, Outcome.ok_bind, hsame]
  · rw [if_neg (by rw [TxDB.isGenesisTx, hid]; simpa using hgen)]
    obtain ⟨txPos, hpos, hread⟩ := hstored.findTx hcodec tgt hkv htx hgen
    rw [hpos, Outcome.ok_bind, hread, Outcome.ok_bind]

/-! ## Three blocks in one file -/

/-- The `w` bytes of a number, most significant first. -/
def hexBytes (w n : Nat) : List UInt8 := (Bytes.leBytes w n).reverse

/-- A transaction with one input and one output. -/
def oneToOne (previousOutput : OutPoint) (scriptSig scriptPubkey : List UInt8) : Transaction where
  version := 1
  lockTime := 0
  input := [⟨previousOutput, scriptSig, 0xffffffff, []⟩]
  output := [⟨5000000000, scriptPubkey⟩]
  output_lt := by simp

/-- The public key the genesis transaction pays to. -/
def genesisKey : List UInt8 :=
  hexBytes 33 0x04678afdb0fe5548271967f1a67130b7105cd6a828e03909a67962e0ea1f61deb6 ++
    hexBytes 32 0x49f6bc3f4cef38c4f35504e51ec112de5c384df7ba0b8d578a4c702b6bf11d5f

/-- The public key of the block after it. -/
def block1Key : List UInt8 :=
  hexBytes 33 0x0496b538e853519c726a2c91e61ec11600ae1390813a627c66fb8be7947be63c52 ++
    hexBytes 32 0xda7589379515d4e0a604f8141781e62294721166bf621e73a82cbf2342c858ee

/-- Push the key, then `OP_CHECKSIG`. -/
def payTo (key : List UInt8) : List UInt8 := 0x41 :: (key ++ [0xac])

/-- The genesis transaction. -/
def genesisTx : Transaction :=
  oneToOne .null
    (hexBytes 39 0x04ffff001d0104455468652054696d65732030332f4a616e2f32303039204368616e63656c6c6f ++
      hexBytes 38 0x72206f6e206272696e6b206f66207365636f6e64206261696c6f757420666f722062616e6b73)
    (payTo genesisKey)

/-- The transaction of the block after it. -/
def block1Tx : Transaction := oneToOne .null (hexBytes 7 0x04ffff001d0104) (payTo block1Key)

/-- A transaction that spends it. -/
def block2Tx : Transaction := oneToOne ⟨block1Header.merkleRoot, 0⟩ [] []

/-- The blocks; the Merkle root of a single transaction is its txid. -/
def storedChain : List Block :=
  [⟨genesisHeader, [genesisTx]⟩, ⟨block1Header, [block1Tx]⟩, ⟨block2Header, [block2Tx]⟩]

/-- What the crate computes on their scripts. -/
def storedScript : RustScript :=
  let keys := [(payTo genesisKey, genesisKey), (payTo block1Key, block1Key)]
  let hashes := [(genesisKey, (0x62e907b15cbf27d5425399ebf6f0fb50ebb88f18 : BitVec 160)),
    (block1Key, 0x119b098e2e980a229e139a9ed01a469e518e6f26)]
  { RustScript.empty with
    instructions := fun script => ((keys.lookup script).map fun key =>
      [some (.pushBytes key), some (.op 0xac)]).getD []
    isP2pk := fun script => (keys.lookup script).isSome
    hash160 := fun key => (hashes.lookup key).getD 0
    publicKeyHash := fun key => hashes.lookup key
    isP2pk_push := fun script h => by
      obtain ⟨key, hkey⟩ := Option.isSome_iff_exists.mp h
      exact ⟨key, by rw [hkey]; rfl⟩ }

def storedBitcoin : RustBitcoin :=
  { RustBitcoin.ofTables [(genesisTx, genesisTxid), (block1Tx, block1Header.merkleRoot),
      (block2Tx, block2Header.merkleRoot)] mainnetHashes with
    script := storedScript }.withLegacyCodec

/-- A mask, as in `xor.dat`. -/
def storedMask : XorMask := #v[0x35, 0x9b, 0x00, 0xe1, 0x7c, 0x42, 0xd8, 0x1f]

/-- The magic of a mainnet record. -/
def mainnetMagic : Vector UInt8 4 := #v[0xf9, 0xbe, 0xb4, 0xd9]

/-- The file, which returns one byte a read. -/
def storedDisk : Disk where
  content path :=
    if path = "blk00000.dat" then
      some (maskedFile (some storedMask) (blkFileBytes mainnetMagic
        (storedChain.map legacyEncoding.block) [0, 0, 0]))
    else none
  short _ _ := 0

/-- The txindex: each transaction is one byte behind the header of its block. -/
def storedTxIndex : KeyValue := fun key =>
  if key = TxDB.txKey block1Header.merkleRoot then .ok (some (diskTxPos 0 301 1))
  else if key = TxDB.txKey block2Header.merkleRoot then .ok (some (diskTxPos 0 524 1))
  else .ok none

def storedDb : BitcoinDB :=
  let blockIndex := ⟨mainnetRecords, reverseIndex storedBitcoin mainnetRecords⟩
  { blkFile := ⟨fun nFile => if nFile = 0 then some "blk00000.dat" else none, some storedMask⟩
    blockIndex
    txDb := TxDB.openAt (some storedTxIndex) blockIndex }

theorem legacy_oneToOne {o : OutPoint} {scriptSig scriptPubkey : List UInt8}
    (hsig : scriptSig.length < 2 ^ 64) (hpubkey : scriptPubkey.length < 2 ^ 64) :
    Legacy (oneToOne o scriptSig scriptPubkey) where
  version := (by decide : IsI32 1)
  inputs := by simp [oneToOne]
  input := by simpa [oneToOne] using hsig
  output := by simpa [oneToOne] using hpubkey

theorem storedChain_decodes : Decodes storedBitcoin legacyEncoding storedChain := by
  refine legacy_decodes _ (by decide) (by decide) fun tx htx => ?_
  have htx : tx = genesisTx ∨ tx = block1Tx ∨ tx = block2Tx := by
    simpa [storedChain, mem_transactions] using htx
  rcases htx with rfl | rfl | rfl <;> exact legacy_oneToOne (by decide) (by decide)

theorem storedChain_stored :
    Stored storedBitcoin legacyEncoding storedDisk storedTxIndex storedDb storedChain where
  txDb := rfl
  block := by
    intro h blk hblk
    have hholds : ∀ (h : Nat) blk, storedChain[h]? = some blk → ∀ pos : UInt32,
        pos.toNat = startPos mainnetMagic (storedChain.map legacyEncoding.block) h →
        storedDb.blkFile.Holds storedDisk 0 pos (legacyEncoding.block blk) :=
      fun h blk hblk pos hpos => ⟨"blk00000.dat", _, _, _, h, rfl, rfl, by decide +kernel,
        by rw [List.getElem?_map, hblk]; rfl, hpos⟩
    match h with
    | 0 => exact ⟨_, rfl, by decide, by decide, hholds 0 blk hblk 8 (by decide +kernel)⟩
    | 1 => exact ⟨_, rfl, by decide, by decide, hholds 1 blk hblk 301 (by decide +kernel)⟩
    | 2 => exact ⟨_, rfl, by decide, by decide, hholds 2 blk hblk 524 (by decide +kernel)⟩
    | n + 3 => cases hblk
  tx := by
    intro h blk r pre tx post hblk hr hsplit hne
    have hone : ∀ tx', blk.txdata = [tx'] → pre = [] ∧ tx = tx' := by
      intro tx' hdata
      rw [hdata] at hsplit
      cases pre with
      | nil => exact ⟨rfl, (List.cons.inj hsplit).1.symm⟩
      | cons a pre => simp at hsplit
    match h with
    | 0 =>
      cases hblk
      obtain ⟨rfl, rfl⟩ := hone genesisTx rfl
      exact absurd (by decide +kernel) hne
    | 1 =>
      cases hblk
      cases hr
      obtain ⟨rfl, rfl⟩ := hone block1Tx rfl
      have hid : storedBitcoin.computeTxid block1Tx = block1Header.merkleRoot := by decide +kernel
      rw [hid]
      exact if_pos rfl
    | 2 =>
      cases hblk
      cases hr
      obtain ⟨rfl, rfl⟩ := hone block2Tx rfl
      have hid : storedBitcoin.computeTxid block2Tx = block2Header.merkleRoot := by decide +kernel
      rw [hid]
      exact (if_neg (by decide +kernel)).trans (if_pos rfl)
    | n + 3 => cases hblk

theorem storedChain_genesis : ∀ blk, storedChain[0]? = some blk → ∃ tx, blk.txdata = [tx] ∧
    storedBitcoin.computeTxid tx = genesisTxid := by
  rintro blk h
  cases h
  exact ⟨genesisTx, rfl, by decide +kernel⟩

/-- The second transaction is found one byte behind the header of its block. -/
theorem getTransaction_storedChain :
    storedDb.getTransaction storedBitcoin ⟨true, true⟩ storedDisk id
      (storedBitcoin.computeTxid block1Tx) = .ok block1Tx :=
  getTransaction_finds storedBitcoin ⟨true, true⟩ legacyEncoding storedDisk storedTxIndex storedDb
    storedChain storedChain_stored storedChain_decodes (by decide +kernel) storedChain_genesis id
    block1Tx (by decide +kernel)

end BitcoinExplorer
