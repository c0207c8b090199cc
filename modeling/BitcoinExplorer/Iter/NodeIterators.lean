import BitcoinExplorer.Iter.BlockIter
import BitcoinExplorer.NodeQueries

/-!
# The iterators on the data directory of a node

* **`CoreDir.blockIter_delivers`**: `block_iter(start, end)` delivers exactly the blocks
  `start..end` that the active chain has.
* **`CoreDir.connectedBlockIter_delivers`**: `connected_block_iter(end)` delivers the connected
  blocks `0..end`, with either cache.
-/

namespace BitcoinExplorer

open Rust Conc

variable {rb : RustBitcoin} {tgt : Target} {enc : ConsensusEncoding} {disk : Disk} {db : BitcoinDB}
  {chain : List Block}

/-- A height past the chain cannot be read. -/
theorem AnswersBlocks.isOk_past (ha : AnswersBlocks rb tgt enc disk db chain) {B : Type}
    (into : Block → B) {h : Nat} (hle : chain.length ≤ h) :
    (db.getBlock rb tgt disk into h).isOk = false := by
  rw [(ha.past h hle).2.2.2]
  rfl

namespace CoreDir

/-- **`block_iter` on the data directory of a node.** Whatever the format, the range and the
schedule, the iterator delivers exactly the blocks of the active chain from `start` up to `end` or
the last one, in order, and then ends; it delivers nothing when `end <= start`. -/
theorem blockIter_delivers (rb : RustBitcoin) (tgt : Target) (enc : ConsensusEncoding) (host : Host)
    (dataDir : PathBuf) (chain : List Block) (dir : CoreDir rb enc host dataDir chain)
    (hne : chain ≠ []) (hcodec : Decodes rb enc chain) (htxdata : ∀ blk ∈ chain, blk.txdata ≠ [])
    (txIndex : Bool) :
    ∃ db, BitcoinDB.new rb tgt host dataDir txIndex = .ok db ∧
      ∀ {B : Type} (into : Block → B) (start stop : Nat) s,
        (db.blockIter rb tgt host.disk into start stop).Reachable () s →
        (db.blockIter rb tgt host.disk into start stop).DeliversUpTo
          (min stop chain.length - start) (fun i => chain[start + i]?.map into) s := by
  obtain ⟨db, hnew, hindex, hrecords, hholds, -⟩ := dir.opens tgt hne txIndex
  have ha := dir.answersBlocks_of_records hrecords hholds hcodec htxdata hindex
  refine ⟨db, hnew, fun into start stop s hr => ?_⟩
  have hget : ∀ h b, (chain.map into)[h]? = some b →
      db.getBlock rb tgt host.disk into h = .ok b := by
    intro h b hb
    rw [List.getElem?_map, Option.map_eq_some_iff] at hb
    obtain ⟨blk, hblk, rfl⟩ := hb
    exact ha.block h blk hblk into
  have hd := BlockIter.fromRange_delivers hget
    (fun h hle => ha.isOk_past into (by rwa [List.length_map] at hle)) start stop hr
  rw [List.length_map] at hd
  exact hd.congr fun i _ => List.getElem?_map

/-- Blocks 1 to 9 of a chain of three. -/
theorem blockIter_delivers_storedDir :
    ∃ db, BitcoinDB.new storedBitcoin ⟨true, true⟩ storedHost "/data" false = .ok db ∧
      ∃ s, (db.blockIter storedBitcoin ⟨true, true⟩ storedHost.disk
          (CompactBlock.ofBlock storedBitcoin) 1 10).Reachable () s ∧
        s.emitted.map some = [storedChain[1]?, storedChain[2]?].map
          (Option.map (CompactBlock.ofBlock storedBitcoin)) := by
  obtain ⟨db, hnew, hall⟩ := blockIter_delivers storedBitcoin ⟨true, true⟩ legacyEncoding storedHost
    "/data" storedChain storedDir (by decide) storedChain_decodes (by decide) false
  obtain ⟨s, hr, hC, -⟩ := Pipeline.sequential_run (db.blockIter storedBitcoin ⟨true, true⟩
    storedHost.disk (CompactBlock.ofBlock storedBitcoin) 1 10) ()
  have hd := hall (CompactBlock.ofBlock storedBitcoin) 1 10 s hr
  have hle : 2 ≤ (db.blockIter storedBitcoin ⟨true, true⟩ storedHost.disk
      (CompactBlock.ofBlock storedBitcoin) 1 10).len := by
    change 2 ≤ 9
    decide
  refine ⟨db, hnew, s, hr, ?_⟩
  rw [hd.emitted, hd.length_of_complete hle hC]
  rfl

/-- **`connected_block_iter` on the data directory of a node.** When the active chain spends only
outputs that it has created by then, each once, and a txid that is repeated has the same outputs:
for every end height, both formats and both caches, and under every schedule, the iterator delivers
exactly the connected blocks of the active chain below `end`, in order, and then ends. It does not
need the txindex. -/
theorem connectedBlockIter_delivers (rb : RustBitcoin) (tgt : Target) (enc : ConsensusEncoding)
    (host : Host) (dataDir : PathBuf) (chain : List Block)
    (dir : CoreDir rb enc host dataDir chain) (hne : chain ≠ []) (hcodec : Decodes rb enc chain)
    (htxdata : ∀ blk ∈ chain, blk.txdata ≠ []) (hout : OnDisk.DecodesOutputs rb chain)
    (hc : Connectable rb chain) (txIndex : Bool) :
    ∃ db, BitcoinDB.new rb tgt host dataDir txIndex = .ok db ∧
      ∀ {Blk Tx Out : Type} (CB : ConnectedBlock Blk Tx Out) (stop : Nat),
        (∀ s, (db.connectedBlockIterOnDisk rb tgt host.disk CB stop).Reachable OnDisk.emptyCache s →
          (db.connectedBlockIterOnDisk rb tgt host.disk CB stop).DeliversUpTo
            (min stop chain.length) (expectedBlock CB rb chain) s) ∧
        ∀ s, (db.connectedBlockIterInMem rb tgt host.disk CB stop).Reachable InMem.emptyCache s →
          (db.connectedBlockIterInMem rb tgt host.disk CB stop).DeliversUpTo
            (min stop chain.length) (expectedBlock CB rb chain) s := by
  obtain ⟨db, hnew, hindex, hrecords, hholds, -⟩ := dir.opens tgt hne txIndex
  have ha := dir.answersBlocks_of_records hrecords hholds hcodec htxdata hindex
  exact ⟨db, hnew, fun CB stop => iterators_any_end rb tgt CB _ chain
    (fun h blk hblk => ha.block h blk hblk id) (fun h hle => ha.isOk_past id hle) hout hc stop⟩

/-- Ten heights are asked for, and the chain has three. -/
theorem connectedBlockIter_delivers_storedDir :
    ∃ db, BitcoinDB.new storedBitcoin ⟨true, true⟩ storedHost "/data" false = .ok db ∧
      ∃ s, (db.connectedBlockIterInMem storedBitcoin ⟨true, true⟩ storedHost.disk
          (fullConnectedBlock storedBitcoin) 10).Reachable InMem.emptyCache s ∧
        s.emitted.length = 3 ∧ s.emitted.map some = (List.range 3).map
          (expectedBlock (fullConnectedBlock storedBitcoin) storedBitcoin storedChain) := by
  have hout : OnDisk.DecodesOutputs storedBitcoin storedChain := by
    unfold OnDisk.DecodesOutputs
    decide +kernel
  obtain ⟨db, hnew, hall⟩ := connectedBlockIter_delivers storedBitcoin ⟨true, true⟩ legacyEncoding
    storedHost "/data" storedChain storedDir (by decide) storedChain_decodes (by decide) hout
    storedChain_valid.connectable false
  obtain ⟨s, hr, hC, -⟩ := Pipeline.sequential_run (db.connectedBlockIterInMem storedBitcoin
    ⟨true, true⟩ storedHost.disk (fullConnectedBlock storedBitcoin) 10) InMem.emptyCache
  have hd := (hall (fullConnectedBlock storedBitcoin) 10).2 s hr
  have hle : 3 ≤ (db.connectedBlockIterInMem storedBitcoin ⟨true, true⟩ storedHost.disk
      (fullConnectedBlock storedBitcoin) 10).len := by
    change 3 ≤ 10
    decide
  have hlen : s.emitted.length = 3 := hd.length_of_complete hle hC
  exact ⟨db, hnew, s, hr, hlen, hlen ▸ hd.emitted⟩

end CoreDir

end BitcoinExplorer
