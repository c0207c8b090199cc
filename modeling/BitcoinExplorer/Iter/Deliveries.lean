import BitcoinExplorer.Iter.InMemSafety
import BitcoinExplorer.Iter.OnDiskFaults
import BitcoinExplorer.Lib.Delivery

/-!
# What any connected-block iterator may deliver

The two caches, their byte orders and build profiles, the end height, the calls of RocksDB that
fail and the scheduler's choices all vary; what may come out does not. `Delivered` collects the
lists of blocks that some configuration of some iterator over the same `get_block` has delivered.

* `Delivered.expected`: with a txid fixing the outputs, such a list holds the expected blocks.
* **`delivered_agree`**: of any two of them, one begins the other.
-/

namespace BitcoinExplorer

open Rust Conc

variable {Blk Tx Out : Type}

/-- Lists that some iterator has delivered, in whatever configuration it has reached. -/
inductive Delivered (rb : RustBitcoin) (CB : ConnectedBlock Blk Tx Out)
    (getBlock : Nat → Outcome Error Block) : List Blk → Prop
  | onDisk (tgt : Target) (endHeight : Nat) (opens : Bool) (faults : Nat → OnDisk.Fault)
      (s : Config (OnDisk.rocksDB.onto OnDisk.FaultyDB OnDisk.FaultyDB.exec) Unit Block Blk)
      (hr : (OnDisk.faultyBlockIter rb tgt opens CB getBlock endHeight).Reachable
        (OnDisk.FaultyDB.empty faults) s) : Delivered rb CB getBlock s.emitted
  | inMem (tgt : Target) (endHeight : Nat) (s : Config (InMem.mutexes tgt Out) Unit Block Blk)
      (hr : (InMem.connectedBlockIter rb tgt CB getBlock endHeight).Reachable InMem.emptyCache s) :
      Delivered rb CB getBlock s.emitted

variable {rb : RustBitcoin} {CB : ConnectedBlock Blk Tx Out} {getBlock : Nat → Outcome Error Block}
  {chain : List Block}

/-- **Whatever is delivered is expected**: block `i` of the list is the connected block of height
`i`. -/
theorem Delivered.expected (hget : ∀ h blk, getBlock h = .ok blk → chain[h]? = some blk)
    (hcodec : OnDisk.DecodesOutputs rb chain) (hb : TxidBinds rb chain) {l : List Blk}
    (hl : Delivered rb CB getBlock l) {i : Nat} {b : Blk} (hi : l[i]? = some b) :
    expectedBlock CB rb chain i = some b := by
  cases hl with
  | onDisk tgt endHeight opens faults s hr =>
    have hdec : ∀ h blk, h < endHeight → getBlock h = .ok blk → ∀ tx ∈ blk.txdata,
        ∀ out ∈ tx.output, rb.decodeTxOut (rb.encodeTxOut out) = some out :=
      fun h blk _ hblk tx htx => hcodec tx
        (mem_transactions.mpr ⟨blk, List.mem_of_getElem? (hget h blk hblk), htx⟩)
    obtain ⟨blk, hblk, hfrom⟩ := OnDisk.connectsFrom_of_emitted hdec hr hi
    exact hfrom.eq_expectedBlock hb (fun h blk _ => hget h blk) (hget i blk hblk)
  | inMem tgt endHeight s hr =>
    obtain ⟨blk, hblk, hfrom⟩ := InMem.connectsFrom_of_emitted hr hi
    exact hfrom.eq_expectedBlock hb (fun h blk _ => hget h blk) (hget i blk hblk)

/-- **No two iterators disagree.** Of the lists of blocks that any two iterators over the same
blocks have delivered, with either cache, any end, any faults and any schedule, one begins the
other. -/
theorem delivered_agree (rb : RustBitcoin) (CB : ConnectedBlock Blk Tx Out)
    (getBlock : Nat → Outcome Error Block) (chain : List Block)
    (hget : ∀ h blk, getBlock h = .ok blk → chain[h]? = some blk)
    (hcodec : OnDisk.DecodesOutputs rb chain) (hb : TxidBinds rb chain) {l l' : List Blk}
    (hl : Delivered rb CB getBlock l) (hl' : Delivered rb CB getBlock l') : l <+: l' ∨ l' <+: l :=
  Pipeline.prefix_or_prefix (fun _ _ => hl.expected hget hcodec hb)
    fun _ _ => hl'.expected hget hcodec hb

/-- Over the sample chain, an on-disk iterator whose second read fails and an in-memory iterator
that is asked for five blocks. -/
theorem delivered_agree_sampleChain :
    ∃ l l',
      Delivered sampleBitcoin (fullConnectedBlock sampleBitcoin) (getBlockFrom sampleChain) l ∧
      Delivered sampleBitcoin (fullConnectedBlock sampleBitcoin) (getBlockFrom sampleChain) l' ∧
      l.length = 1 ∧ l'.length = 2 ∧ (l <+: l' ∨ l' <+: l) := by
  obtain ⟨s, hr, -, he⟩ := Pipeline.sequential_run
    (OnDisk.faultyBlockIter sampleBitcoin ⟨true, true⟩ true (fullConnectedBlock sampleBitcoin)
      (getBlockFrom sampleChain) 2) (OnDisk.FaultyDB.empty OnDisk.sampleFaults)
  obtain ⟨t, hr', -, he'⟩ := Pipeline.sequential_run (InMem.connectedBlockIter sampleBitcoin
    ⟨false, true⟩ (fullConnectedBlock sampleBitcoin) (getBlockFrom sampleChain) 5) InMem.emptyCache
  have hl := Delivered.onDisk ⟨true, true⟩ 2 true OnDisk.sampleFaults s hr
  have hl' := Delivered.inMem ⟨false, true⟩ 5 t hr'
  have hcodec : OnDisk.DecodesOutputs sampleBitcoin sampleChain := by
    unfold OnDisk.DecodesOutputs
    decide
  exact ⟨_, _, hl, hl', by rw [he]; decide, by rw [he']; decide,
    delivered_agree sampleBitcoin _ (getBlockFrom sampleChain) sampleChain
      (fun h blk hblk => Outcome.ofOption_eq_ok.mp hblk) hcodec
      (txidBinds_of_nodup sampleChain_valid.txids) hl hl'⟩

end BitcoinExplorer
