import BitcoinExplorer.CoreData
import BitcoinExplorer.Iter.InMemRuns
import BitcoinExplorer.Iter.OnDiskRuns

/-!
# The two ways to connect a block

`connected_block_iter` keeps the unspent outputs while it goes through the chain;
`get_connected_block` looks every previous output up through the txindex and regroups them. Both
give the block with every input replaced by the output it names (`expectedBlock`).

* **`paths_agree`**: on a stored valid chain both caches, height by height, and the txindex return
  the same blocks, in both formats.
-/

namespace BitcoinExplorer

open Rust

section

variable {rb : RustBitcoin} {Blk Tx Out : Type} {f : Ledger}

/-- What an input finds: nothing for a null outpoint, else the output it names. -/
def namedInput (f : Ledger) (i : TxIn) : Option TxOut :=
  if i.previousOutput.isNull then none else f i.previousOutput

theorem ConnectedTx.addInputs_spends {CT : ConnectedTx Tx Out} : ∀ {inputs : List TxIn} {t : Tx},
    (∀ o ∈ spends inputs, (f o).isSome = true) →
      CT.addInputs f (spends inputs) t =
        some ((inputs.filterMap (namedInput f)).foldl (fun t out => CT.addInput t (CT.into out)) t)
  | [], _, _ => rfl
  | i :: inputs, t, h => by
    by_cases hnull : i.previousOutput.isNull = true
    · have hi : namedInput f i = none := if_pos hnull
      rw [spends_cons_null hnull] at h ⊢
      rw [List.filterMap_cons_none hi]
      exact addInputs_spends h
    · have hnull : i.previousOutput.isNull = false := by simpa using hnull
      rw [spends_cons hnull] at h ⊢
      obtain ⟨out, hout⟩ := Option.isSome_iff_exists.mp (h _ List.mem_cons_self)
      have hi : namedInput f i = some out := by rw [namedInput, hnull, if_neg (by simp), hout]
      rw [ConnectedTx.addInputs_cons, hout, Option.bind_some, List.filterMap_cons_some hi,
        List.foldl_cons]
      exact addInputs_spends fun o ho => h o (List.mem_cons_of_mem _ ho)

/-- A transaction whose outpoints all name an output connects to the one `connect_block_inputs`
builds. -/
theorem ConnectedTx.connectWith_eq {CT : ConnectedTx Tx Out} {tx : Transaction}
    (h : ∀ o ∈ spends tx.input, (f o).isSome = true) :
    CT.connectWith f tx = some (withInputs CT (namedInput f) tx) :=
  ConnectedTx.addInputs_spends h

/-- So do the transactions of a block, for a format that keeps them in a list. -/
theorem ConnectedBlock.addTxs_eq {CB : ConnectedBlock Blk Tx Out} {mk : List Tx → Blk}
    (hmk : ∀ ts t, CB.addTx (mk ts) t = mk (ts ++ [t])) : ∀ {txs : List Transaction} {ts : List Tx},
    (∀ tx ∈ txs, ∀ o ∈ spends tx.input, (f o).isSome = true) →
      CB.addTxs f txs (mk ts) = some (mk (ts ++ txs.map (withInputs CB.tx (namedInput f))))
  | [], ts, _ => by rw [List.map_nil, List.append_nil, ConnectedBlock.addTxs_nil]
  | tx :: txs, ts, h => by
    rw [ConnectedBlock.addTxs_cons, ConnectedTx.connectWith_eq (h tx List.mem_cons_self),
      Option.bind_some, hmk, addTxs_eq hmk fun tx' h' => h tx' (List.mem_cons_of_mem _ h'),
      List.map_cons, List.append_assoc, List.singleton_append]

/-- In a coinbase transaction, or one without null inputs, no input misses its output. -/
theorem inputsFound_namedInput {tx : Transaction} (h : ∀ o ∈ spends tx.input, (f o).isSome = true)
    (hnull : tx.isCoinbase = true ∨ ∀ i ∈ tx.input, i.previousOutput.isNull = false) :
    InputsFound (namedInput f) tx := by
  unfold InputsFound
  by_cases hcoinbase : tx.isCoinbase = true
  · rw [if_pos hcoinbase]
    unfold Transaction.isCoinbase at hcoinbase
    split at hcoinbase
    · rename_i i hi
      have hnone : namedInput f i = none := if_pos hcoinbase
      rw [hi, List.filterMap_cons_none hnone]
      rfl
    · cases hcoinbase
  · rw [if_neg hcoinbase]
    refine List.filterMap_length_eq_length.mpr fun i hi => ?_
    have hi' := hnull.resolve_left hcoinbase i hi
    rw [namedInput, hi', if_neg Bool.false_ne_true]
    exact h _ (mem_spends.mpr ⟨i, hi, hi', rfl⟩)

end

/-! ## Connecting through the txindex -/

section TxIndex

variable {rb : RustBitcoin} {enc : ConsensusEncoding} {disk : Disk} {kv : KeyValue}
  {db : BitcoinDB} {chain : List Block} (hv : ValidChain rb chain)
  (hstored : Stored rb enc disk kv db chain) (hcodec : Decodes rb enc chain)
  (hgenesis : ∀ o ∈ chainSpends chain, o.txid ≠ genesisTxid)
include hv hstored hcodec hgenesis

/-- `connect_input` finds the output an input names. -/
theorem connectInput_eq (tgt : Target) {txDb : TxDB} (htxDb : db.txDb = some txDb)
    {tx : Transaction} (htx : tx ∈ transactions chain) {i : TxIn} (hi : i ∈ tx.input) :
    connectInput rb tgt disk txDb db.blockIndex db.blkFile i =
      .ok (namedInput (namedOutput rb chain) i) := by
  obtain ⟨txDb', htxDb', hkv, hid⟩ := hstored.txDb_eq
  obtain rfl := Option.some.inj (htxDb.symm.trans htxDb')
  unfold namedInput
  by_cases hnull : i.previousOutput.isNull = true
  · rw [if_pos hnull, connectInput, isCoinBase, if_pos hnull]
  rw [if_neg hnull]
  have ho : i.previousOutput ∈ spends tx.input :=
    mem_spends.mpr ⟨i, hi, by simpa using hnull, rfl⟩
  have hne : i.previousOutput.txid ≠ genesisTxid := by
    obtain ⟨blk, hblk, hmem⟩ := mem_transactions.mp htx
    exact hgenesis _ (List.mem_flatMap.mpr ⟨blk, hblk, Block.mem_spends.mpr ⟨tx, hmem, ho⟩⟩)
  obtain ⟨pre, post, hsplit⟩ := List.append_of_mem htx
  obtain ⟨tx', htx', hname, hlt⟩ := hv.inputs pre tx post hsplit _ ho
  have hmem : tx' ∈ transactions chain := hsplit ▸ List.mem_append_left _ htx'
  obtain ⟨txPos, hpos, hread⟩ := hstored.findTx hcodec tgt hkv hmem (hname ▸ hne)
  have hnamed : namedOutput rb chain i.previousOutput =
      some tx'.output[i.previousOutput.vout.toNat] := by
    rw [namedOutput, ← hname, outputAt_eq (txidBinds_of_nodup hv.txids) hmem,
      List.getElem?_eq_getElem hlt]
  have hgen : txDb.isGenesisTx i.previousOutput.txid = false := by
    rw [TxDB.isGenesisTx, hid]
    exact decide_eq_false hne
  rw [hname] at hpos
  rw [connectInput_of_found (by simpa using hnull) hgen hpos hread, List.getElem?_eq_getElem hlt,
    hnamed]

/-- **`connect_block_inputs` connects the transactions of a block.** -/
theorem connectBlockInputs_stored (tgt : Target)
    (hnull : ∀ tx ∈ transactions chain,
      tx.isCoinbase = true ∨ ∀ i ∈ tx.input, i.previousOutput.isNull = false)
    {txDb : TxDB} (htxDb : db.txDb = some txDb) {Tx Out : Type} (CT : ConnectedTx Tx Out)
    {blk : Block} (hblk : blk ∈ chain) :
    connectBlockInputs CT (connectInput rb tgt disk txDb db.blockIndex db.blkFile) blk.txdata =
      .ok (blk.txdata.map (withInputs CT (namedInput (namedOutput rb chain)))) := by
  have hmem : ∀ tx ∈ blk.txdata, tx ∈ transactions chain := fun tx htx =>
    mem_transactions.mpr ⟨blk, hblk, htx⟩
  obtain ⟨h, hh⟩ := List.getElem?_of_mem hblk
  refine connectBlockInputs_eq (fun tx htx i hi => ?_) fun tx htx => ?_
  · exact connectInput_eq hv hstored hcodec hgenesis tgt htxDb (hmem tx htx) hi
  · exact inputsFound_namedInput (fun o ho => hv.connectable.namedOutput_isSome hh
      (Block.mem_spends.mpr ⟨tx, htx, ho⟩)) (hnull tx (hmem tx htx))

end TxIndex

/-! ## The agreement -/

/-- At height `h`, both caches run height by height and `get_connected_block` give the same
block. -/
def PathsAgree {Blk Tx Out : Type} (rb : RustBitcoin) (tgt : Target) (disk : Disk) (db : BitcoinDB)
    (CB : ConnectedBlock Blk Tx Out)
    (connect : Block → TxDB → BlockIndex → BlkFile → Outcome Error Blk) (chain : List Block)
    (h : Nat) : Prop :=
  ∃ blk, db.getConnectedBlock rb tgt disk connect h = .ok blk ∧
    ((OnDisk.connectedBlockIter rb tgt CB (db.getBlock rb tgt disk id) chain.length).sequential
      (h + 1) 0 OnDisk.emptyCache)[h]? = some blk ∧
    ((InMem.connectedBlockIter rb tgt CB (db.getBlock rb tgt disk id) chain.length).sequential
      (h + 1) 0 InMem.emptyCache)[h]? = some blk

/-- The agreement in a format whose `connect` wraps the transactions of `connect_block_inputs` as
the trait methods `from` and `add_tx` do. -/
theorem pathsAgree_of_connect {rb : RustBitcoin} (tgt : Target) {enc : ConsensusEncoding}
    {disk : Disk} {kv : KeyValue} {db : BitcoinDB} {chain : List Block} (hv : ValidChain rb chain)
    (hnull : ∀ tx ∈ transactions chain,
      tx.isCoinbase = true ∨ ∀ i ∈ tx.input, i.previousOutput.isNull = false)
    (hgenesis : ∀ o ∈ chainSpends chain, o.txid ≠ genesisTxid)
    (hstored : Stored rb enc disk kv db chain) (hcodec : Decodes rb enc chain)
    (hout : OnDisk.DecodesOutputs rb chain) {Blk Tx Out : Type} {CB : ConnectedBlock Blk Tx Out}
    {connect : Block → TxDB → BlockIndex → BlkFile → Outcome Error Blk} {h : Nat} {blk : Block}
    (hblk : chain[h]? = some blk) {mk : List Tx → Blk}
    (hheader : CB.ofHeader blk.header (rb.blockHash blk.header) = mk [])
    (hmk : ∀ ts t, CB.addTx (mk ts) t = mk (ts ++ [t]))
    (hconnect : ∀ txDb ts,
      connectBlockInputs CB.tx (connectInput rb tgt disk txDb db.blockIndex db.blkFile)
        blk.txdata = .ok ts → connect blk txDb db.blockIndex db.blkFile = .ok (mk ts)) :
    PathsAgree rb tgt disk db CB connect chain h := by
  have hget : ∀ h blk, chain[h]? = some blk → db.getBlock rb tgt disk id h = .ok blk :=
    fun _ _ hblk => hstored.getBlock hcodec tgt id hblk
  have hlt := (List.getElem?_eq_some_iff.mp hblk).1
  obtain ⟨txDb, htxDb, -⟩ := hstored.txDb_eq
  have hsome : ∀ tx ∈ blk.txdata, ∀ o ∈ spends tx.input, (namedOutput rb chain o).isSome = true :=
    fun tx htx o ho => hv.connectable.namedOutput_isSome hblk (Block.mem_spends.mpr ⟨tx, htx, ho⟩)
  have hexpected : expectedBlock CB rb chain h =
      some (mk (blk.txdata.map (withInputs CB.tx (namedInput (namedOutput rb chain))))) := by
    rw [expectedBlock, hblk, Option.bind_some, ConnectedBlock.connectWith, hheader,
      ConnectedBlock.addTxs_eq hmk hsome, List.nil_append]
  refine ⟨mk (blk.txdata.map (withInputs CB.tx (namedInput (namedOutput rb chain)))), ?_, ?_, ?_⟩
  · rw [BitcoinDB.getConnectedBlock, htxDb, Outcome.ofOption, Outcome.ok_bind, hget h blk hblk,
      Outcome.ok_bind]
    exact hconnect txDb _ (connectBlockInputs_stored hv hstored hcodec hgenesis tgt hnull htxDb
      CB.tx (List.mem_of_getElem? hblk))
  · rw [← hexpected]
    exact Conc.Pipeline.sequential_getElem?
      (fun s hr => OnDisk.delivers_of_connectable hout hv.connectable hget hr) hlt
  · rw [← hexpected]
    exact Conc.Pipeline.sequential_getElem?
      (fun s hr => InMem.delivers_of_connectable hv.connectable hget hr) hlt

/-- **The cache path and the txindex path agree.** On a valid chain that is stored as Bitcoin Core
stores it, whose inputs are null in coinbase transactions only and never name the genesis
transaction: for each height both caches, run one height after the other, and `get_connected_block`
give the same block, in the compact and in the full format. -/
theorem paths_agree (rb : RustBitcoin) (tgt : Target) (enc : ConsensusEncoding) (disk : Disk)
    (kv : KeyValue) (db : BitcoinDB) (chain : List Block) (hv : ValidChain rb chain)
    (hnull : ∀ tx ∈ transactions chain,
      tx.isCoinbase = true ∨ ∀ i ∈ tx.input, i.previousOutput.isNull = false)
    (hgenesis : ∀ o ∈ chainSpends chain, o.txid ≠ genesisTxid)
    (hstored : Stored rb enc disk kv db chain) (hcodec : Decodes rb enc chain)
    (hout : OnDisk.DecodesOutputs rb chain) (h : Nat) (hlt : h < chain.length) :
    PathsAgree rb tgt disk db (compactConnectedBlock rb) (CompactConnectedBlock.connect rb tgt disk)
        chain h ∧
      PathsAgree rb tgt disk db (fullConnectedBlock rb) (FullConnectedBlock.connect rb tgt disk)
        chain h := by
  have hblk := List.getElem?_eq_getElem hlt
  constructor
  · refine pathsAgree_of_connect tgt hv hnull hgenesis hstored hcodec hout hblk
      rfl (fun _ _ => rfl) ?_
    intro txDb ts hts
    dsimp only [compactConnectedBlock] at hts
    rw [CompactConnectedBlock.connect, hts, Outcome.ok_bind]
  · refine pathsAgree_of_connect tgt hv hnull hgenesis hstored hcodec hout hblk
      rfl (fun _ _ => rfl) ?_
    intro txDb ts hts
    dsimp only [fullConnectedBlock] at hts
    rw [FullConnectedBlock.connect, hts, Outcome.ok_bind]

theorem storedChain_valid : ValidChain storedBitcoin storedChain where
  txids := by decide +kernel
  inputs := inputs_of_zipIdx storedBitcoin (by decide +kernel)
  spentOnce := by decide +kernel

/-- The block that spends the output of the block before it. -/
theorem paths_agree_storedChain :
    PathsAgree storedBitcoin ⟨true, true⟩ storedDisk storedDb (compactConnectedBlock storedBitcoin)
        (CompactConnectedBlock.connect storedBitcoin ⟨true, true⟩ storedDisk) storedChain 2 ∧
      PathsAgree storedBitcoin ⟨true, true⟩ storedDisk storedDb (fullConnectedBlock storedBitcoin)
        (FullConnectedBlock.connect storedBitcoin ⟨true, true⟩ storedDisk) storedChain 2 :=
  paths_agree storedBitcoin ⟨true,
    true⟩ legacyEncoding storedDisk storedTxIndex storedDb storedChain
    storedChain_valid (by decide +kernel) (by decide +kernel) storedChain_stored storedChain_decodes
    (by unfold OnDisk.DecodesOutputs; decide +kernel) 2 (by decide)

end BitcoinExplorer
