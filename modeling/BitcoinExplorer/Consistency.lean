import BitcoinExplorer.Grown
import BitcoinExplorer.Iter.Deliveries
import BitcoinExplorer.Paths

/-!
# The answers are consistent

Connected data comes out of the crate in three ways: the iterators keep what is unspent while they
go through the blocks, `get_connected_block` and `get_connected_transaction` look every previous
output up through the txindex. On a stored valid chain they agree since each is right
(`paths_agree`). Here nothing is known of the chain: blocks may be missing or unreadable, spend what
is spent or was never created, and repeat a transaction, as two coinbase transactions of the real
chain are; the txindex may have no entry for a transaction, and the cache may fail. Then some of the
ways return an error, but what they do return still agrees.

* `ReadOutput`: the outputs that some transaction read from the database has under an outpoint. It
  is the one source all three connect from (`CreatedBelow.readOutput`, `connectInput_readOutput`).
* `Sound`: a txid is the hash of the transaction under it, in the blocks and through the txindex. It
  makes that source allow one output for each outpoint.
* `Stored.sound`, `Extends.sound`: the data of a node is sound, and so is any part of sound data.
* **`answers_agree`**: whatever has come out of any iterator or of `get_connected_block` at a height
  is the same, and has what `get_connected_transaction` returns at the place of each transaction.
-/

namespace BitcoinExplorer

open Rust

/-! ## What is read -/

/-- The part of a transaction that its txid is the hash of: all but the witnesses. -/
def Transaction.stripped (tx : Transaction) : Transaction :=
  { tx with input := tx.input.map fun i => { i with witness := [] } }

/-- Witnesses spend nothing. -/
theorem spends_stripped (tx : Transaction) : spends tx.stripped.input = spends tx.input := by
  rw [spends, spends, Transaction.stripped, List.filterMap_map]
  rfl

section

variable (rb : RustBitcoin) (tgt : Target) (disk : Disk) (db : BitcoinDB)

/-- The database has a txindex, which takes the txid for that of the genesis transaction. -/
def BitcoinDB.isGenesisTx (txid : Txid) : Bool := db.txDb.any fun txDb => txDb.isGenesisTx txid

/-- The transaction is returned by the database, in a block or under a txid. -/
def BitcoinDB.Reads (tx : Transaction) : Prop :=
  (∃ h blk, db.getBlock rb tgt disk id h = .ok blk ∧ tx ∈ blk.txdata) ∨
    ∃ txid, db.getTransaction rb tgt disk id txid = .ok tx

/-- A txid stands for one transaction among those the database returns, and is what the transaction
is returned under; the genesis transaction has no second output, and the cache decodes the outputs
it encodes. -/
structure BitcoinDB.Sound : Prop where
  lookup : ∀ txid tx, db.getTransaction rb tgt disk id txid = .ok tx → rb.computeTxid tx = txid
  binds : ∀ tx tx', db.Reads rb tgt disk tx → db.Reads rb tgt disk tx' →
    rb.computeTxid tx = rb.computeTxid tx' → tx.stripped = tx'.stripped
  genesis : ∀ tx, db.Reads rb tgt disk tx → db.isGenesisTx (rb.computeTxid tx) = true →
    tx.output.length ≤ 1
  outputs : ∀ h blk, db.getBlock rb tgt disk id h = .ok blk → ∀ tx ∈ blk.txdata,
    ∀ out ∈ tx.output, rb.decodeTxOut (rb.encodeTxOut out) = some out

/-- The output that `connect_input` takes: for the genesis transaction, the first one. -/
def BitcoinDB.outputIndex (o : OutPoint) : Nat :=
  if db.isGenesisTx o.txid then 0 else o.vout.toNat

/-- A transaction that was read has the output under the outpoint. -/
def ReadOutput (o : OutPoint) (out : TxOut) : Prop :=
  ∃ tx, db.Reads rb tgt disk tx ∧ rb.computeTxid tx = o.txid ∧
    tx.output[db.outputIndex o]? = some out

end

section

variable {rb : RustBitcoin} {tgt : Target} {disk : Disk} {db : BitcoinDB} {txDb : TxDB}
  {Blk Tx Out : Type} {CT : ConnectedTx Tx Out} {CB : ConnectedBlock Blk Tx Out}

/-- With sound data, an outpoint has one output. -/
theorem readOutput_unique (hs : db.Sound rb tgt disk) :
    Relator.RightUnique (ReadOutput rb tgt disk db) := by
  rintro o out out' ⟨tx, htx, hid, hout⟩ ⟨tx', htx', hid', hout'⟩
  have hsame : tx.stripped.output = tx'.stripped.output :=
    congrArg Transaction.output (hs.binds tx tx' htx htx' (hid.trans hid'.symm))
  have hsame : tx.output = tx'.output := hsame
  rw [hsame, hout'] at hout
  exact (Option.some.inj hout).symm

/-- What blocks create is read, whichever height the iterator ends at. -/
theorem CreatedBelow.readOutput (hs : db.Sound rb tgt disk) {endHeight : Nat} {o : OutPoint}
    {out : TxOut} (h : CreatedBelow rb (db.getBlock rb tgt disk id) endHeight o out) :
    ReadOutput rb tgt disk db o out := by
  obtain ⟨n, blk, -, hblk, hcreates⟩ := h
  obtain ⟨tx, htx, hid, hout⟩ := Block.mem_creates.mp hcreates
  have hreads : db.Reads rb tgt disk tx := Or.inl ⟨n, blk, hblk, htx⟩
  refine ⟨tx, hreads, hid, ?_⟩
  unfold BitcoinDB.outputIndex
  by_cases hgen : db.isGenesisTx o.txid = true
  · -- its only output
    have hlen := hs.genesis tx hreads (hid ▸ hgen)
    have hlt := (List.getElem?_eq_some_iff.mp hout).1
    have hzero : o.vout.toNat = 0 := by omega
    rwa [if_pos hgen, ← hzero]
  · rwa [if_neg hgen]

/-- What `connect_input` finds, `get_transaction` returns with its transaction. -/
theorem connectInput_eq_some (htxDb : db.txDb = some txDb) {i : TxIn} {out : TxOut}
    (h : connectInput rb tgt disk txDb db.blockIndex db.blkFile i = .ok (some out)) :
    i.previousOutput.isNull = false ∧
      ∃ tx, db.getTransaction rb tgt disk id i.previousOutput.txid = .ok tx ∧
        tx.output[db.outputIndex i.previousOutput]? = some out := by
  have hnull : i.previousOutput.isNull = false := by
    by_contra hnull
    rw [connectInput, isCoinBase, if_pos (by simpa using hnull)] at h
    cases h
  refine ⟨hnull, ?_⟩
  rw [BitcoinDB.getTransaction, BitcoinDB.outputIndex, BitcoinDB.isGenesisTx, htxDb,
    Outcome.ofOption, Outcome.ok_bind, Option.any_some]
  cases hgen : txDb.isGenesisTx i.previousOutput.txid with
  | true =>
    rw [connectInput_genesis hnull hgen] at h
    rw [if_pos rfl, if_pos rfl, BitcoinDB.getBlock]
    cases hr : db.blockIndex.records[0]? with
    | none =>
      rw [hr] at h
      cases h
    | some r =>
      rw [hr] at h
      dsimp only at h
      rw [Outcome.ofOption, Outcome.ok_bind]
      cases hread : db.blkFile.readBlock rb tgt disk r.nFile r.nDataPos with
      | ok blk =>
        rw [hread] at h
        obtain ⟨tx, htx, h⟩ := Outcome.bind_eq_ok.mp h
        obtain ⟨out', hout, h⟩ := Outcome.bind_eq_ok.mp h
        obtain rfl := Option.some.inj (Outcome.ok.inj h)
        refine ⟨tx, by rw [Outcome.ok_bind, Outcome.ok_bind, id, htx, Outcome.ok_bind, id], ?_⟩
        unfold swapRemove at hout
        split at hout
        · next hget => rw [hget, Outcome.ok.inj hout]
        · cases hout
      | err e =>
        rw [hread] at h
        cases h
      | panic =>
        rw [hread] at h
        cases h
  | false =>
    have hconnect := connectInput.eq_1 rb tgt disk txDb db.blockIndex db.blkFile i
    rw [isCoinBase, hnull, if_neg Bool.false_ne_true] at hconnect
    dsimp only at hconnect
    rw [hgen, if_neg Bool.false_ne_true, h] at hconnect
    rw [if_neg Bool.false_ne_true, if_neg Bool.false_ne_true]
    cases hpos : txDb.getTxPosition tgt i.previousOutput.txid with
    | ok txPos =>
      rw [hpos] at hconnect
      dsimp only at hconnect
      cases hread : db.blkFile.readTransaction rb disk txPos.nFile txPos.nDataPos
          txPos.nTxOffset with
      | ok tx =>
        rw [connectInput_of_found hnull hgen hpos hread] at h
        exact ⟨tx, by rw [Outcome.ok_bind, hread, Outcome.ok_bind, id], Outcome.ok.inj h⟩
      | err e =>
        rw [hread] at hconnect
        cases hconnect
      | panic => exact absurd hread (BlkFile.readTransaction_ne_panic rb _ _)
    | err e =>
      rw [hpos] at hconnect
      cases hconnect
    | panic =>
      rw [hpos] at hconnect
      cases hconnect

/-- So it is read. -/
theorem connectInput_readOutput (hs : db.Sound rb tgt disk) (htxDb : db.txDb = some txDb) {i : TxIn}
    {out : TxOut} (h : connectInput rb tgt disk txDb db.blockIndex db.blkFile i = .ok (some out)) :
    i.previousOutput.isNull = false ∧ ReadOutput rb tgt disk db i.previousOutput out := by
  obtain ⟨hnull, tx, htx, hout⟩ := connectInput_eq_some htxDb h
  exact ⟨hnull, tx, Or.inr ⟨_, htx⟩, hs.lookup _ _ htx, hout⟩

/-! ## What comes out -/

/-- What is found for inputs is, outpoint by outpoint, what a source allows that allows what is
found. -/
theorem forall₂_spends {C : OutPoint → TxOut → Prop} {g : TxIn → Option TxOut} :
    ∀ {inputs : List TxIn}, (∀ i ∈ inputs, g i = none → i.previousOutput.isNull = true) →
      (∀ i ∈ inputs, ∀ out, g i = some out →
        i.previousOutput.isNull = false ∧ C i.previousOutput out) →
      List.Forall₂ C (spends inputs) (inputs.filterMap g)
  | [], _, _ => .nil
  | i :: inputs, hnone, hsome => by
    obtain ⟨hi, hnone⟩ := List.forall_mem_cons.mp hnone
    obtain ⟨hi', hsome⟩ := List.forall_mem_cons.mp hsome
    cases hg : g i with
    | none =>
      rw [spends_cons_null (hi hg), List.filterMap_cons_none hg]
      exact forall₂_spends hnone hsome
    | some out =>
      obtain ⟨hnull, hout⟩ := hi' out hg
      rw [spends_cons hnull, List.filterMap_cons_some hg]
      exact .cons hout (forall₂_spends hnone hsome)

/-- So what was found for a transaction connects it from that source. -/
theorem ConnectedTx.connectsFrom_withInputs {C : OutPoint → TxOut → Prop} {g : TxIn → Option TxOut}
    {tx : Transaction} (hfound : InputsFound g tx) (hC : ∀ i ∈ tx.input, ∀ out, g i = some out →
      i.previousOutput.isNull = false ∧ C i.previousOutput out) :
    CT.ConnectsFrom C tx (withInputs CT g tx) :=
  ⟨_, forall₂_spends (fun _ hi => hfound.isNull_of_none hi) hC, rfl⟩

/-- A transaction connected through the txindex comes from what is read. -/
theorem connectsFrom_of_connectTx (hs : db.Sound rb tgt disk) (htxDb : db.txDb = some txDb)
    {tx : Transaction} {t : Tx}
    (h : connectTx CT (connectInput rb tgt disk txDb db.blockIndex db.blkFile) tx = .ok t) :
    CT.ConnectsFrom (ReadOutput rb tgt disk db) tx t := by
  obtain ⟨outs, houts, h⟩ := Outcome.bind_eq_ok.mp h
  obtain ⟨hall, hfound, rfl⟩ := connectTxInputs_eq_ok houts
  obtain rfl := Outcome.ok.inj h
  exact ConnectedTx.connectsFrom_withInputs hfound fun i hi out hout =>
    connectInput_readOutput hs htxDb (hout ▸ hall i hi)

/-- So do the transactions of a block. -/
theorem connectsFrom_of_connectBlockInputs (hs : db.Sound rb tgt disk)
    (htxDb : db.txDb = some txDb) {txs : List Transaction} {ts : List Tx}
    (h : connectBlockInputs CT (connectInput rb tgt disk txDb db.blockIndex db.blkFile) txs =
      .ok ts) :
    List.Forall₂ (CT.ConnectsFrom (ReadOutput rb tgt disk db)) txs ts := by
  obtain ⟨hall, hfound, rfl⟩ := connectBlockInputs_eq_ok h
  refine List.forall₂_map_right_iff.mpr (List.forall₂_same.mpr fun tx htx => ?_)
  exact ConnectedTx.connectsFrom_withInputs (hfound tx htx) fun i hi out hout =>
    connectInput_readOutput hs htxDb (hout ▸ hall tx htx i hi)

/-- What any iterator delivers comes from what is read. -/
theorem Delivered.connectsFrom (hs : db.Sound rb tgt disk) {l : List Blk}
    (hl : Delivered rb CB (db.getBlock rb tgt disk id) l) {h : Nat} {b : Blk}
    (hb : l[h]? = some b) :
    ∃ blk, db.getBlock rb tgt disk id h = .ok blk ∧
      CB.ConnectsFrom rb (ReadOutput rb tgt disk db) blk b := by
  cases hl with
  | onDisk tgt' endHeight opens faults s hr =>
    obtain ⟨blk, hblk, hfrom⟩ :=
      OnDisk.connectsFrom_of_emitted (fun h blk _ => hs.outputs h blk) hr hb
    exact ⟨blk, hblk, hfrom.imp fun _ _ ho => ho.readOutput hs⟩
  | inMem tgt' endHeight s hr =>
    obtain ⟨blk, hblk, hfrom⟩ := InMem.connectsFrom_of_emitted hr hb
    exact ⟨blk, hblk, hfrom.imp fun _ _ ho => ho.readOutput hs⟩

/-- Transactions that differ in their witnesses only connect to the same, in a format that keeps
no witnesses. -/
theorem ConnectedTx.ConnectsFrom.of_stripped {C : OutPoint → TxOut → Prop} {tx tx' : Transaction}
    {t : Tx} (hof : CT.ofTx tx' = CT.ofTx tx) (hstripped : tx'.stripped = tx.stripped)
    (h : CT.ConnectsFrom C tx' t) : CT.ConnectsFrom C tx t := by
  obtain ⟨outs, houts, rfl⟩ := h
  rw [← spends_stripped, hstripped, spends_stripped] at houts
  exact ⟨outs, houts, by rw [hof]⟩

/-- Adding transactions one by one appends them, in a format that keeps them in a list. -/
theorem ConnectedBlock.foldl_addTx {mk : List Tx → Blk}
    (hmk : ∀ ts t, CB.addTx (mk ts) t = mk (ts ++ [t])) (ts ts' : List Tx) :
    ts'.foldl CB.addTx (mk ts) = mk (ts ++ ts') := by
  induction ts' generalizing ts with
  | nil => rw [List.append_nil, List.foldl_nil]
  | cons t ts' ih => rw [List.foldl_cons, hmk, ih, List.append_assoc, List.singleton_append]

end

/-! ## The agreement -/

section

variable {Blk Tx Out : Type} (rb : RustBitcoin) (tgt : Target) (disk : Disk) (db : BitcoinDB)
  (CB : ConnectedBlock Blk Tx Out)
  (connect : Block → TxDB → BlockIndex → BlkFile → Outcome Error Blk)
  (connectTx : Transaction → TxDB → BlockIndex → BlkFile → Outcome Error Tx)

/-- The connected block came out at the height, of some iterator or of `get_connected_block`. -/
inductive ConnectedAt (h : Nat) (b : Blk) : Prop
  | iterator (l : List Blk) (hl : Delivered rb CB (db.getBlock rb tgt disk id) l)
      (hb : l[h]? = some b)
  | query (hb : db.getConnectedBlock rb tgt disk connect h = .ok b)

/-- One block comes out at a height, and `get_connected_transaction` returns the transactions
`txdata` of that block for the txids of the block at the height. -/
structure AnswersAgree (txdata : Blk → List Tx) : Prop where
  block : ∀ h b b', ConnectedAt rb tgt disk db CB connect h b →
    ConnectedAt rb tgt disk db CB connect h b' → b = b'
  transaction : ∀ h b (blk : Block) (i : Nat) tx t, ConnectedAt rb tgt disk db CB connect h b →
    db.getBlock rb tgt disk id h = .ok blk → blk.txdata[i]? = some tx →
    db.getConnectedTransaction rb tgt disk connectTx (rb.computeTxid tx) = .ok t →
    (txdata b)[i]? = some t

end

/-- The agreement in a format whose blocks hold a list of transactions, and whose `connect` methods
wrap what `connect_block_inputs` and `connect_tx_inputs` return as its trait methods do. -/
theorem answersAgree_of_connect {rb : RustBitcoin} {tgt : Target} {disk : Disk} {db : BitcoinDB}
    (hs : db.Sound rb tgt disk) {Blk Tx Out : Type} {CB : ConnectedBlock Blk Tx Out}
    {connect : Block → TxDB → BlockIndex → BlkFile → Outcome Error Blk}
    {connectMethod : Transaction → TxDB → BlockIndex → BlkFile → Outcome Error Tx}
    {txdata : Blk → List Tx} (mk : BlockHeader → List Tx → Blk)
    (hheader : ∀ header, CB.ofHeader header (rb.blockHash header) = mk header [])
    (hmk : ∀ header ts t, CB.addTx (mk header ts) t = mk header (ts ++ [t]))
    (hdata : ∀ header ts, txdata (mk header ts) = ts)
    (hof : ∀ tx tx', rb.computeTxid tx = rb.computeTxid tx' → tx.stripped = tx'.stripped →
      CB.tx.ofTx tx = CB.tx.ofTx tx')
    (hconnect : ∀ blk txDb b, connect blk txDb db.blockIndex db.blkFile = .ok b →
      ∃ ts, connectBlockInputs CB.tx (connectInput rb tgt disk txDb db.blockIndex db.blkFile)
        blk.txdata = .ok ts ∧ b = mk blk.header ts)
    (hmethod : ∀ tx txDb t, connectMethod tx txDb db.blockIndex db.blkFile = .ok t →
      connectTx CB.tx (connectInput rb tgt disk txDb db.blockIndex db.blkFile) tx = .ok t) :
    AnswersAgree rb tgt disk db CB connect connectMethod txdata := by
  have hunique := readOutput_unique hs
  -- whatever comes out comes from what is read
  have hfrom : ∀ h b, ConnectedAt rb tgt disk db CB connect h b →
      ∃ blk, db.getBlock rb tgt disk id h = .ok blk ∧
        CB.ConnectsFrom rb (ReadOutput rb tgt disk db) blk b := by
    rintro h b (⟨l, hl, hb⟩ | hb)
    · exact hl.connectsFrom hs hb
    · obtain ⟨txDb, htxDb, hb⟩ := Outcome.bind_eq_ok.mp hb
      obtain ⟨blk, hblk, hb⟩ := Outcome.bind_eq_ok.mp hb
      obtain ⟨ts, hts, rfl⟩ := hconnect blk txDb b hb
      refine ⟨blk, hblk, ts,
        connectsFrom_of_connectBlockInputs hs (Outcome.ofOption_eq_ok.mp htxDb) hts, ?_⟩
      rw [hheader, ConnectedBlock.foldl_addTx (hmk blk.header), List.nil_append]
  refine ⟨fun h b b' hb hb' => ?_, fun h b blk i tx t hb hblk htx ht => ?_⟩
  · obtain ⟨blk, hblk, hb⟩ := hfrom h b hb
    obtain ⟨blk', hblk', hb'⟩ := hfrom h b' hb'
    obtain rfl := Outcome.ok.inj (hblk.symm.trans hblk')
    exact ConnectedBlock.ConnectsFrom.unique hunique hb hb'
  · obtain ⟨blk', hblk', ts, hts, rfl⟩ := hfrom h b hb
    obtain rfl := Outcome.ok.inj (hblk.symm.trans hblk')
    obtain ⟨txDb, htxDb, ht⟩ := Outcome.bind_eq_ok.mp ht
    obtain ⟨tx', htx', ht⟩ := Outcome.bind_eq_ok.mp ht
    have hid := hs.lookup _ _ htx'
    have hstripped := hs.binds tx' tx (Or.inr ⟨_, htx'⟩)
      (Or.inl ⟨h, blk, hblk, List.mem_of_getElem? htx⟩) hid
    have hfrom' := (connectsFrom_of_connectTx hs (Outcome.ofOption_eq_ok.mp htxDb)
      (hmethod tx' txDb t ht)).of_stripped (hof tx' tx hid hstripped) hstripped
    rw [hheader, ConnectedBlock.foldl_addTx (hmk blk.header), List.nil_append, hdata]
    -- transaction `i` of the connected block
    obtain ⟨hlt, rfl⟩ := List.getElem?_eq_some_iff.mp htx
    obtain ⟨hlen, hget⟩ := List.forall₂_iff_get.mp hts
    have hlt' : i < ts.length := hlen ▸ hlt
    rw [List.getElem?_eq_getElem hlt', Option.some.injEq]
    exact ConnectedTx.ConnectsFrom.unique hunique (hget i hlt hlt') hfrom'

/-- **The answers are consistent.** Over any blocks, in both formats: whatever comes out of any
connected-block iterator or of `get_connected_block` at a height is the same block, and what
`get_connected_transaction` returns is the transaction of that block. -/
theorem answers_agree (rb : RustBitcoin) (tgt : Target) (disk : Disk) (db : BitcoinDB)
    (hs : db.Sound rb tgt disk) :
    AnswersAgree rb tgt disk db (compactConnectedBlock rb)
        (CompactConnectedBlock.connect rb tgt disk)
        (CompactConnectedTransaction.connect rb tgt disk) CompactConnectedBlock.txdata ∧
      AnswersAgree rb tgt disk db (fullConnectedBlock rb)
        (FullConnectedBlock.connect rb tgt disk) (FullConnectedTransaction.connect rb tgt disk)
        FullConnectedBlock.txdata := by
  constructor
  · refine answersAgree_of_connect hs
      (fun header ts => { header := .new header (rb.blockHash header), txdata := ts })
      (fun _ => rfl) (fun _ _ _ => rfl) (fun _ _ => rfl) ?_ ?_ ?_
    · intro tx tx' hid hstripped
      have hout : tx.output = tx'.output := congrArg (fun tx => tx.output) hstripped
      simp only [compactConnectedBlock, compactConnectedTx, hid, hout]
    · intro blk txDb b hb
      obtain ⟨ts, hts, hb⟩ := Outcome.bind_eq_ok.mp hb
      exact ⟨ts, hts, (Outcome.ok.inj hb).symm⟩
    · intro tx txDb t ht
      rwa [CompactConnectedTransaction.connect, CompactConnectedTransaction.connectBy_eq] at ht
  · refine answersAgree_of_connect hs
      (fun header ts => { header := .parse header (rb.blockHash header), txdata := ts })
      (fun _ => rfl) (fun _ _ _ => rfl) (fun _ _ => rfl) ?_ ?_ ?_
    · intro tx tx' hid hstripped
      have hversion : tx.version = tx'.version := congrArg (fun tx => tx.version) hstripped
      have hlock : tx.lockTime = tx'.lockTime := congrArg (fun tx => tx.lockTime) hstripped
      have hout : tx.output = tx'.output := congrArg (fun tx => tx.output) hstripped
      simp only [fullConnectedBlock, fullConnectedTx, hid, hversion, hlock, hout]
    · intro blk txDb b hb
      obtain ⟨ts, hts, hb⟩ := Outcome.bind_eq_ok.mp hb
      exact ⟨ts, hts, (Outcome.ok.inj hb).symm⟩
    · intro tx txDb t ht
      rwa [FullConnectedTransaction.connect, FullConnectedTransaction.connectBy_eq] at ht

/-! ## The data of a node, and parts of it -/

namespace Stored

variable {rb : RustBitcoin} {enc : ConsensusEncoding} {disk : Disk} {kv : KeyValue}
  {db : BitcoinDB} {chain : List Block} (hstored : Stored rb enc disk kv db chain)
  (hcodec : Decodes rb enc chain) (hlen : db.blockIndex.records.length = chain.length)
  (tgt : Target)
include hstored hcodec hlen

/-- With no record above the chain, the blocks returned are its blocks. -/
theorem chain_of_getBlock {h : Nat} {blk : Block} (hblk : db.getBlock rb tgt disk id h = .ok blk) :
    chain[h]? = some blk := by
  obtain ⟨r, hr, -⟩ := Outcome.bind_eq_ok.mp hblk
  have hlt := (List.getElem?_eq_some_iff.mp (Outcome.ofOption_eq_ok.mp hr)).1
  have hget := List.getElem?_eq_getElem (hlen ▸ hlt)
  have hsame : id chain[h] = blk :=
    Outcome.ok.inj ((hstored.getBlock hcodec tgt id hget).symm.trans hblk)
  exact hget.trans (congrArg some hsame)

/-- With no further txid in the txindex, a txid leads to its transaction only. -/
theorem transaction_of_getTransaction
    (hgenesis : ∀ blk, chain[0]? = some blk → ∃ tx, blk.txdata = [tx] ∧
      rb.computeTxid tx = genesisTxid)
    (honly : ∀ txid value, kv (TxDB.txKey txid) = .ok (some value) →
      ∃ tx ∈ transactions chain, rb.computeTxid tx = txid) {txid : Txid} {tx : Transaction}
    (htx : db.getTransaction rb tgt disk id txid = .ok tx) :
    tx ∈ transactions chain ∧ rb.computeTxid tx = txid := by
  obtain ⟨txDb, htxDb, hkv, hid⟩ := hstored.txDb_eq
  rw [BitcoinDB.getTransaction, htxDb, Outcome.ofOption, Outcome.ok_bind] at htx
  by_cases hgen : txDb.isGenesisTx txid = true
  · rw [if_pos hgen] at htx
    obtain ⟨blk, hblk, htx⟩ := Outcome.bind_eq_ok.mp htx
    have hchain := hstored.chain_of_getBlock hcodec hlen tgt hblk
    obtain ⟨genesis, hdata, hgenesisId⟩ := hgenesis blk hchain
    rw [hdata] at htx
    obtain rfl : genesis = tx := Outcome.ok.inj htx
    have htxid : txid = txDb.genesisTxid := of_decide_eq_true hgen
    refine ⟨mem_transactions.mpr ⟨blk, List.mem_of_getElem? hchain, ?_⟩, ?_⟩
    · rw [hdata]
      exact List.mem_singleton.mpr rfl
    · rw [hgenesisId, htxid, hid]
  · rw [if_neg hgen] at htx
    obtain ⟨txPos, hpos, htx⟩ := Outcome.bind_eq_ok.mp htx
    obtain ⟨tx', hread, htx⟩ := Outcome.bind_eq_ok.mp htx
    obtain rfl : tx' = tx := Outcome.ok.inj htx
    have hvalue : ∃ value, kv (TxDB.txKey txid) = .ok (some value) := by
      rw [TxDB.getTxPosition, hkv] at hpos
      cases hget : kv (TxDB.txKey txid) with
      | error e =>
        rw [hget] at hpos
        cases hpos
      | ok value =>
        cases value with
        | none =>
          rw [hget] at hpos
          cases hpos
        | some value => exact ⟨value, rfl⟩
    obtain ⟨value, hvalue⟩ := hvalue
    obtain ⟨found, hfound, rfl⟩ := honly txid value hvalue
    have hne : rb.computeTxid found ≠ genesisTxid := fun h =>
      hgen (decide_eq_true (h.trans hid.symm))
    obtain ⟨txPos', hpos', hread'⟩ := hstored.findTx hcodec tgt hkv hfound hne
    obtain rfl := Outcome.ok.inj (hpos'.symm.trans hpos)
    obtain rfl := Outcome.ok.inj (hread'.symm.trans hread)
    exact ⟨hfound, rfl⟩

/-- So the data is sound when the chain repeats no txid. -/
theorem sound (hgenesis : ∀ blk, chain[0]? = some blk → ∃ tx, blk.txdata = [tx] ∧
      rb.computeTxid tx = genesisTxid)
    (honly : ∀ txid value, kv (TxDB.txKey txid) = .ok (some value) →
      ∃ tx ∈ transactions chain, rb.computeTxid tx = txid)
    (hdistinct : ((transactions chain).map rb.computeTxid).Nodup)
    (hone : ∀ tx ∈ transactions chain, rb.computeTxid tx = genesisTxid → tx.output.length ≤ 1)
    (hout : OnDisk.DecodesOutputs rb chain) : db.Sound rb tgt disk := by
  have hblock : ∀ h blk, db.getBlock rb tgt disk id h = .ok blk → chain[h]? = some blk :=
    fun _ _ => hstored.chain_of_getBlock hcodec hlen tgt
  have hreads : ∀ tx, db.Reads rb tgt disk tx → tx ∈ transactions chain := by
    rintro tx (⟨h, blk, hblk, htx⟩ | ⟨txid, htx⟩)
    · exact mem_transactions.mpr ⟨blk, List.mem_of_getElem? (hblock h blk hblk), htx⟩
    · exact (hstored.transaction_of_getTransaction hcodec hlen tgt hgenesis honly htx).1
  exact
    { lookup := fun txid tx htx =>
        (hstored.transaction_of_getTransaction hcodec hlen tgt hgenesis honly htx).2
      binds := fun tx tx' htx htx' hid => by
        rw [List.inj_on_of_nodup_map hdistinct (hreads tx htx) (hreads tx' htx') hid]
      genesis := fun tx htx hgen => by
        obtain ⟨txDb, htxDb, -, hid⟩ := hstored.txDb_eq
        rw [BitcoinDB.isGenesisTx, htxDb, Option.any_some, TxDB.isGenesisTx, hid] at hgen
        exact hone tx (hreads tx htx) (of_decide_eq_true hgen)
      outputs := fun h blk hblk tx htx =>
        hout tx (mem_transactions.mpr ⟨blk, List.mem_of_getElem? (hblock h blk hblk), htx⟩) }

end Stored

/-- Data with less in it is sound when the data it is part of is: it has no other answers. -/
theorem BitcoinDB.Extends.sound {rb : RustBitcoin} {tgt : Target} {disk disk' : Disk}
    {db db' : BitcoinDB} (h : db.Extends disk disk' db') (hs : db'.Sound rb tgt disk') :
    db.Sound rb tgt disk := by
  have hkept := queries_of_extended rb tgt disk disk' db db' h
  have hreads : ∀ tx, db.Reads rb tgt disk tx → db'.Reads rb tgt disk' tx := by
    rintro tx (⟨n, blk, hblk, htx⟩ | ⟨txid, htx⟩)
    · exact Or.inl ⟨n, blk, hkept.block id n blk hblk, htx⟩
    · exact Or.inr ⟨txid, hkept.transaction id txid tx htx⟩
  have hgenesis : ∀ txid, db.isGenesisTx txid = true → db'.isGenesisTx txid = true := by
    intro txid hgen
    unfold BitcoinDB.isGenesisTx at hgen ⊢
    cases htxDb : db.txDb with
    | none =>
      rw [htxDb] at hgen
      cases hgen
    | some txDb =>
      obtain ⟨txDb', htxDb', hext⟩ := h.txDb txDb htxDb
      rw [htxDb, Option.any_some] at hgen
      rw [htxDb', Option.any_some, hext.isGenesisTx, hgen]
  exact
    { lookup := fun txid tx htx => hs.lookup txid tx (hkept.transaction id txid tx htx)
      binds := fun tx tx' htx htx' => hs.binds tx tx' (hreads tx htx) (hreads tx' htx')
      genesis := fun tx htx hgen => hs.genesis tx (hreads tx htx) (hgenesis _ hgen)
      outputs := fun n blk hblk => hs.outputs n blk (hkept.block id n blk hblk) }

/-- The txindex of the three blocks without the transaction of the last one. -/
def sparseTxIndex : KeyValue := fun key =>
  if key = TxDB.txKey block1Header.merkleRoot then .ok (some (diskTxPos 0 301 1)) else .ok none

/-- The database that is opened with it. -/
def sparseDb : BitcoinDB :=
  { storedDb with txDb := TxDB.openAt (some sparseTxIndex) storedDb.blockIndex }

theorem storedTxIndex_of_sparse {key value : List UInt8}
    (h : sparseTxIndex key = .ok (some value)) : storedTxIndex key = .ok (some value) := by
  unfold sparseTxIndex at h
  split at h
  · next hkey => rw [storedTxIndex, if_pos hkey, h]
  · cases h

theorem sparseDb_extends : sparseDb.Extends storedDisk storedDisk storedDb where
  blkFile _ bytes h := ⟨[], by rw [List.append_nil]; exact h⟩
  records := List.prefix_rfl
  hashToHeight _ _ h := h
  txDb txDb h := by
    obtain rfl := Option.some.inj h
    exact ⟨_, rfl, rfl, fun _ _ => storedTxIndex_of_sparse, fun _ _ h => h⟩

theorem storedDb_sound : storedDb.Sound storedBitcoin ⟨true, true⟩ storedDisk := by
  refine storedChain_stored.sound storedChain_decodes rfl ⟨true, true⟩ storedChain_genesis ?_
    (by decide +kernel) (by decide +kernel) (by unfold OnDisk.DecodesOutputs; decide +kernel)
  intro txid value hvalue
  have hkey : ∀ txid', TxDB.txKey txid = TxDB.txKey txid' → txid' = txid := fun txid' h =>
    (asByteArray_inj (List.cons.inj h).2).symm
  unfold storedTxIndex at hvalue
  split at hvalue
  · next h => exact ⟨block1Tx, by decide +kernel, hkey _ h ▸ by decide +kernel⟩
  · split at hvalue
    · next h => exact ⟨block2Tx, by decide +kernel, hkey _ h ▸ by decide +kernel⟩
    · cases hvalue

/-- Without the last transaction in the txindex, `get_transaction` does not find it. -/
theorem answers_agree_sparseDb :
    sparseDb.getTransaction storedBitcoin ⟨true, true⟩ storedDisk id
        (storedBitcoin.computeTxid block2Tx) =
      .err (.transactionRecordNotFound (storedBitcoin.computeTxid block2Tx)) ∧
    AnswersAgree storedBitcoin ⟨true, true⟩ storedDisk sparseDb
        (compactConnectedBlock storedBitcoin)
        (CompactConnectedBlock.connect storedBitcoin ⟨true, true⟩ storedDisk)
        (CompactConnectedTransaction.connect storedBitcoin ⟨true, true⟩ storedDisk)
        CompactConnectedBlock.txdata ∧
      AnswersAgree storedBitcoin ⟨true, true⟩ storedDisk sparseDb
        (fullConnectedBlock storedBitcoin)
        (FullConnectedBlock.connect storedBitcoin ⟨true, true⟩ storedDisk)
        (FullConnectedTransaction.connect storedBitcoin ⟨true, true⟩ storedDisk)
        FullConnectedBlock.txdata :=
  ⟨by decide +kernel, answers_agree storedBitcoin ⟨true, true⟩ storedDisk sparseDb
    (sparseDb_extends.sound storedDb_sound)⟩

end BitcoinExplorer
