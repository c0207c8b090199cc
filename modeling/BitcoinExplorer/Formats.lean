import BitcoinExplorer.Api
import Mathlib.Data.List.Basic

/-!
# The compact formats as views of the full ones

Every query is generic in the format of its result. A compact value keeps some of the fields of the
full one, so it should not matter whether a block is queried in the compact format, or in the full
one and then reduced. `ConnectedBlock.Hom` says what a reduction must respect for that, in terms of
the trait methods alone.

* `compactHom`: dropping the other fields is such a reduction of `FullConnectedBlock`.
* `connectBlockInputs_hom`: connecting through the txindex respects every reduction, also where it
  fails.
* **`formats_agree`**: on any database, each query in the compact format is the reduced query in the
  full one, errors and panics included.
-/

namespace BitcoinExplorer

open Rust

variable {Blk Tx Out Blk' Tx' Out' : Type}

/-- A reduction of one format of connected transactions to another. -/
structure ConnectedTx.Hom (CT : ConnectedTx Tx Out) (CT' : ConnectedTx Tx' Out') where
  out : Out → Out'
  tx : Tx → Tx'
  into : ∀ o, out (CT.into o) = CT'.into o
  ofTx : ∀ t, tx (CT.ofTx t) = CT'.ofTx t
  addInput : ∀ t o, tx (CT.addInput t o) = CT'.addInput (tx t) (out o)

/-- A reduction of one format of connected blocks to another. -/
structure ConnectedBlock.Hom (CB : ConnectedBlock Blk Tx Out) (CB' : ConnectedBlock Blk' Tx' Out')
    where
  tx : CB.tx.Hom CB'.tx
  blk : Blk → Blk'
  ofHeader : ∀ header hash, blk (CB.ofHeader header hash) = CB'.ofHeader header hash
  addTx : ∀ b t, blk (CB.addTx b t) = CB'.addTx (blk b) (tx.tx t)

/-! ## The fields the compact formats keep -/

/-- The compact header. -/
def FullBlockHeader.toCompact (h : FullBlockHeader) : CompactBlockHeader :=
  { blockHash := h.blockHash, time := h.time }

/-- The compact output. -/
def FullTxOut.toCompact (out : FullTxOut) : CompactTxOut :=
  { value := out.value, addresses := out.addresses }

/-- The compact transaction. -/
def FullTransaction.toCompact (tx : FullTransaction) : CompactTransaction :=
  { txid := tx.txid
    input := tx.input.map CompactTxIn.ofTxIn
    output := tx.output.map FullTxOut.toCompact }

/-- The compact block. -/
def FullBlock.toCompact (blk : FullBlock) : CompactBlock :=
  { header := blk.header.toCompact, txdata := blk.txdata.map FullTransaction.toCompact }

/-- The compact connected transaction. -/
def FullConnectedTransaction.toCompact (tx : FullConnectedTransaction) :
    CompactConnectedTransaction :=
  { txid := tx.txid
    input := tx.input.map FullTxOut.toCompact
    output := tx.output.map FullTxOut.toCompact }

/-- The compact connected block. -/
def FullConnectedBlock.toCompact (blk : FullConnectedBlock) : CompactConnectedBlock :=
  { header := blk.header.toCompact, txdata := blk.txdata.map FullConnectedTransaction.toCompact }

variable {rb : RustBitcoin}

/-- The outputs of a transaction. -/
theorem toCompact_outputs (outs : List TxOut) :
    (outs.map (FullTxOut.ofTxOut rb)).map FullTxOut.toCompact =
      outs.map (CompactTxOut.ofTxOut rb) := by
  rw [List.map_map]
  rfl

theorem FullTransaction.toCompact_ofTransaction (tx : Transaction) :
    (FullTransaction.ofTransaction rb tx).toCompact = CompactTransaction.ofTransaction rb tx := by
  unfold FullTransaction.ofTransaction CompactTransaction.ofTransaction FullTransaction.toCompact
  dsimp only
  rw [toCompact_outputs]
  -- the inputs of a coinbase transaction are dropped by both conversions
  split <;> rfl

theorem FullBlock.toCompact_ofBlock (block : Block) :
    (FullBlock.ofBlock rb block).toCompact = CompactBlock.ofBlock rb block := by
  unfold FullBlock.ofBlock CompactBlock.ofBlock FullBlock.toCompact
  dsimp only
  rw [List.map_map]
  exact congrArg _ (List.map_congr_left fun tx _ => FullTransaction.toCompact_ofTransaction tx)

/-- Dropping the other fields reduces the full format to the compact one. -/
def compactTxHom (rb : RustBitcoin) : (fullConnectedTx rb).Hom (compactConnectedTx rb) where
  out := FullTxOut.toCompact
  tx := FullConnectedTransaction.toCompact
  into _ := rfl
  ofTx t := by
    unfold fullConnectedTx compactConnectedTx FullConnectedTransaction.toCompact
    dsimp only
    rw [toCompact_outputs, List.map_nil]
  addInput t o := by
    unfold fullConnectedTx compactConnectedTx FullConnectedTransaction.toCompact
    dsimp only
    rw [List.map_append, List.map_singleton]

/-- The same for blocks. -/
def compactHom (rb : RustBitcoin) : (fullConnectedBlock rb).Hom (compactConnectedBlock rb) where
  tx := compactTxHom rb
  blk := FullConnectedBlock.toCompact
  ofHeader _ _ := rfl
  addTx b t := by
    unfold fullConnectedBlock compactConnectedBlock FullConnectedBlock.toCompact
    dsimp only
    rw [List.map_append, List.map_singleton]
    rfl

/-! ## Connecting through the txindex -/

section

variable {CT : ConnectedTx Tx Out} {CT' : ConnectedTx Tx' Out'}

theorem ConnectedTx.Hom.foldl_addInput (F : CT.Hom CT') : ∀ (outputs : List TxOut) (t : Tx),
    F.tx (outputs.foldl (fun t output => CT.addInput t (CT.into output)) t) =
      outputs.foldl (fun t output => CT'.addInput t (CT'.into output)) (F.tx t)
  | [], _ => rfl
  | out :: outputs, t => by
    rw [List.foldl_cons, List.foldl_cons, F.foldl_addInput outputs, F.addInput, F.into]

/-- Reconstructing the transactions of a block. -/
theorem reconstruct_hom (F : CT.Hom CT') : ∀ (txs : List Transaction) (outs : List (Option TxOut)),
    reconstruct CT' txs outs = List.map F.tx <$> reconstruct CT txs outs
  | [], _ => rfl
  | tx :: txs, outs => by
    unfold reconstruct
    cases popOutputs tx.input outs with
    | err e => rfl
    | panic => rfl
    | ok p =>
      obtain ⟨outputs, rest⟩ := p
      rw [Outcome.ok_bind, Outcome.ok_bind]
      dsimp only
      generalize (if tx.isCoinbase = true then 0 else tx.input.length) = outpointsCount
      by_cases hlen : outputs.length ≠ outpointsCount
      · rw [if_pos hlen, if_pos hlen]
        rfl
      · rw [if_neg hlen, if_neg hlen, reconstruct_hom F txs rest, ← F.ofTx, ← F.foldl_addInput]
        cases reconstruct CT txs rest <;> rfl

/-- **Connecting the inputs of a block respects a reduction**, whatever the lookup finds. -/
theorem connectBlockInputs_hom (F : CT.Hom CT') (connect : TxIn → Outcome Error (Option TxOut))
    (txs : List Transaction) :
    connectBlockInputs CT' connect txs = List.map F.tx <$> connectBlockInputs CT connect txs := by
  unfold connectBlockInputs
  dsimp only
  rw [map_bind]
  exact congrArg (List.mapM connect _ >>= ·) (funext (reconstruct_hom F txs))

end

/-! ## The queries -/

section

variable {T T' : Type} (tgt : Target) (disk : Disk) (db : BitcoinDB)

theorem getBlock_map (f : T → T') (into : Block → T) (height : Nat) :
    db.getBlock rb tgt disk (f ∘ into) height = f <$> db.getBlock rb tgt disk into height := by
  unfold BitcoinDB.getBlock
  simp only [map_bind]
  rfl

theorem getTransaction_map (f : T → T') (into : Transaction → T) (txid : Txid) :
    db.getTransaction rb tgt disk (f ∘ into) txid =
      f <$> db.getTransaction rb tgt disk into txid := by
  unfold BitcoinDB.getTransaction
  rw [map_bind]
  refine congrArg _ (funext fun txDb => ?_)
  split
  · simp only [map_bind]
    rfl
  · simp only [map_bind]
    rfl

theorem getConnectedBlock_map (f : T → T')
    {connect : Block → TxDB → BlockIndex → BlkFile → Outcome Error T}
    {connect' : Block → TxDB → BlockIndex → BlkFile → Outcome Error T'}
    (h : ∀ blk txDb index file, connect' blk txDb index file = f <$> connect blk txDb index file)
    (height : Nat) :
    db.getConnectedBlock rb tgt disk connect' height =
      f <$> db.getConnectedBlock rb tgt disk connect height := by
  unfold BitcoinDB.getConnectedBlock
  simp only [map_bind, h]

theorem getConnectedTransaction_map (f : T → T')
    {connect : Transaction → TxDB → BlockIndex → BlkFile → Outcome Error T}
    {connect' : Transaction → TxDB → BlockIndex → BlkFile → Outcome Error T'}
    (h : ∀ tx txDb index file, connect' tx txDb index file = f <$> connect tx txDb index file)
    (txid : Txid) :
    db.getConnectedTransaction rb tgt disk connect' txid =
      f <$> db.getConnectedTransaction rb tgt disk connect txid := by
  unfold BitcoinDB.getConnectedTransaction
  simp only [map_bind, h]

theorem FullConnectedBlock.toCompact_connect (blk : Block) (txDb : TxDB) (index : BlockIndex)
    (file : BlkFile) : CompactConnectedBlock.connect rb tgt disk blk txDb index file =
      FullConnectedBlock.toCompact <$>
        FullConnectedBlock.connect rb tgt disk blk txDb index file := by
  unfold CompactConnectedBlock.connect FullConnectedBlock.connect
  dsimp only
  rw [connectBlockInputs_hom (compactTxHom rb), map_bind]
  cases connectBlockInputs (fullConnectedTx rb) (connectInput rb tgt disk txDb index file)
    blk.txdata <;> rfl

theorem FullConnectedTransaction.toCompact_connect (tx : Transaction) (txDb : TxDB)
    (index : BlockIndex) (file : BlkFile) :
    CompactConnectedTransaction.connect rb tgt disk tx txDb index file =
      FullConnectedTransaction.toCompact <$>
        FullConnectedTransaction.connect rb tgt disk tx txDb index file := by
  unfold CompactConnectedTransaction.connect FullConnectedTransaction.connect
    CompactConnectedTransaction.connectBy FullConnectedTransaction.connectBy
  rw [map_bind]
  refine congrArg _ (funext fun input => ?_)
  change _ = Outcome.ok (FullConnectedTransaction.toCompact _)
  unfold FullConnectedTransaction.toCompact
  rw [toCompact_outputs, toCompact_outputs]

end

/-- **The compact queries are the reduced full queries.** On any database over any disk, for every
argument: `get_block`, `get_transaction`, `get_connected_block` and `get_connected_transaction`
return in the compact format what they return in the full one with the other fields dropped, and
fail or panic together. -/
theorem formats_agree (rb : RustBitcoin) (tgt : Target) (disk : Disk) (db : BitcoinDB) :
    (∀ height, db.getBlock rb tgt disk (CompactBlock.ofBlock rb) height =
      FullBlock.toCompact <$> db.getBlock rb tgt disk (FullBlock.ofBlock rb) height) ∧
    (∀ txid, db.getTransaction rb tgt disk (CompactTransaction.ofTransaction rb) txid =
      FullTransaction.toCompact <$>
        db.getTransaction rb tgt disk (FullTransaction.ofTransaction rb) txid) ∧
    (∀ height, db.getConnectedBlock rb tgt disk (CompactConnectedBlock.connect rb tgt disk) height =
      FullConnectedBlock.toCompact <$>
        db.getConnectedBlock rb tgt disk (FullConnectedBlock.connect rb tgt disk) height) ∧
    ∀ txid, db.getConnectedTransaction rb tgt disk
        (CompactConnectedTransaction.connect rb tgt disk) txid =
      FullConnectedTransaction.toCompact <$>
        db.getConnectedTransaction rb tgt disk (FullConnectedTransaction.connect rb tgt disk)
          txid := by
  refine ⟨fun height => ?_, fun txid => ?_, fun height => ?_, fun txid => ?_⟩
  · rw [← getBlock_map]
    exact congrArg (db.getBlock rb tgt disk · height)
      (funext fun blk => (FullBlock.toCompact_ofBlock blk).symm)
  · rw [← getTransaction_map]
    exact congrArg (db.getTransaction rb tgt disk · txid)
      (funext fun tx => (FullTransaction.toCompact_ofTransaction tx).symm)
  · exact getConnectedBlock_map tgt disk db _ (FullConnectedBlock.toCompact_connect tgt disk) height
  · exact getConnectedTransaction_map tgt disk db _
      (FullConnectedTransaction.toCompact_connect tgt disk) txid

end BitcoinExplorer
