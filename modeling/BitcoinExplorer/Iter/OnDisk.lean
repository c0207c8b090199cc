import BitcoinExplorer.Iter.Ledger
import BitcoinExplorer.Lib.Pipeline

/-!
# `src/iter/fetch_connected_async.rs`: `on_disk_utxo`

The unspent outputs live in a RocksDB, one entry for each output, keyed by the txid and the output's
index. The database is a map; its operations are the atomic batch write, `multi_get` and `delete`.

* `connectOutpoints_run`, `updateUnspentCache_run`: what the two stages do when they run alone, from
  any database.
-/

namespace BitcoinExplorer

open Rust Conc SpendMap

namespace OnDisk

/-- The operations on the database. -/
inductive Op where
  /-- `DB::write_without_wal`. -/
  | write (batch : List (List UInt8 × List UInt8))
  /-- `DB::multi_get`. -/
  | multiGet (keys : List (List UInt8))
  /-- `DB::delete`. -/
  | delete (key : List UInt8)

/-- The responses: a `Result` whose error only reaches the log. -/
def Op.Res : Op → Type
  | .write _ => Except Unit Unit
  | .multiGet _ => List (Except Unit (Option (List UInt8)))
  | .delete _ => Except Unit Unit

/-- RocksDB: a map, whose operations succeed. -/
abbrev rocksDB : Machine where
  State := List UInt8 → Option (List UInt8)
  Op := Op
  Res := Op.Res
  exec
    | .write batch, db => (.ok (), putAll db batch)
    | .multiGet keys, db => (keys.map fun key => .ok (db key), db)
    | .delete key, db => (.ok (), Function.update db key none)

section

variable (rb : RustBitcoin) (tgt : Target)

/-- `txout_key`. -/
def txoutKey (txid : Txid) (n : UInt32) : List UInt8 :=
  asByteArray txid ++ Bytes.neBytes tgt.littleEndian 4 n.toNat

/-- The batch `update_unspent_cache` writes. -/
def newOutputs (block : Block) : List (List UInt8 × List UInt8) :=
  block.txdata.flatMap fun tx =>
    let txid := rb.computeTxid tx
    tx.output.zipIdx.map fun p => (txoutKey tgt txid (UInt32.ofNat p.2), rb.encodeTxOut p.1)

/-- `update_unspent_cache`. -/
def updateUnspentCache (getBlock : Nat → Outcome Error Block) (height : Nat) :
    Prog rocksDB (Outcome Unit Block) :=
  match (getBlock height).mapErr fun _ => () with
  | .err e => .ret (.err e)
  | .panic => .ret .panic
  | .ok block =>
    .op (.write (newOutputs rb tgt block)) fun
      | .ok _ => .ret (.ok block)
      | .error _ => .ret (.err ())

/-- The keys `connect_outpoints` collects. -/
def outpointKeys (block : Block) : List (List UInt8) :=
  block.txdata.flatMap fun tx =>
    tx.input.filterMap fun input =>
      if input.previousOutput.isNull then none
      else some (txoutKey tgt input.previousOutput.txid input.previousOutput.vout)

/-- The loop that removes the keys. -/
def deleteKeys : List (List UInt8) → Prog rocksDB (Outcome Unit Unit)
  | [] => .ret (.ok ())
  | key :: keys => .op (.delete key) fun
    | .ok _ => deleteKeys keys
    | .error _ => .ret (.err ())

/-- `prev_txo`: one item of `multi_get`, decoded. -/
def prevTxo : Except Unit (Option (List UInt8)) → Option TxOut
  | .ok (some bytes) => rb.decodeTxOut bytes
  | .ok none => none
  | .error _ => none

variable {Blk Tx Out : Type}

/-- The loop over the inputs of a transaction; `pos` is the read position in `tx_outs`. -/
def inputLoop (CT : ConnectedTx Tx Out) (txOuts : List (Except Unit (Option (List UInt8)))) :
    List TxIn → Tx → Nat → Outcome Unit (Tx × Nat)
  | [], outputTx, pos => .ok (outputTx, pos)
  | input :: inputs, outputTx, pos =>
    if input.previousOutput.isNull then inputLoop CT txOuts inputs outputTx pos
    else
      match txOuts[pos]? with
      | none => .panic
      | some item =>
        match prevTxo rb item with
        | some out => inputLoop CT txOuts inputs (CT.addInput outputTx (CT.into out)) (pos + 1)
        | none => .err ()

/-- The loop over the transactions of a block. -/
def txLoop (CB : ConnectedBlock Blk Tx Out) (txOuts : List (Except Unit (Option (List UInt8)))) :
    List Transaction → Blk → Nat → Outcome Unit Blk
  | [], outputBlock, _ => .ok outputBlock
  | tx :: txs, outputBlock, pos => do
    let (outputTx, pos) ← inputLoop rb CB.tx txOuts tx.input (CB.tx.ofTx tx) pos
    txLoop CB txOuts txs (CB.addTx outputBlock outputTx) pos

/-- `connect_outpoints`. -/
def connectOutpoints (CB : ConnectedBlock Blk Tx Out) (block : Block) :
    Prog rocksDB (Outcome Unit Blk) :=
  let blockHash := rb.blockHash block.header
  let outputBlock := CB.ofHeader block.header blockHash
  let keys := outpointKeys tgt block
  .op (.multiGet keys) fun txOuts =>
    (deleteKeys keys).andThen fun _ => .ret (txLoop rb CB txOuts block.txdata outputBlock 0)

/-- `ConnectedBlockIter::new`: the two stages over an empty cache. -/
def connectedBlockIter (CB : ConnectedBlock Blk Tx Out) (getBlock : Nat → Outcome Error Block)
    (endHeight : Nat) : Pipeline rocksDB Unit Block Blk where
  len := endHeight
  stage1 := updateUnspentCache rb tgt getBlock
  stage2 := connectOutpoints rb tgt CB

/-- The new database of the iterator. -/
def emptyCache : rocksDB.State := fun _ => none

end

variable {rb : RustBitcoin} {tgt : Target} {Blk Tx Out : Type}

/-! ## Keys -/

/-- The key of an outpoint. -/
def outpointKey (tgt : Target) (o : OutPoint) : List UInt8 := txoutKey tgt o.txid o.vout

/-- **Different outpoints have different keys.** -/
theorem outpointKey_injective : Function.Injective (outpointKey tgt) := by
  rintro ⟨txid, vout⟩ ⟨txid', vout'⟩ h
  unfold outpointKey txoutKey at h
  obtain ⟨hid, hn⟩ := List.append_inj h (by simp)
  have hv : vout.toNat = vout'.toNat := Bytes.neBytes_inj vout.toNat_lt vout'.toNat_lt hn
  obtain rfl : txid = txid' := asByteArray_inj hid
  rw [UInt32.toNat_inj.mp hv]

/-- The keys collected from a block are those of the outpoints it spends. -/
theorem outpointKeys_eq (block : Block) :
    outpointKeys tgt block = block.spends.map (outpointKey tgt) := by
  unfold outpointKeys Block.spends
  rw [List.map_flatMap]
  refine congrArg (fun g => List.flatMap g block.txdata) (funext fun tx => ?_)
  unfold spends
  rw [List.map_filterMap]
  refine congrArg (fun g => List.filterMap g tx.input) (funext fun input => ?_)
  split <;> rfl

/-- The batch holds the outputs the block creates. -/
theorem newOutputs_eq (block : Block) :
    newOutputs rb tgt block =
      (block.creates rb).map fun e => (outpointKey tgt e.1, rb.encodeTxOut e.2) := by
  unfold newOutputs Block.creates creates
  rw [List.map_flatMap]
  refine congrArg (fun g => List.flatMap g block.txdata) (funext fun tx => ?_)
  rw [List.map_map]
  rfl

/-- Decoding undoes encoding on the outputs of a chain. -/
def DecodesOutputs (rb : RustBitcoin) (chain : List Block) : Prop :=
  ∀ tx ∈ transactions chain, ∀ out ∈ tx.output, rb.decodeTxOut (rb.encodeTxOut out) = some out

/-! ## The two stages run alone -/

/-- The outputs a database holds, decoded. -/
def readCache (rb : RustBitcoin) (tgt : Target) (db : rocksDB.State) : Ledger :=
  fun o => (db (outpointKey tgt o)).bind rb.decodeTxOut

theorem deleteKeys_run (keys : List (List UInt8)) (db : rocksDB.State) :
    (deleteKeys keys).run db = (.ok (), eraseAll db keys) := by
  induction keys generalizing db with
  | nil => rw [deleteKeys, Prog.run_ret, eraseAll_nil]
  | cons key keys ih =>
    rw [deleteKeys, Prog.run_op, eraseAll_cons]
    exact ih _

/-- The input loop adds the outputs of the read items, from the read position on. -/
theorem inputLoop_eq (CT : ConnectedTx Tx Out) {txOuts : List (Except Unit (Option (List UInt8)))}
    {f : Ledger} : ∀ {inputs : List TxIn} {tx : Tx} {pos : Nat} {rest : List (Option TxOut)},
    (txOuts.drop pos).map (prevTxo rb) = (spends inputs).map f ++ rest →
    inputLoop rb CT txOuts inputs tx pos = .ofOption ()
      ((CT.addInputs f (spends inputs) tx).map fun t => (t, pos + (spends inputs).length))
  | [], tx, pos, rest, _ => rfl
  | input :: inputs, tx, pos, rest, h => by
    unfold inputLoop
    by_cases hnull : input.previousOutput.isNull = true
    · rw [spends_cons_null hnull] at h ⊢
      rw [if_pos hnull]
      exact inputLoop_eq CT h
    · rw [if_neg hnull]
      rw [spends_cons (by simpa using hnull)] at h ⊢
      rw [List.map_cons, List.cons_append] at h
      obtain ⟨item, items, hdrop, hitem, hitems⟩ := List.map_eq_cons_iff.mp h
      have hget : txOuts[pos]? = some item := by
        rw [← List.head?_drop, hdrop, List.head?_cons]
      have hnext : txOuts.drop (pos + 1) = items := by
        rw [← List.drop_drop, hdrop, List.drop_one, List.tail_cons]
      rw [hget, ConnectedTx.addInputs_cons]
      dsimp only
      rw [hitem]
      cases f input.previousOutput with
      | none => rfl
      | some out =>
        dsimp only
        rw [inputLoop_eq CT (by rw [hnext]; exact hitems), Option.bind_some, List.length_cons,
          Nat.add_right_comm, Nat.add_assoc]

/-- The transaction loop connects the transactions with the outputs of the read items. -/
theorem txLoop_eq (CB : ConnectedBlock Blk Tx Out)
    {txOuts : List (Except Unit (Option (List UInt8)))} {f : Ledger} :
    ∀ {txs : List Transaction} {b : Blk} {pos : Nat},
    (txOuts.drop pos).map (prevTxo rb) = (txs.flatMap fun tx => spends tx.input).map f →
    txLoop rb CB txOuts txs b pos = .ofOption () (CB.addTxs f txs b)
  | [], b, pos, _ => rfl
  | tx :: txs, b, pos, h => by
    rw [List.flatMap_cons, List.map_append] at h
    unfold txLoop
    rw [inputLoop_eq CB.tx h, ConnectedBlock.addTxs_cons, ConnectedTx.connectWith]
    cases CB.tx.addInputs f (spends tx.input) (CB.tx.ofTx tx) with
    | none => rfl
    | some t =>
      rw [Option.map_some, Option.bind_some]
      refine txLoop_eq CB (f := f) ?_
      rw [← List.drop_drop, List.map_drop, h]
      exact List.drop_left' (List.length_map _)

/-- The items `multi_get` returns for a block, decoded, are what the database holds. -/
theorem prevTxo_multiGet (db : rocksDB.State) (block : Block) :
    ((outpointKeys tgt block).map fun key => (.ok (db key) : Except Unit (Option (List UInt8)))).map
      (prevTxo rb) = block.spends.map (readCache rb tgt db) := by
  rw [outpointKeys_eq, List.map_map, List.map_map]
  refine congrArg (fun g => List.map g block.spends) (funext fun o => ?_)
  simp only [Function.comp_apply, readCache]
  cases db (outpointKey tgt o) <;> rfl

/-- What the read of a block and the loops over it compute. -/
theorem txLoop_multiGet (CB : ConnectedBlock Blk Tx Out) (db : rocksDB.State) (block : Block) :
    txLoop rb CB ((outpointKeys tgt block).map fun key => .ok (db key)) block.txdata
      (CB.ofHeader block.header (rb.blockHash block.header)) 0 =
      .ofOption () (CB.connectWith rb (readCache rb tgt db) block) :=
  txLoop_eq CB (prevTxo_multiGet db block)

/-- **`connect_outpoints` alone** connects the block with the outputs the database holds, and
deletes what the block spends, whether or not it found everything. -/
theorem connectOutpoints_run (CB : ConnectedBlock Blk Tx Out) (block : Block) (db : rocksDB.State) :
    (connectOutpoints rb tgt CB block).run db =
      (.ofOption () (CB.connectWith rb (readCache rb tgt db) block),
        eraseAll db (outpointKeys tgt block)) := by
  unfold connectOutpoints
  rw [Prog.run_op, Prog.run_andThen_ok (deleteKeys_run _ _), Prog.run_ret]
  exact congrArg (·, _) (txLoop_multiGet CB db block)

/-- **`update_unspent_cache` alone** puts the outputs the block creates. -/
theorem updateUnspentCache_run {getBlock : Nat → Outcome Error Block} {height : Nat} {block : Block}
    (h : getBlock height = .ok block) (db : rocksDB.State) :
    (updateUnspentCache rb tgt getBlock height).run db =
      (.ok block, putAll db (newOutputs rb tgt block)) := by
  unfold updateUnspentCache
  rw [h]
  rfl

end OnDisk

end BitcoinExplorer
