import BitcoinExplorer.Parser.BlkFile
import BitcoinExplorer.Parser.BlockTypes
import BitcoinExplorer.Parser.TxIndex

/-!
# `src/parser/block_types/connected_block.rs`: connecting through the txindex

`connect_input` looks one previous output up on disk; `connect_block_inputs` and `connect_tx_inputs`
connect all inputs of a block or a transaction. They call `connect_input` on every input in parallel
and collect the results in order, so a panic of any call is a panic of the whole; here they take the
call as a parameter, and the `connect` methods of the two formats pass `connectInput`.

* **`connectBlockInputs_eq_mapM`**: collecting all inputs of the block and handing them out again is
  connecting its transactions one by one.
-/

namespace BitcoinExplorer

open Rust

/-- What `Vec::swap_remove` returns. -/
def swapRemove {ε α : Type} (l : List α) (index : Nat) : Outcome ε α :=
  match l[index]? with
  | some a => .ok a
  | none => .panic

/-- `is_coin_base`. -/
def isCoinBase (txIn : TxIn) : Bool := txIn.previousOutput.isNull

/-- `connect_input`. The result is an `Option`, so the outcome is never an `Err`. -/
def connectInput (rb : RustBitcoin) (tgt : Target) (disk : Disk) (txDb : TxDB)
    (blkIndex : BlockIndex) (blkFile : BlkFile) (txIn : TxIn) : Outcome Error (Option TxOut) :=
  if isCoinBase txIn then .ok none
  else
    let outpoint := txIn.previousOutput
    let txId := outpoint.txid
    if txDb.isGenesisTx txId then
      match blkIndex.records.head? with
      | none => .ok none
      | some pos =>
        match blkFile.readBlock rb tgt disk pos.nFile pos.nDataPos with
        | .ok blk => do
          let tx ← swapRemove blk.txdata 0
          let out ← swapRemove tx.output 0
          .ok (some out)
        | .err _ => .ok none
        | .panic => .panic
    else
      let n := outpoint.vout
      match txDb.getTxPosition tgt txId with
      | .ok txPos =>
        match blkFile.readTransaction rb disk txPos.nFile txPos.nDataPos txPos.nTxOffset with
        | .ok tx =>
          let len := tx.output.length
          if n ≥ UInt32.ofNat len then .ok none
          else do
            let out ← swapRemove tx.output n.toNat
            .ok (some out)
        | .err _ => .ok none
        | .panic => .panic
      | .err _ => .ok none
      | .panic => .panic

/-- For the genesis transaction the block of record 0 is read, and its first output returned. -/
theorem connectInput_genesis {rb : RustBitcoin} {tgt : Target} {disk : Disk} {txDb : TxDB}
    {blkIndex : BlockIndex} {blkFile : BlkFile} {txIn : TxIn}
    (hnull : txIn.previousOutput.isNull = false)
    (hgen : txDb.isGenesisTx txIn.previousOutput.txid = true) :
    connectInput rb tgt disk txDb blkIndex blkFile txIn =
      match blkIndex.records[0]? with
      | none => .ok none
      | some pos =>
        match blkFile.readBlock rb tgt disk pos.nFile pos.nDataPos with
        | .ok blk => do
          let tx ← swapRemove blk.txdata 0
          let out ← swapRemove tx.output 0
          .ok (some out)
        | .err _ => .ok none
        | .panic => .panic := by
  rw [connectInput, isCoinBase, hnull, if_neg Bool.false_ne_true, ← List.head?_eq_getElem?]
  exact if_pos hgen

/-- Once that block is read, its output 0 is returned whatever the outpoint names. -/
theorem connectInput_of_block {rb : RustBitcoin} {tgt : Target} {disk : Disk} {txDb : TxDB}
    {blkIndex : BlockIndex} {blkFile : BlkFile} {txIn : TxIn}
    (hnull : txIn.previousOutput.isNull = false)
    (hgen : txDb.isGenesisTx txIn.previousOutput.txid = true) {pos : BlockIndexRecord}
    (hpos : blkIndex.records[0]? = some pos) {blk : Block}
    (hread : blkFile.readBlock rb tgt disk pos.nFile pos.nDataPos = .ok blk) {tx : Transaction}
    (htx : blk.txdata[0]? = some tx) {out : TxOut} (hout : tx.output[0]? = some out) :
    connectInput rb tgt disk txDb blkIndex blkFile txIn = .ok (some out) := by
  rw [connectInput_genesis hnull hgen, hpos]
  dsimp only
  rw [hread]
  dsimp only
  rw [swapRemove, htx, Outcome.ok_bind, swapRemove, hout, Outcome.ok_bind]

/-- In a transaction found through the txindex, the output of the outpoint is returned if there is
one. -/
theorem connectInput_of_found {rb : RustBitcoin} {tgt : Target} {disk : Disk} {txDb : TxDB}
    {blkIndex : BlockIndex} {blkFile : BlkFile} {txIn : TxIn}
    (hnull : txIn.previousOutput.isNull = false)
    (hgen : txDb.isGenesisTx txIn.previousOutput.txid = false) {txPos : TransactionPosition}
    (hpos : txDb.getTxPosition tgt txIn.previousOutput.txid = .ok txPos) {tx : Transaction}
    (hread : blkFile.readTransaction rb disk txPos.nFile txPos.nDataPos txPos.nTxOffset = .ok tx) :
    connectInput rb tgt disk txDb blkIndex blkFile txIn =
      .ok tx.output[txIn.previousOutput.vout.toNat]? := by
  -- the cast of the length keeps it
  have hrange : txIn.previousOutput.vout ≥ UInt32.ofNat tx.output.length ↔
      tx.output.length ≤ txIn.previousOutput.vout.toNat := by
    rw [ge_iff_le, UInt32.le_iff_toNat_le, UInt32.toNat_ofNat_of_lt' tx.output_lt]
  rw [connectInput, isCoinBase, hnull, if_neg Bool.false_ne_true]
  dsimp only
  rw [hgen, if_neg Bool.false_ne_true, hpos]
  dsimp only
  rw [hread]
  dsimp only
  by_cases hlen : tx.output.length ≤ txIn.previousOutput.vout.toNat
  · rw [if_pos (hrange.mpr hlen), List.getElem?_eq_none hlen]
  · rw [if_neg (mt hrange.mp hlen), swapRemove, List.getElem?_eq_getElem (by omega),
      Outcome.ok_bind]

section

variable {Tx Out : Type} (CT : ConnectedTx Tx Out) (connect : TxIn → Outcome Error (Option TxOut))

/-- The loop `for _ in &tx.input`: one `pop_front().unwrap()` for each input. -/
def popOutputs : List TxIn → List (Option TxOut) → Outcome Error (List TxOut × List (Option TxOut))
  | [], connectedOutputs => .ok ([], connectedOutputs)
  | _ :: _, [] => .panic
  | _ :: input, connectedOut :: connectedOutputs => do
    let (outputs, connectedOutputs) ← popOutputs input connectedOutputs
    match connectedOut with
    | some out => .ok (out :: outputs, connectedOutputs)
    | none => .ok (outputs, connectedOutputs)

/-- The loop `for tx in transactions` that reconstructs the block. -/
def reconstruct : List Transaction → List (Option TxOut) → Outcome Error (List Tx)
  | [], _ => .ok []
  | tx :: transactions, connectedOutputs => do
    let outpointsCount := if tx.isCoinbase then 0 else tx.input.length
    let (outputs, connectedOutputs) ← popOutputs tx.input connectedOutputs
    if outputs.length ≠ outpointsCount then
      .err (.missingOutputs outpointsCount outputs.length)
    else do
      let connectedTx := outputs.foldl (fun t output => CT.addInput t (CT.into output)) (CT.ofTx tx)
      let rest ← reconstruct transactions connectedOutputs
      .ok (connectedTx :: rest)

/-- `connect_block_inputs`. -/
def connectBlockInputs (transactions : List Transaction) : Outcome Error (List Tx) := do
  let allTxIn := transactions.flatMap Transaction.input
  let connectedOutputs ← allTxIn.mapM connect
  reconstruct CT transactions connectedOutputs

/-- `connect_tx_inputs`. -/
def connectTxInputs (txIn : List TxIn) (isCoinbase : Bool) : Outcome Error (List TxOut) := do
  let connected ← txIn.mapM connect
  let connectedOutputs := connected.filterMap id
  let outpointsCount := if isCoinbase then 0 else txIn.length
  let received := connectedOutputs.length
  if received ≠ outpointsCount then .err (.missingOutputs outpointsCount received)
  else .ok connectedOutputs

end

/-! ## The `connect` methods -/

section

variable (rb : RustBitcoin) (connect : TxIn → Outcome Error (Option TxOut)) (tx : Transaction)

/-- The body of `<FullConnectedTransaction as ConnectedTx>::connect`, for any lookup in the place of
`connect_input`. -/
def FullConnectedTransaction.connectBy : Outcome Error FullConnectedTransaction := do
  let input ← connectTxInputs connect tx.input tx.isCoinbase
  .ok
    { version := tx.version
      lockTime := tx.lockTime
      txid := rb.computeTxid tx
      input := input.map (FullTxOut.ofTxOut rb)
      output := tx.output.map (FullTxOut.ofTxOut rb) }

/-- The body of `<CompactConnectedTransaction as ConnectedTx>::connect`, for any lookup. -/
def CompactConnectedTransaction.connectBy : Outcome Error CompactConnectedTransaction := do
  let input ← connectTxInputs connect tx.input tx.isCoinbase
  .ok
    { txid := rb.computeTxid tx
      input := input.map (CompactTxOut.ofTxOut rb)
      output := tx.output.map (CompactTxOut.ofTxOut rb) }

end

section

variable (rb : RustBitcoin) (tgt : Target) (disk : Disk)

/-- `<FullConnectedTransaction as ConnectedTx>::connect`. -/
def FullConnectedTransaction.connect (tx : Transaction) (txDb : TxDB) (blkIndex : BlockIndex)
    (blkFile : BlkFile) : Outcome Error FullConnectedTransaction :=
  FullConnectedTransaction.connectBy rb (connectInput rb tgt disk txDb blkIndex blkFile) tx

/-- `<CompactConnectedTransaction as ConnectedTx>::connect`. -/
def CompactConnectedTransaction.connect (tx : Transaction) (txDb : TxDB) (blkIndex : BlockIndex)
    (blkFile : BlkFile) : Outcome Error CompactConnectedTransaction :=
  CompactConnectedTransaction.connectBy rb (connectInput rb tgt disk txDb blkIndex blkFile) tx

/-- `<FullConnectedBlock as ConnectedBlock>::connect`. -/
def FullConnectedBlock.connect (block : Block) (txDb : TxDB) (blkIndex : BlockIndex)
    (blkFile : BlkFile) : Outcome Error FullConnectedBlock := do
  let blockHash := rb.blockHash block.header
  let txdata ← connectBlockInputs (fullConnectedTx rb)
    (connectInput rb tgt disk txDb blkIndex blkFile) block.txdata
  .ok { header := .parse block.header blockHash, txdata }

/-- `<CompactConnectedBlock as ConnectedBlock>::connect`. -/
def CompactConnectedBlock.connect (block : Block) (txDb : TxDB) (blkIndex : BlockIndex)
    (blkFile : BlkFile) : Outcome Error CompactConnectedBlock := do
  let blockHash := rb.blockHash block.header
  let txdata ← connectBlockInputs (compactConnectedTx rb)
    (connectInput rb tgt disk txDb blkIndex blkFile) block.txdata
  .ok { header := .new block.header blockHash, txdata }

end

/-! ## Regrouping -/

section

variable {Tx Out : Type} {CT : ConnectedTx Tx Out} {connect : TxIn → Outcome Error (Option TxOut)}
  {g : TxIn → Option TxOut}

/-- The inputs of a transaction pop what was collected for them. -/
theorem popOutputs_append : ∀ (input : List TxIn) (queue : List (Option TxOut)),
    popOutputs input (input.map g ++ queue) = .ok (input.filterMap g, queue)
  | [], _ => rfl
  | i :: input, queue => by
    rw [List.map_cons, List.cons_append, popOutputs, popOutputs_append input queue, Outcome.ok_bind]
    cases hi : g i with
    | none => rw [List.filterMap_cons_none hi]
    | some out => rw [List.filterMap_cons_some hi]

/-- `ConnectedTx::connect`, for a format that adds its inputs one by one. -/
def connectTx (CT : ConnectedTx Tx Out) (connect : TxIn → Outcome Error (Option TxOut))
    (tx : Transaction) : Outcome Error Tx := do
  let input ← connectTxInputs connect tx.input tx.isCoinbase
  .ok (input.foldl (fun t output => CT.addInput t (CT.into output)) (CT.ofTx tx))

/-- With a lookup that returns, `connect_tx_inputs` counts the outputs it found. -/
theorem connectTxInputs_eq {txIn : List TxIn} (h : ∀ i ∈ txIn, connect i = .ok (g i))
    (isCoinbase : Bool) :
    connectTxInputs connect txIn isCoinbase =
      if (txIn.filterMap g).length ≠ if isCoinbase then 0 else txIn.length then
        .err (.missingOutputs (if isCoinbase then 0 else txIn.length) (txIn.filterMap g).length)
      else .ok (txIn.filterMap g) := by
  have hfilter : (txIn.map g).filterMap id = txIn.filterMap g := List.filterMap_map
  rw [connectTxInputs, Outcome.mapM_of_ok h, Outcome.ok_bind]
  dsimp only
  rw [hfilter]

/-- Handing the collected outputs out again is connecting the transactions one by one. -/
theorem reconstruct_eq_mapM : ∀ {transactions : List Transaction},
    (∀ tx ∈ transactions, ∀ i ∈ tx.input, connect i = .ok (g i)) →
      reconstruct CT transactions ((transactions.flatMap Transaction.input).map g) =
        transactions.mapM (connectTx CT connect)
  | [], _ => rfl
  | tx :: transactions, h => by
    have ih := reconstruct_eq_mapM fun tx' h' => h tx' (List.mem_cons_of_mem _ h')
    rw [List.flatMap_cons, List.map_append, reconstruct, popOutputs_append, Outcome.ok_bind,
      List.mapM_cons, connectTx, connectTxInputs_eq (h tx List.mem_cons_self)]
    dsimp only
    by_cases hcount : (tx.input.filterMap g).length ≠ if tx.isCoinbase then 0 else tx.input.length
    · rw [if_pos hcount, if_pos hcount, Outcome.err_bind, Outcome.err_bind]
    · rw [if_neg hcount, if_neg hcount, ih, Outcome.ok_bind, Outcome.ok_bind]
      rfl

/-- **Regrouping**: when every lookup returns, connecting a block is connecting its transactions one
by one, up to the first that misses an output. -/
theorem connectBlockInputs_eq_connectTx {transactions : List Transaction}
    (h : ∀ tx ∈ transactions, ∀ i ∈ tx.input, connect i = .ok (g i)) :
    connectBlockInputs CT connect transactions = transactions.mapM (connectTx CT connect) := by
  have hall : ∀ i ∈ transactions.flatMap Transaction.input, connect i = .ok (g i) := by
    intro i hi
    obtain ⟨tx, htx, hi⟩ := List.mem_flatMap.mp hi
    exact h tx htx i hi
  rw [connectBlockInputs, Outcome.mapM_of_ok hall, Outcome.ok_bind, reconstruct_eq_mapM h]

/-- The transaction with the outputs of its inputs. -/
def withInputs (CT : ConnectedTx Tx Out) (g : TxIn → Option TxOut) (tx : Transaction) : Tx :=
  (tx.input.filterMap g).foldl (fun t output => CT.addInput t (CT.into output)) (CT.ofTx tx)

/-- No input of the transaction is missing its output, and a coinbase has none. -/
def InputsFound (g : TxIn → Option TxOut) (tx : Transaction) : Prop :=
  (tx.input.filterMap g).length = if tx.isCoinbase then 0 else tx.input.length

/-- When no output is missing, each transaction gets the outputs of its own inputs. -/
theorem connectBlockInputs_eq {transactions : List Transaction}
    (hconnect : ∀ tx ∈ transactions, ∀ i ∈ tx.input, connect i = .ok (g i))
    (hfound : ∀ tx ∈ transactions, InputsFound g tx) :
    connectBlockInputs CT connect transactions = .ok (transactions.map (withInputs CT g)) := by
  rw [connectBlockInputs_eq_connectTx hconnect]
  refine Outcome.mapM_of_ok fun tx htx => ?_
  have hcount := hfound tx htx
  unfold InputsFound at hcount
  rw [connectTx, connectTxInputs_eq (hconnect tx htx), if_neg (not_not.mpr hcount), Outcome.ok_bind]
  rfl

end

/-! ## The two formats, transaction by transaction -/

section

variable {rb : RustBitcoin} {connect : TxIn → Outcome Error (Option TxOut)} {tx : Transaction}

/-- Adding inputs one by one appends them, in a format that keeps them in a list. -/
theorem foldl_addInput {Tx Out : Type} (CT : ConnectedTx Tx Out) (mk : List Out → Tx)
    (hmk : ∀ is i, CT.addInput (mk is) i = mk (is ++ [i])) (outputs : List TxOut) (is : List Out) :
    outputs.foldl (fun t output => CT.addInput t (CT.into output)) (mk is) =
      mk (is ++ outputs.map CT.into) := by
  induction outputs generalizing is with
  | nil => rw [List.map_nil, List.append_nil, List.foldl_nil]
  | cons out outputs ih =>
    rw [List.foldl_cons, hmk, ih, List.map_cons, List.append_assoc, List.singleton_append]

theorem FullConnectedTransaction.connectBy_eq :
    FullConnectedTransaction.connectBy rb connect tx =
      connectTx (fullConnectedTx rb) connect tx := by
  unfold connectBy connectTx
  congr 1
  funext input
  exact congrArg Outcome.ok (foldl_addInput (fullConnectedTx rb)
    (fun is => { (fullConnectedTx rb).ofTx tx with input := is }) (fun _ _ => rfl) input []).symm

theorem CompactConnectedTransaction.connectBy_eq :
    CompactConnectedTransaction.connectBy rb connect tx =
      connectTx (compactConnectedTx rb) connect tx := by
  unfold connectBy connectTx
  congr 1
  funext input
  exact congrArg Outcome.ok (foldl_addInput (compactConnectedTx rb)
    (fun is => { (compactConnectedTx rb).ofTx tx with input := is }) (fun _ _ => rfl) input []).symm

end

/-- Connecting a block is connecting its transactions in order: all of them, or up to the first that
misses an output, whose error is the result. -/
def AgreesTxByTx {Tx : Type} (block : Outcome Error (List Tx))
    (connect : Transaction → Outcome Error Tx) (transactions : List Transaction) : Prop :=
  block = transactions.mapM connect ∧
    ((∃ txdata, block = .ok txdata ∧
        List.Forall₂ (fun tx t => connect tx = .ok t) transactions txdata) ∨
      ∃ pre tx post expected got, transactions = pre ++ tx :: post ∧
        (∀ tx' ∈ pre, ∃ t, connect tx' = .ok t) ∧
        connect tx = .err (.missingOutputs expected got) ∧
        block = .err (.missingOutputs expected got))

theorem agreesTxByTx {Tx Out : Type} {CT : ConnectedTx Tx Out} {g : TxIn → Option TxOut}
    {connect : Transaction → Outcome Error Tx}
    (hconnect : ∀ tx, connect tx = connectTx CT (fun i => .ok (g i)) tx)
    (transactions : List Transaction) :
    AgreesTxByTx (connectBlockInputs CT (fun i => .ok (g i)) transactions)
      connect transactions := by
  have hmapM : connectBlockInputs CT (fun i => .ok (g i)) transactions =
      transactions.mapM connect := by
    rw [connectBlockInputs_eq_connectTx fun _ _ _ _ => rfl]
    exact congrArg (fun f => transactions.mapM f) (funext fun tx => (hconnect tx).symm)
  -- a transaction connects, or misses outputs
  have hcases : ∀ tx, (∃ t, connect tx = .ok t) ∨
      ∃ expected got, connect tx = .err (.missingOutputs expected got) := by
    intro tx
    rw [hconnect, connectTx, connectTxInputs_eq fun _ _ => rfl]
    by_cases hcount : (tx.input.filterMap g).length ≠ if tx.isCoinbase then 0 else tx.input.length
    · rw [if_pos hcount]
      exact Or.inr ⟨_, _, rfl⟩
    · rw [if_neg hcount]
      exact Or.inl ⟨_, rfl⟩
  refine ⟨hmapM, ?_⟩
  rw [hmapM]
  have hpanic : ∀ tx, connect tx ≠ .panic := fun tx => by
    rcases hcases tx with ⟨t, ht⟩ | ⟨expected, got, ht⟩ <;> simp [ht]
  rcases Outcome.mapM_ok_or_first_err hpanic transactions with
    hok | ⟨pre, tx, post, e, hsplit, hpre, he, hresult⟩
  · exact Or.inl hok
  · rcases hcases tx with ⟨t, ht⟩ | ⟨expected, got, ht⟩
    · rw [ht] at he
      cases he
    · obtain rfl := Outcome.err.inj (he.symm.trans ht)
      exact Or.inr ⟨pre, tx, post, expected, got, hsplit, hpre, ht, hresult⟩

/-- **Block-wise and transaction-wise connecting agree**, in both formats, for every list of
transactions and every lookup that returns; popping an output for each input never panics. -/
theorem connectBlockInputs_eq_mapM (rb : RustBitcoin) (g : TxIn → Option TxOut)
    (transactions : List Transaction) :
    AgreesTxByTx (connectBlockInputs (compactConnectedTx rb) (fun i => .ok (g i)) transactions)
        (CompactConnectedTransaction.connectBy rb fun i => .ok (g i)) transactions ∧
      AgreesTxByTx (connectBlockInputs (fullConnectedTx rb) (fun i => .ok (g i)) transactions)
        (FullConnectedTransaction.connectBy rb fun i => .ok (g i)) transactions :=
  ⟨agreesTxByTx (fun _ => CompactConnectedTransaction.connectBy_eq) transactions,
    agreesTxByTx (fun _ => FullConnectedTransaction.connectBy_eq) transactions⟩

/-! ## What was found -/

section

variable {Tx Out : Type} {CT : ConnectedTx Tx Out} {connect : TxIn → Outcome Error (Option TxOut)}

/-- What a call found. -/
def foundBy (connect : TxIn → Outcome Error (Option TxOut)) (i : TxIn) : Option TxOut :=
  (connect i).toOption.join

theorem eq_foundBy {i : TxIn} (h : ∃ r, connect i = .ok r) :
    connect i = .ok (foundBy connect i) := by
  obtain ⟨r, hr⟩ := h
  rw [foundBy, hr]
  rfl

/-- A transaction that was connected: every lookup returned, the count that `connect_tx_inputs`
checks was right, and the outputs are those found. -/
theorem connectTxInputs_eq_ok {tx : Transaction} {outs : List TxOut}
    (hok : connectTxInputs connect tx.input tx.isCoinbase = .ok outs) :
    (∀ i ∈ tx.input, connect i = .ok (foundBy connect i)) ∧ InputsFound (foundBy connect) tx ∧
      outs = tx.input.filterMap (foundBy connect) := by
  obtain ⟨connected, hconnected, -⟩ := Outcome.bind_eq_ok.mp hok
  have hall : ∀ i ∈ tx.input, connect i = .ok (foundBy connect i) := fun i hi =>
    eq_foundBy (Outcome.exists_ok_of_mapM hconnected i hi)
  rw [connectTxInputs_eq hall] at hok
  by_cases hfound : InputsFound (foundBy connect) tx
  · have hcount := hfound
    unfold InputsFound at hcount
    rw [if_neg (not_not.mpr hcount)] at hok
    exact ⟨hall, hfound, (Outcome.ok.inj hok).symm⟩
  · unfold InputsFound at hfound
    rw [if_pos hfound] at hok
    cases hok

/-- So is a block. -/
theorem connectBlockInputs_eq_ok {transactions : List Transaction} {ts : List Tx}
    (hok : connectBlockInputs CT connect transactions = .ok ts) :
    (∀ tx ∈ transactions, ∀ i ∈ tx.input, connect i = .ok (foundBy connect i)) ∧
      (∀ tx ∈ transactions, InputsFound (foundBy connect) tx) ∧
      ts = transactions.map (withInputs CT (foundBy connect)) := by
  obtain ⟨outs, houts, -⟩ := Outcome.bind_eq_ok.mp hok
  have hall : ∀ tx ∈ transactions, ∀ i ∈ tx.input, connect i = .ok (foundBy connect i) :=
    fun tx htx i hi => eq_foundBy
      (Outcome.exists_ok_of_mapM houts i (List.mem_flatMap.mpr ⟨tx, htx, hi⟩))
  have hmapM := (connectBlockInputs_eq_connectTx hall).symm.trans hok
  have hfound : ∀ tx ∈ transactions, InputsFound (foundBy connect) tx := by
    intro tx htx
    obtain ⟨t, ht⟩ := Outcome.exists_ok_of_mapM hmapM tx htx
    obtain ⟨found, hfound, -⟩ := Outcome.bind_eq_ok.mp ht
    exact (connectTxInputs_eq_ok hfound).2.1
  exact ⟨hall, hfound, Outcome.ok.inj (hok.symm.trans (connectBlockInputs_eq hall hfound))⟩

/-- Where no output is missing, only a null input is without one. -/
theorem InputsFound.isNull_of_none {g : TxIn → Option TxOut} {tx : Transaction}
    (h : InputsFound g tx) {i : TxIn} (hi : i ∈ tx.input) (hnone : g i = none) :
    i.previousOutput.isNull = true := by
  by_cases hcoinbase : tx.isCoinbase = true
  · unfold Transaction.isCoinbase at hcoinbase
    split at hcoinbase
    · next j hinput =>
      rw [hinput, List.mem_singleton] at hi
      rwa [hi]
    · cases hcoinbase
  · rw [InputsFound, if_neg hcoinbase, List.filterMap_length_eq_length] at h
    have hsome := h i hi
    rw [hnone] at hsome
    cases hsome

end

end BitcoinExplorer
