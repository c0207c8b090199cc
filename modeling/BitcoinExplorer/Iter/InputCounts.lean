import BitcoinExplorer.Iter.InMem
import BitcoinExplorer.Iter.OnDisk
import BitcoinExplorer.Parser.ConnectedBlock

/-!
# How many inputs `connect_outpoints` connects

Both caches skip the null previous outputs, input by input; the conversions into
`CompactTransaction` and `FullTransaction`, and `connect_tx_inputs`, leave out the input of a
coinbase transaction, which is the one transaction whose only input is null. `InputView` reads the
inputs back from a connected block of either format. Over it, `connectOutpoints_inputs` is what the
caches connect, whatever they answer, and `connectOutpoints_keepsInputs_iff` says when that is what
the conversions list.
-/

namespace BitcoinExplorer

open Rust Conc

/-- The transactions of a connected block and the number of their connected inputs. -/
structure InputView {Blk Tx Out : Type} (CB : ConnectedBlock Blk Tx Out) where
  txdata : Blk → List Tx
  inputs : Tx → Nat
  txdata_ofHeader : ∀ header hash, txdata (CB.ofHeader header hash) = []
  txdata_addTx : ∀ blk tx, txdata (CB.addTx blk tx) = txdata blk ++ [tx]
  inputs_ofTx : ∀ tx, inputs (CB.tx.ofTx tx) = 0
  inputs_addInput : ∀ tx input, inputs (CB.tx.addInput tx input) = inputs tx + 1

/-- `txdata` and `input.len()` of the compact format. -/
def compactView (rb : RustBitcoin) : InputView (compactConnectedBlock rb) where
  txdata := CompactConnectedBlock.txdata
  inputs tx := tx.input.length
  txdata_ofHeader _ _ := rfl
  txdata_addTx _ _ := rfl
  inputs_ofTx _ := rfl
  inputs_addInput _ _ := List.length_append

/-- `txdata` and `input.len()` of the full format. -/
def fullView (rb : RustBitcoin) : InputView (fullConnectedBlock rb) where
  txdata := FullConnectedBlock.txdata
  inputs tx := tx.input.length
  txdata_ofHeader _ _ := rfl
  txdata_addTx _ _ := rfl
  inputs_ofTx _ := rfl
  inputs_addInput _ _ := List.length_append

variable {rb : RustBitcoin} {tgt : Target} {Blk Tx Out : Type} {CB : ConnectedBlock Blk Tx Out}

namespace InputView

variable (v : InputView CB)

/-- The connected transactions have the inputs that are not null. -/
def ConnectsSpends (txs : List Transaction) (connected : List Tx) : Prop :=
  List.Forall₂ (fun tx t => v.inputs t = (spends tx.input).length) txs connected

/-- A step of a transaction loop, from the step of its input loop. -/
theorem connectsSpends_cons {tx : Transaction} {t : Tx} {txs : List Transaction} {b b' : Blk}
    (ht : v.inputs t = v.inputs (CB.tx.ofTx tx) + (spends tx.input).length)
    (h : ∃ connected, v.txdata b' = v.txdata (CB.addTx b t) ++ connected ∧
      v.ConnectsSpends txs connected) :
    ∃ connected, v.txdata b' = v.txdata b ++ connected ∧
      v.ConnectsSpends (tx :: txs) connected := by
  obtain ⟨connected, htxdata, hall⟩ := h
  refine ⟨t :: connected, ?_, .cons ?_ hall⟩
  · rw [htxdata, v.txdata_addTx, List.append_assoc, List.singleton_append]
  · rw [ht, v.inputs_ofTx, Nat.zero_add]

/-! ## On disk -/

/-- The input loop adds one input for each previous output that is not null. -/
theorem onDisk_inputLoop {txOuts : List (Except Unit (Option (List UInt8)))} {inputs : List TxIn}
    {tx t : Tx} {pos pos' : Nat}
    (h : OnDisk.inputLoop rb CB.tx txOuts inputs tx pos = .ok (t, pos')) :
    v.inputs t = v.inputs tx + (spends inputs).length := by
  induction inputs generalizing tx pos with
  | nil =>
    obtain ⟨rfl, -⟩ := Prod.mk.inj (Outcome.ok.inj h)
    rfl
  | cons input inputs ih =>
    unfold OnDisk.inputLoop at h
    split at h
    · rename_i hnull
      rw [spends_cons_null hnull]
      exact ih h
    · rename_i hnull
      rw [spends_cons (by simpa using hnull), List.length_cons]
      split at h
      · cases h
      · split at h
        · rw [ih h, v.inputs_addInput]
          omega
        · cases h

theorem onDisk_txLoop {txOuts : List (Except Unit (Option (List UInt8)))} {txs : List Transaction}
    {b b' : Blk} {pos : Nat} (h : OnDisk.txLoop rb CB txOuts txs b pos = .ok b') :
    ∃ connected, v.txdata b' = v.txdata b ++ connected ∧ v.ConnectsSpends txs connected := by
  induction txs generalizing b pos with
  | nil =>
    obtain rfl := Outcome.ok.inj h
    exact ⟨[], (List.append_nil _).symm, .nil⟩
  | cons tx txs ih =>
    obtain ⟨⟨t, pos'⟩, hinput, hrest⟩ := Outcome.bind_eq_ok.mp h
    exact v.connectsSpends_cons (v.onDisk_inputLoop hinput) (ih hrest)

/-! ## In memory -/

theorem inMem_inputLoop {inputs : List TxIn} {tx t : Tx}
    (h : (InMem.inputLoop tgt CB.tx inputs tx).Ends (.ok t)) :
    v.inputs t = v.inputs tx + (spends inputs).length := by
  induction inputs generalizing tx with
  | nil =>
    obtain rfl := Outcome.ok.inj (Prog.ends_ret.mp h)
    rfl
  | cons input inputs ih =>
    unfold InMem.inputLoop at h
    split at h
    · rename_i hnull
      rw [spends_cons_null hnull]
      exact ih h
    · rename_i hnull
      rw [spends_cons (by simpa using hnull), List.length_cons]
      obtain ⟨prevTx, h⟩ := Prog.ends_op.mp h
      cases prevTx with
      | none => cases h
      | some cell =>
        obtain ⟨removed, h⟩ := Prog.ends_op.mp h
        cases removed with
        | err e => exact e.elim
        | panic => cases h
        | ok removed =>
          obtain ⟨-, -, h⟩ := Prog.ends_andThen_ok.mp h
          obtain ⟨txOut, isEmpty⟩ := removed
          cases txOut with
          | none => cases h
          | some out =>
            rw [ih h, v.inputs_addInput]
            omega

theorem inMem_txLoop {txs : List Transaction} {b b' : Blk}
    (h : (InMem.txLoop tgt CB txs b).Ends (.ok b')) :
    ∃ connected, v.txdata b' = v.txdata b ++ connected ∧ v.ConnectsSpends txs connected := by
  induction txs generalizing b with
  | nil =>
    obtain rfl := Outcome.ok.inj (Prog.ends_ret.mp h)
    exact ⟨[], (List.append_nil _).symm, .nil⟩
  | cons tx txs ih =>
    obtain ⟨t, hinput, hrest⟩ := Prog.ends_andThen_ok.mp h
    exact v.connectsSpends_cons (v.inMem_inputLoop hinput) (ih hrest)

end InputView

/-! ## What the conversions list -/

/-- `connect_outpoints` of either cache returns `Ok(b)` for some answers of the cache: whatever it
holds, and whatever the other threads do to it meanwhile. -/
def ConnectsTo (rb : RustBitcoin) (tgt : Target) (CB : ConnectedBlock Blk Tx Out) (block : Block)
    (b : Blk) : Prop :=
  (OnDisk.connectOutpoints rb tgt CB block).Ends (.ok b) ∨
    (InMem.connectOutpoints rb tgt CB block).Ends (.ok b)

/-- **What `connect_outpoints` connects**: the inputs that are not null. -/
theorem connectOutpoints_inputs (v : InputView CB) {block : Block} {b : Blk}
    (h : ConnectsTo rb tgt CB block b) : v.ConnectsSpends block.txdata (v.txdata b) := by
  have hfresh : ∀ connected : List Tx,
      v.txdata (CB.ofHeader block.header (rb.blockHash block.header)) ++ connected = connected := by
    intro connected
    rw [v.txdata_ofHeader, List.nil_append]
  rcases h with h | h
  · obtain ⟨txOuts, h⟩ := Prog.ends_op.mp h
    obtain ⟨-, -, h⟩ := Prog.ends_andThen_ok.mp h
    obtain ⟨connected, htxdata, hall⟩ := v.onDisk_txLoop (Prog.ends_ret.mp h).symm
    rwa [htxdata, hfresh]
  · obtain ⟨connected, htxdata, hall⟩ := v.inMem_txLoop h
    rwa [htxdata, hfresh]

/-- The connected block has the transactions of the block, each with as many connected inputs as its
conversions list and as `connect_tx_inputs` returns. -/
def KeepsInputs (rb : RustBitcoin) (v : InputView CB) (block : Block) (b : Blk) : Prop :=
  List.Forall₂ (fun tx t =>
      v.inputs t = (CompactTransaction.ofTransaction rb tx).input.length ∧
      v.inputs t = (FullTransaction.ofTransaction rb tx).input.length ∧
      ∀ connect outputs, connectTxInputs connect tx.input tx.isCoinbase = .ok outputs →
        v.inputs t = outputs.length)
    block.txdata (v.txdata b)

/-- The transaction has no null previous output, or is a coinbase transaction. -/
def NullIsCoinbase (tx : Transaction) : Prop :=
  tx.isCoinbase = true ∨ ∀ input ∈ tx.input, input.previousOutput.isNull = false

theorem length_connectTxInputs {connect : TxIn → Outcome Error (Option TxOut)} {tx : Transaction}
    {outputs : List TxOut} (h : connectTxInputs connect tx.input tx.isCoinbase = .ok outputs) :
    outputs.length = (FullTransaction.ofTransaction rb tx).input.length := by
  obtain ⟨connected, -, h⟩ := Outcome.bind_eq_ok.mp h
  by_cases hcount : (connected.filterMap id).length = if tx.isCoinbase then 0 else tx.input.length
  · rw [if_neg (not_not.mpr hcount)] at h
    obtain rfl := Outcome.ok.inj h
    rw [hcount, FullTransaction.ofTransaction]
    cases tx.isCoinbase <;> rfl
  · rw [if_pos hcount] at h
    cases h

/-- The conversions list the same inputs. -/
theorem length_compactTransaction (tx : Transaction) :
    (CompactTransaction.ofTransaction rb tx).input.length =
      (FullTransaction.ofTransaction rb tx).input.length := by
  rw [CompactTransaction.ofTransaction, FullTransaction.ofTransaction]
  cases tx.isCoinbase with
  | true => rfl
  | false => exact List.length_map _

/-- The conversions list the inputs that are not null exactly for such a transaction. -/
theorem length_spends_iff (tx : Transaction) :
    (spends tx.input).length = (FullTransaction.ofTransaction rb tx).input.length ↔
      NullIsCoinbase tx := by
  rw [FullTransaction.ofTransaction, NullIsCoinbase]
  cases hc : tx.isCoinbase with
  | true =>
    refine ⟨fun _ => Or.inl rfl, fun _ => ?_⟩
    unfold Transaction.isCoinbase at hc
    split at hc
    · rename_i input hinput
      rw [hinput, spends_cons_null hc]
      rfl
    · cases hc
  | false =>
    refine List.filterMap_length_eq_length.trans ?_
    simp only [Bool.false_eq_true, false_or]
    refine forall₂_congr fun input _ => ?_
    cases input.previousOutput.isNull <;> simp

/-- A relation that comes down to a property of the left side, along a matching. -/
theorem forall₂_iff_forall {α β : Type} {R S : α → β → Prop} {P : α → Prop} {as : List α}
    {bs : List β} (h : List.Forall₂ R as bs) (hP : ∀ a b, R a b → (S a b ↔ P a)) :
    List.Forall₂ S as bs ↔ ∀ a ∈ as, P a := by
  induction h with
  | nil => simp
  | cons hab hrest ih => rw [List.forall₂_cons, ih, hP _ _ hab, List.forall_mem_cons]

/-- **`connect_outpoints` keeps the inputs of a block** it connects if and only if the null previous
outputs of the block are those of its coinbase transactions. -/
theorem connectOutpoints_keepsInputs_iff (v : InputView CB) {block : Block} {b : Blk}
    (h : ConnectsTo rb tgt CB block b) :
    KeepsInputs rb v block b ↔ ∀ tx ∈ block.txdata, NullIsCoinbase tx := by
  refine forall₂_iff_forall (connectOutpoints_inputs v h) fun tx t ht => ?_
  rw [length_compactTransaction, ← length_spends_iff tx, ht]
  constructor
  · exact fun hcount => hcount.2.1
  · exact fun hcount => ⟨hcount, hcount, fun _ _ hconnect =>
      hcount.trans (length_connectTxInputs hconnect).symm⟩

/-- The second block of the sample chain, connected. -/
def sampleSpendConnected : CompactConnectedBlock where
  header := ⟨0xafec83702b258998adc33ee3b1070b97d2152616a9f6ed20dff395760e14af06, 0⟩
  txdata := [⟨0x08dc769c0f3a5369a2aef22d4ae52c6a9444332666cee76148f2c57d3863233c, [⟨50, []⟩],
    [⟨50, []⟩]⟩]

theorem connectOutpoints_keepsInputs_sampleSpend :
    KeepsInputs sampleBitcoin (compactView sampleBitcoin)
      ⟨sampleHeader 1, [sampleSpend [sampleOutPoint] 50]⟩ sampleSpendConnected := by
  have hrun : ((InMem.connectOutpoints sampleBitcoin ⟨true, true⟩
      (compactConnectedBlock sampleBitcoin) ⟨sampleHeader 1, [sampleSpend [sampleOutPoint] 50]⟩).run
        (InMem.emptyCache.insert (InMem.newEntry sampleBitcoin (compactConnectedTx sampleBitcoin)
          sampleCoinbase))).1 = .ok sampleSpendConnected := by
    decide +kernel
  refine (connectOutpoints_keepsInputs_iff _ (Or.inr (hrun ▸ Prog.ends_run _ _))).mpr ?_
  simp only [NullIsCoinbase]
  decide

/-- A transaction of two null inputs, which is no coinbase transaction. -/
def nullPair : Block := ⟨sampleHeader 0, [sampleSpend [.null, .null] 50]⟩

/-- The hashes of that block. -/
def nullPairBitcoin : RustBitcoin :=
  .ofTables
    [(sampleSpend [.null, .null] 50,
      0x78b49cdbc5cc3d1ca5b2800ed5b74c0ce24a7d71d310fc6119e8f70ac584893b)]
    [(sampleHeader 0, 0x4ddd9f0855d58a375be5a763e5f51ece853d30525fcd9a3e477c2194fedb549f)]

/-- What both caches connect it to. -/
def nullPairConnected : CompactConnectedBlock where
  header := ⟨0x4ddd9f0855d58a375be5a763e5f51ece853d30525fcd9a3e477c2194fedb549f, 0⟩
  txdata := [⟨0x78b49cdbc5cc3d1ca5b2800ed5b74c0ce24a7d71d310fc6119e8f70ac584893b, [], [⟨50, []⟩]⟩]

theorem nullPair_connected :
    ((OnDisk.connectOutpoints nullPairBitcoin ⟨true, true⟩ (compactConnectedBlock nullPairBitcoin)
        nullPair).run OnDisk.emptyCache).1 = .ok nullPairConnected ∧
      ((InMem.connectOutpoints nullPairBitcoin ⟨true, true⟩ (compactConnectedBlock nullPairBitcoin)
        nullPair).run InMem.emptyCache).1 = .ok nullPairConnected := by
  decide +kernel

/-- Both caches connect the pair without any input, where the conversions list two. -/
theorem connectOutpoints_drops_nullPair :
    (((OnDisk.connectOutpoints nullPairBitcoin ⟨true, true⟩ (compactConnectedBlock nullPairBitcoin)
          nullPair).run OnDisk.emptyCache).1 = .ok nullPairConnected ∧
        ((InMem.connectOutpoints nullPairBitcoin ⟨true, true⟩
          (compactConnectedBlock nullPairBitcoin) nullPair).run InMem.emptyCache).1 =
            .ok nullPairConnected) ∧
      ¬ KeepsInputs nullPairBitcoin (compactView nullPairBitcoin) nullPair nullPairConnected := by
  refine ⟨nullPair_connected, fun h => ?_⟩
  cases h with
  | cons hcount _ => exact absurd hcount.1 (by decide)

end BitcoinExplorer
