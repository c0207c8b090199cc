import BitcoinExplorer.Lib.SpendMap
import BitcoinExplorer.Parser.BlockTypes
import Mathlib.Data.List.Flatten
import Mathlib.Data.List.Pairwise

/-!
# The ledger of a chain, and what connecting a block means

What the connected-block iterator is for, independently of how it keeps its unspent outputs: each
transaction creates its outputs under its txid, an input names one of them, and connecting a block
replaces every input by the output it names. A `Ledger` is a map from outpoints to outputs.

* `namedOutput`: the output an outpoint names in a chain.
* `ValidChain`: txids are distinct, inputs name outputs of earlier transactions, and no outpoint is
  spent twice.
* `Connectable`: the weaker facts both caches live on, also with repeated txids.
* `ConnectedBlock.connectWith`: the connected block, for a given meaning of outpoints.
-/

namespace BitcoinExplorer

open SpendMap

/-- A map from outpoints to the outputs they name. -/
abbrev Ledger := OutPoint → Option TxOut

/-! ## What a chain creates and spends -/

section Chain

variable (rb : RustBitcoin)

/-- The transactions of a chain, in order. -/
def transactions (chain : List Block) : List Transaction := chain.flatMap Block.txdata

/-- The outputs a transaction creates, under their outpoints. -/
def creates (tx : Transaction) : List (OutPoint × TxOut) :=
  tx.output.zipIdx.map fun p => (⟨rb.computeTxid tx, UInt32.ofNat p.2⟩, p.1)

/-- The outputs a block creates. -/
def Block.creates (blk : Block) : List (OutPoint × TxOut) :=
  blk.txdata.flatMap (BitcoinExplorer.creates rb)

/-- The outpoints a chain spends, in order. -/
def chainSpends (chain : List Block) : List OutPoint := chain.flatMap Block.spends

/-- Output `n` of the transaction with the given txid. -/
def outputAt (chain : List Block) (txid : Txid) (n : Nat) : Option TxOut :=
  ((transactions chain).find? fun tx => rb.computeTxid tx = txid).bind fun tx => tx.output[n]?

/-- The output an outpoint names in a chain. -/
def namedOutput (chain : List Block) : Ledger := fun o => outputAt rb chain o.txid o.vout.toNat

/-- The outputs of a chain that it does not spend. -/
def unspentOutputs (chain : List Block) : Ledger :=
  eraseAll (namedOutput rb chain) (chainSpends chain)

/-- A chain with pairwise distinct txids, whose inputs each are null or name an output of an earlier
transaction, and which spends no outpoint twice. -/
structure ValidChain (chain : List Block) : Prop where
  txids : ((transactions chain).map rb.computeTxid).Nodup
  inputs : ∀ pre tx post, transactions chain = pre ++ tx :: post → ∀ o ∈ spends tx.input,
    ∃ tx' ∈ pre, rb.computeTxid tx' = o.txid ∧ o.vout.toNat < tx'.output.length
  spentOnce : (chainSpends chain).Nodup

/-- The condition on the inputs, in a form that is checked on a given list of transactions. -/
theorem inputs_of_zipIdx {txs : List Transaction}
    (h : ∀ p ∈ txs.zipIdx, ∀ o ∈ spends p.1.input,
      ∃ tx' ∈ txs.take p.2, rb.computeTxid tx' = o.txid ∧ o.vout.toNat < tx'.output.length) :
    ∀ pre tx post, txs = pre ++ tx :: post → ∀ o ∈ spends tx.input,
      ∃ tx' ∈ pre, rb.computeTxid tx' = o.txid ∧ o.vout.toNat < tx'.output.length := by
  rintro pre tx post rfl o ho
  obtain ⟨tx', htx', hname⟩ := h (tx, pre.length) (by simp [List.mem_zipIdx_iff_getElem?]) o ho
  exact ⟨tx', by simpa using htx', hname⟩

/-- Transactions with the same txid have the same outputs. -/
def TxidBinds (chain : List Block) : Prop :=
  ∀ tx ∈ transactions chain, ∀ tx' ∈ transactions chain,
    rb.computeTxid tx = rb.computeTxid tx' → tx.output = tx'.output

/-- What connecting a chain with one shared cache rests on: a txid fixes the outputs, what a block
spends is created by then, and no outpoint is spent twice. -/
structure Connectable (chain : List Block) : Prop where
  binds : TxidBinds rb chain
  named : ∀ (h : Nat) (blk : Block), chain[h]? = some blk → ∀ o ∈ blk.spends,
    ∃ j ≤ h, ∃ blk' : Block, chain[j]? = some blk' ∧ ∃ out, (o, out) ∈ blk'.creates rb
  spentOnce : (chainSpends chain).Nodup

end Chain

variable {rb : RustBitcoin} {chain : List Block}

/-- An output a transaction creates sits at the index its outpoint names. -/
theorem mem_creates {tx : Transaction} {o : OutPoint} {out : TxOut} :
    (o, out) ∈ creates rb tx ↔
      rb.computeTxid tx = o.txid ∧ tx.output[o.vout.toNat]? = some out := by
  unfold creates
  rw [List.mem_map]
  constructor
  · rintro ⟨⟨out', n⟩, hmem, he⟩
    obtain ⟨rfl, rfl⟩ := Prod.mk.inj he
    have hget := List.mem_zipIdx_iff_getElem?.mp hmem
    have hlt : n < tx.output.length := (List.getElem?_eq_some_iff.mp hget).1
    refine ⟨rfl, ?_⟩
    rw [UInt32.toNat_ofNat_of_lt' (hlt.trans tx.output_lt)]
    exact hget
  · rintro ⟨hid, hget⟩
    refine ⟨(out, o.vout.toNat), List.mem_zipIdx_iff_getElem?.mpr hget, ?_⟩
    rw [hid, UInt32.ofNat_toNat]

theorem Block.mem_creates {blk : Block} {o : OutPoint} {out : TxOut} :
    (o, out) ∈ blk.creates rb ↔
      ∃ tx ∈ blk.txdata, rb.computeTxid tx = o.txid ∧ tx.output[o.vout.toNat]? = some out := by
  unfold Block.creates
  simp only [List.mem_flatMap, BitcoinExplorer.mem_creates]

theorem mem_transactions {tx : Transaction} :
    tx ∈ transactions chain ↔ ∃ blk ∈ chain, tx ∈ blk.txdata := List.mem_flatMap

theorem Block.mem_spends {blk : Block} {o : OutPoint} :
    o ∈ blk.spends ↔ ∃ tx ∈ blk.txdata, o ∈ BitcoinExplorer.spends tx.input := List.mem_flatMap

/-- Every output of the ledger is one a transaction of the chain creates. -/
def CreatedBy (rb : RustBitcoin) (chain : List Block) (m : Ledger) : Prop :=
  ∀ o out, m o = some out → ∃ tx ∈ transactions chain, (o, out) ∈ creates rb tx

theorem CreatedBy.put {m : Ledger} (hm : CreatedBy rb chain m) {tx : Transaction}
    (htx : tx ∈ transactions chain) : CreatedBy rb chain (putAll m (creates rb tx)) := by
  intro o out hget
  by_cases ho : ∃ out', (o, out') ∈ creates rb tx
  · obtain ⟨out', ho⟩ := ho
    rw [putAll_of_mem ho fun out'' ho' => Option.some.inj
      ((mem_creates.mp ho').2.symm.trans (mem_creates.mp ho).2)] at hget
    exact ⟨tx, htx, Option.some.inj hget ▸ ho⟩
  · rw [putAll_of_not_mem fun out' ho' => ho ⟨out', ho'⟩] at hget
    exact hm o out hget

/-- With a txid fixing the outputs, they are those of any transaction with that txid. -/
theorem outputAt_eq (hb : TxidBinds rb chain) {tx : Transaction} (hmem : tx ∈ transactions chain)
    (n : Nat) : outputAt rb chain (rb.computeTxid tx) n = tx.output[n]? := by
  unfold outputAt
  cases hfind : (transactions chain).find? fun tx' => rb.computeTxid tx' = rb.computeTxid tx with
  | none => exact absurd (decide_eq_true rfl) (List.find?_eq_none.mp hfind tx hmem)
  | some tx' =>
    have hid : rb.computeTxid tx' = rb.computeTxid tx := by simpa using List.find?_some hfind
    rw [Option.bind_some, hb tx' (List.mem_of_find?_eq_some hfind) tx hmem hid]

theorem outputAt_lt {txid : Txid} {n : Nat} (h : (outputAt rb chain txid n).isSome = true) :
    n < 2 ^ 32 := by
  obtain ⟨out, hout⟩ := Option.isSome_iff_exists.mp h
  obtain ⟨tx, -, hget⟩ := Option.bind_eq_some_iff.mp hout
  exact (List.getElem?_eq_some_iff.mp hget).1.trans tx.output_lt

/-- With a txid fixing the outputs, an outpoint names what any block creates under it. -/
theorem namedOutput_of_creates (hb : TxidBinds rb chain) {blk : Block} (hblk : blk ∈ chain)
    {o : OutPoint} {out : TxOut} (h : (o, out) ∈ blk.creates rb) :
    namedOutput rb chain o = some out := by
  obtain ⟨tx, htx, hid, hget⟩ := Block.mem_creates.mp h
  unfold namedOutput
  rw [← hid, outputAt_eq hb (mem_transactions.mpr ⟨blk, hblk, htx⟩), hget]

/-- A named output is created by some block. -/
theorem creates_of_namedOutput {o : OutPoint} {out : TxOut}
    (h : namedOutput rb chain o = some out) : ∃ blk ∈ chain, (o, out) ∈ blk.creates rb := by
  obtain ⟨tx, hfind, hget⟩ := Option.bind_eq_some_iff.mp h
  obtain ⟨blk, hblk, htx⟩ := mem_transactions.mp (List.mem_of_find?_eq_some hfind)
  have hid : rb.computeTxid tx = o.txid := by simpa using List.find?_some hfind
  exact ⟨blk, hblk, Block.mem_creates.mpr ⟨tx, htx, hid, hget⟩⟩

/-- Distinct txids bind their outputs. -/
theorem txidBinds_of_nodup (h : ((transactions chain).map rb.computeTxid).Nodup) :
    TxidBinds rb chain := by
  intro tx htx tx' htx' he
  rw [List.inj_on_of_nodup_map h htx htx' he]

/-- A transaction at height `h` comes after the transactions of the blocks below `h`, and before
those of the blocks above. -/
theorem transactions_split {h : Nat} {blk : Block} (hblk : chain[h]? = some blk) :
    transactions chain =
      transactions (chain.take h) ++ (blk.txdata ++ transactions (chain.drop (h + 1))) := by
  unfold transactions
  obtain ⟨hlt, rfl⟩ := List.getElem?_eq_some_iff.mp hblk
  conv_lhs => rw [← List.take_append_drop h chain, List.drop_eq_getElem_cons hlt]
  rw [List.flatMap_append, List.flatMap_cons]

/-- When inputs name outputs of earlier transactions, a block spends what it or a block below
creates. -/
theorem named_of_inputs (hin : ∀ pre tx post, transactions chain = pre ++ tx :: post →
      ∀ o ∈ spends tx.input, ∃ tx' ∈ pre, ∃ out, (o, out) ∈ creates rb tx')
    (h : Nat) (blk : Block) (hblk : chain[h]? = some blk) (o : OutPoint) (ho : o ∈ blk.spends) :
    ∃ j ≤ h, ∃ blk' : Block, chain[j]? = some blk' ∧ ∃ out, (o, out) ∈ blk'.creates rb := by
  obtain ⟨tx, htx, hos⟩ := Block.mem_spends.mp ho
  obtain ⟨pre, post, hsplit⟩ := List.append_of_mem htx
  have hall := transactions_split hblk
  rw [hsplit, List.append_assoc, List.cons_append, ← List.append_assoc] at hall
  obtain ⟨tx', htx', out, hout⟩ := hin _ tx _ hall o hos
  have hcreates : ∀ {blk' : Block}, tx' ∈ blk'.txdata → (o, out) ∈ blk'.creates rb := fun hmem =>
    List.mem_flatMap.mpr ⟨tx', hmem, hout⟩
  rcases List.mem_append.mp htx' with hbelow | hsame
  · obtain ⟨blk', hblk', hmem⟩ := mem_transactions.mp hbelow
    obtain ⟨j, hj⟩ := List.getElem?_of_mem hblk'
    rw [List.getElem?_take] at hj
    split at hj
    · exact ⟨j, by omega, blk', hj, out, hcreates hmem⟩
    · exact absurd hj (by simp)
  · exact ⟨h, le_refl h, blk, hblk, out, hcreates (hsplit ▸ List.mem_append_left _ hsame)⟩

/-- **A valid chain is connectable.** -/
theorem ValidChain.connectable (hv : ValidChain rb chain) : Connectable rb chain where
  binds := txidBinds_of_nodup hv.txids
  named := named_of_inputs fun pre tx post hsplit o ho => by
    obtain ⟨tx', htx', hid, hlt⟩ := hv.inputs pre tx post hsplit o ho
    exact ⟨tx', htx', _, mem_creates.mpr ⟨hid, List.getElem?_eq_getElem hlt⟩⟩
  spentOnce := hv.spentOnce

/-- With distinct txids, only one height creates an output under a given txid. -/
theorem creates_height (hd : ((transactions chain).map rb.computeTxid).Nodup) {h j : Nat}
    {blk blk' : Block} (hblk : chain[h]? = some blk) (hblk' : chain[j]? = some blk')
    {tx tx' : Transaction} (htx : tx ∈ blk.txdata) (htx' : tx' ∈ blk'.txdata)
    (he : rb.computeTxid tx = rb.computeTxid tx') : h = j := by
  unfold transactions at hd
  rw [List.map_flatMap] at hd
  have hpair := (List.nodup_flatMap.mp hd).2
  obtain ⟨hh, rfl⟩ := List.getElem?_eq_some_iff.mp hblk
  obtain ⟨hj, rfl⟩ := List.getElem?_eq_some_iff.mp hblk'
  have hmem := List.mem_map_of_mem (f := rb.computeTxid) htx
  have hmem' := List.mem_map_of_mem (f := rb.computeTxid) htx'
  rw [← he] at hmem'
  by_contra hne
  rcases Nat.lt_or_gt_of_ne hne with hlt | hgt
  · exact List.pairwise_iff_getElem.mp hpair h j hh hj hlt hmem hmem'
  · exact List.pairwise_iff_getElem.mp hpair j h hj hh hgt hmem' hmem

section

variable (hc : (chainSpends chain).Nodup)
include hc

theorem spends_nodup {h : Nat} {blk : Block} (hblk : chain[h]? = some blk) : blk.spends.Nodup :=
  (List.nodup_flatMap.mp hc).1 blk (List.mem_of_getElem? hblk)

/-- Different blocks spend different outpoints. -/
theorem spends_disjoint {h j : Nat} (hne : h ≠ j) {blk blk' : Block} (hblk : chain[h]? = some blk)
    (hblk' : chain[j]? = some blk') {o : OutPoint} (ho : o ∈ blk.spends) : o ∉ blk'.spends := by
  have hpair := (List.nodup_flatMap.mp hc).2
  obtain ⟨hh, rfl⟩ := List.getElem?_eq_some_iff.mp hblk
  obtain ⟨hj, rfl⟩ := List.getElem?_eq_some_iff.mp hblk'
  intro ho'
  rcases Nat.lt_or_gt_of_ne hne with hlt | hgt
  · exact List.pairwise_iff_getElem.mp hpair h j hh hj hlt ho ho'
  · exact List.pairwise_iff_getElem.mp hpair j h hj hh hgt ho' ho

end

theorem mem_chainSpends {o : OutPoint} :
    o ∈ chainSpends chain ↔ ∃ (h : Nat) (blk : Block), chain[h]? = some blk ∧ o ∈ blk.spends := by
  unfold chainSpends
  rw [List.mem_flatMap]
  constructor
  · rintro ⟨blk, hblk, ho⟩
    obtain ⟨h, hh⟩ := List.getElem?_of_mem hblk
    exact ⟨h, blk, hh, ho⟩
  · rintro ⟨h, blk, hh, ho⟩
    exact ⟨blk, List.mem_of_getElem? hh, ho⟩

/-! ## A concrete chain: a coinbase, and a transaction that spends it -/

/-- A coinbase transaction. -/
def sampleCoinbase : Transaction where
  version := 1
  lockTime := 0
  input := [⟨.null, [], 0xffffffff, []⟩]
  output := [⟨50, []⟩]
  output_lt := by decide

/-- The outpoint of its output. -/
def sampleOutPoint : OutPoint :=
  ⟨0xc843475a2307e43f11818add9439dea3eee66b23a6424da545f44ca104800a95, 0⟩

/-- A transaction with the given previous outputs and one output of the given value. -/
def sampleSpend (previousOutputs : List OutPoint) (value : UInt64) : Transaction where
  version := 1
  lockTime := 0
  input := previousOutputs.map fun o => ⟨o, [], 0xffffffff, []⟩
  output := [⟨value, []⟩]
  output_lt := by simp

/-- A header with the given nonce. -/
def sampleHeader (nonce : UInt32) : BlockHeader where
  version := 1
  prevBlockhash := 0
  merkleRoot := 0
  time := 0
  bits := 0
  nonce := nonce

/-- The hashes of these transactions and headers. -/
def sampleBitcoin : RustBitcoin :=
  .ofTables
    [(sampleCoinbase, sampleOutPoint.txid),
      (sampleSpend [sampleOutPoint] 50,
        0x08dc769c0f3a5369a2aef22d4ae52c6a9444332666cee76148f2c57d3863233c),
      (sampleSpend [sampleOutPoint] 49,
        0x3b9bbdda6fc7c5fa6a942d8d14d0e250639e5a4d5aa101dad9a5f0587b7cb00f),
      (sampleSpend [sampleOutPoint, sampleOutPoint] 100,
        0xa555817a3ac390986b8cb1a8e0ac9d93d72ad2522084cd399b51acc9587e2c6c)]
    [(sampleHeader 0, 0x4ddd9f0855d58a375be5a763e5f51ece853d30525fcd9a3e477c2194fedb549f),
      (sampleHeader 1, 0xafec83702b258998adc33ee3b1070b97d2152616a9f6ed20dff395760e14af06),
      (sampleHeader 2, 0x5466baf169d4021266011da2f434ad7a41cfe2d81567d2e1dfb6e80d35aba212),
      (sampleHeader 3, 0x9c061cd4a11ccbd8ac78f6cff80310570bcfef92796787fe33cfb08fffad00e0)]

/-- A block for each transaction. -/
def sampleChain : List Block :=
  [⟨sampleHeader 0, [sampleCoinbase]⟩, ⟨sampleHeader 1, [sampleSpend [sampleOutPoint] 50]⟩]

/-- `get_block` on a list of blocks. -/
def getBlockFrom (chain : List Block) (height : Nat) : Rust.Outcome Error Block :=
  .ofOption (.blockIndexRecordNotFound height) chain[height]?

theorem getBlockFrom_eq (h : Nat) (blk : Block) (hblk : chain[h]? = some blk) :
    getBlockFrom chain h = .ok blk :=
  Rust.Outcome.ofOption_eq_ok.mpr hblk

theorem sampleChain_valid : ValidChain sampleBitcoin sampleChain where
  txids := by decide
  inputs := inputs_of_zipIdx sampleBitcoin (by decide)
  spentOnce := by decide

/-! ## Connecting -/

section Connect

variable {Blk Tx Out : Type}

/-- Add the outputs named by a list of outpoints as inputs. -/
def ConnectedTx.addInputs (CT : ConnectedTx Tx Out) (f : Ledger) (os : List OutPoint) (tx : Tx) :
    Option Tx :=
  os.foldlM (fun t o => (f o).map fun out => CT.addInput t (CT.into out)) tx

/-- The connected transaction: its inputs are the outputs they name. -/
def ConnectedTx.connectWith (CT : ConnectedTx Tx Out) (f : Ledger) (tx : Transaction) : Option Tx :=
  CT.addInputs f (spends tx.input) (CT.ofTx tx)

/-- Add connected transactions to a block. -/
def ConnectedBlock.addTxs (CB : ConnectedBlock Blk Tx Out) (f : Ledger) (txs : List Transaction)
    (blk : Blk) : Option Blk :=
  txs.foldlM (fun b tx => (CB.tx.connectWith f tx).map (CB.addTx b)) blk

/-- The connected block. -/
def ConnectedBlock.connectWith (CB : ConnectedBlock Blk Tx Out) (rb : RustBitcoin) (f : Ledger)
    (blk : Block) : Option Blk :=
  CB.addTxs f blk.txdata (CB.ofHeader blk.header (rb.blockHash blk.header))

/-- The connected block at height `h` of a chain. -/
def expectedBlock (CB : ConnectedBlock Blk Tx Out) (rb : RustBitcoin) (chain : List Block)
    (h : Nat) : Option Blk :=
  chain[h]?.bind (CB.connectWith rb (namedOutput rb chain))

variable {CT : ConnectedTx Tx Out} {CB : ConnectedBlock Blk Tx Out} {f g : Ledger}

@[simp] theorem ConnectedTx.addInputs_nil (tx : Tx) : CT.addInputs f [] tx = some tx := rfl

theorem ConnectedTx.addInputs_cons (o : OutPoint) (os : List OutPoint) (tx : Tx) :
    CT.addInputs f (o :: os) tx =
      (f o).bind fun out => CT.addInputs f os (CT.addInput tx (CT.into out)) := by
  unfold ConnectedTx.addInputs
  rw [List.foldlM_cons]
  cases f o <;> rfl

@[simp] theorem ConnectedBlock.addTxs_nil (b : Blk) : CB.addTxs f [] b = some b := rfl

theorem ConnectedBlock.addTxs_cons (tx : Transaction) (txs : List Transaction) (b : Blk) :
    CB.addTxs f (tx :: txs) b =
      (CB.tx.connectWith f tx).bind fun t => CB.addTxs f txs (CB.addTx b t) := by
  unfold ConnectedBlock.addTxs
  rw [List.foldlM_cons]
  cases CB.tx.connectWith f tx <;> rfl

theorem ConnectedTx.addInputs_congr : ∀ {os : List OutPoint} {tx : Tx},
    (∀ o ∈ os, f o = g o) → CT.addInputs f os tx = CT.addInputs g os tx
  | [], _, _ => rfl
  | o :: os, tx, h => by
    rw [addInputs_cons, addInputs_cons, h o List.mem_cons_self]
    exact congrArg _ (funext fun out => addInputs_congr fun o' ho' =>
      h o' (List.mem_cons_of_mem _ ho'))

theorem ConnectedBlock.addTxs_congr : ∀ {txs : List Transaction} {b : Blk},
    (∀ tx ∈ txs, ∀ o ∈ spends tx.input, f o = g o) → CB.addTxs f txs b = CB.addTxs g txs b
  | [], _, _ => rfl
  | tx :: txs, b, h => by
    rw [addTxs_cons, addTxs_cons, ConnectedTx.connectWith, ConnectedTx.connectWith,
      ConnectedTx.addInputs_congr (h tx List.mem_cons_self)]
    exact congrArg _ (funext fun t => addTxs_congr fun tx' ht' =>
      h tx' (List.mem_cons_of_mem _ ht'))

/-- A connected block depends on its own outpoints only. -/
theorem ConnectedBlock.connectWith_congr {blk : Block} (h : ∀ o ∈ blk.spends, f o = g o) :
    CB.connectWith rb f blk = CB.connectWith rb g blk :=
  addTxs_congr fun tx htx o ho => h o (Block.mem_spends.mpr ⟨tx, htx, ho⟩)

theorem ConnectedTx.addInputs_isSome : ∀ {os : List OutPoint} {tx : Tx},
    (CT.addInputs f os tx).isSome = true ↔ ∀ o ∈ os, (f o).isSome = true
  | [], tx => by simp
  | o :: os, tx => by
    rw [addInputs_cons, List.forall_mem_cons]
    cases f o with
    | none => simp
    | some out => simpa using addInputs_isSome

theorem ConnectedBlock.addTxs_isSome : ∀ {txs : List Transaction} {b : Blk},
    (CB.addTxs f txs b).isSome = true ↔ ∀ tx ∈ txs, ∀ o ∈ spends tx.input, (f o).isSome = true
  | [], b => by simp
  | tx :: txs, b => by
    rw [addTxs_cons, List.forall_mem_cons, ← ConnectedTx.addInputs_isSome,
      ← ConnectedTx.connectWith]
    cases CB.tx.connectWith f tx with
    | none => simp
    | some t => simpa using addTxs_isSome

/-- **A block connects exactly when each of its outpoints names an output.** -/
theorem ConnectedBlock.connectWith_isSome {blk : Block} :
    (CB.connectWith rb f blk).isSome = true ↔ ∀ o ∈ blk.spends, (f o).isSome = true := by
  unfold ConnectedBlock.connectWith
  rw [addTxs_isSome]
  constructor
  · intro h o ho
    obtain ⟨tx, htx, ho⟩ := Block.mem_spends.mp ho
    exact h tx htx o ho
  · exact fun h tx htx o ho => h o (Block.mem_spends.mpr ⟨tx, htx, ho⟩)

end Connect

namespace Connectable

variable (hc : Connectable rb chain)
include hc

/-- The outpoints of a connectable chain all name an output. -/
theorem namedOutput_isSome {h : Nat} {blk : Block} (hblk : chain[h]? = some blk) {o : OutPoint}
    (ho : o ∈ blk.spends) : (namedOutput rb chain o).isSome = true := by
  obtain ⟨j, -, blk', hblk', out, hout⟩ := hc.named h blk hblk o ho
  rw [namedOutput_of_creates hc.binds (List.mem_of_getElem? hblk') hout]
  rfl

theorem expectedBlock_eq {Blk Tx Out : Type} (CB : ConnectedBlock Blk Tx Out) {h : Nat}
    {blk : Block} (hblk : chain[h]? = some blk) :
    ∃ b, expectedBlock CB rb chain h = some b ∧
      CB.connectWith rb (namedOutput rb chain) blk = some b := by
  have hsome : (CB.connectWith rb (namedOutput rb chain) blk).isSome = true :=
    ConnectedBlock.connectWith_isSome.mpr fun o ho => hc.namedOutput_isSome hblk ho
  obtain ⟨b, hb⟩ := Option.isSome_iff_exists.mp hsome
  exact ⟨b, by rw [expectedBlock, hblk, Option.bind_some, hb], hb⟩

end Connectable

/-! ## How far a run has come -/

/-- What a run has done so far: the heights whose outputs it has written, and the outpoints it has
taken out. -/
structure Progress where
  written : Nat → Prop
  taken : OutPoint → Prop

namespace Progress

/-- Nothing done. -/
def start : Progress := ⟨fun _ => False, fun _ => False⟩

/-- The outputs of one more height are written. -/
def write (g : Progress) (h : Nat) : Progress := { g with written := fun j => g.written j ∨ j = h }

/-- One more outpoint is taken. -/
def take (g : Progress) (o : OutPoint) : Progress :=
  { g with taken := fun o' => g.taken o' ∨ o' = o }

/-- A written block creates the output. -/
def Available (g : Progress) (rb : RustBitcoin) (chain : List Block) (o : OutPoint) (out : TxOut) :
    Prop :=
  ∃ h blk, g.written h ∧ chain[h]? = some blk ∧ (o, out) ∈ blk.creates rb

variable {g : Progress} {o : OutPoint} {out : TxOut}

theorem available_write {h : Nat} {blk : Block} (hblk : chain[h]? = some blk) :
    (g.write h).Available rb chain o out ↔
      g.Available rb chain o out ∨ (o, out) ∈ blk.creates rb := by
  constructor
  · rintro ⟨j, blk', hw | rfl, hblk', ho⟩
    · exact Or.inl ⟨j, blk', hw, hblk', ho⟩
    · obtain rfl := Option.some.inj (hblk.symm.trans hblk')
      exact Or.inr ho
  · rintro (⟨j, blk', hw, hblk', ho⟩ | ho)
    · exact ⟨j, blk', Or.inl hw, hblk', ho⟩
    · exact ⟨h, blk, Or.inr rfl, hblk, ho⟩

/-- What a block spends is available once its height and those below are written. -/
theorem available_of_spends (hc : Connectable rb chain) {h : Nat} {blk : Block}
    (hblk : chain[h]? = some blk) (hw : ∀ j ≤ h, g.written j) (ho : o ∈ blk.spends) :
    ∃ out, g.Available rb chain o out := by
  obtain ⟨j, hj, blk', hblk', out, hout⟩ := hc.named h blk hblk o ho
  exact ⟨out, j, blk', hw j hj, hblk', hout⟩

/-- An available output is the one its outpoint names. -/
theorem Available.named (hb : TxidBinds rb chain) (h : g.Available rb chain o out) :
    namedOutput rb chain o = some out := by
  obtain ⟨j, blk, -, hblk, ho⟩ := h
  exact namedOutput_of_creates hb (List.mem_of_getElem? hblk) ho

/-- With distinct txids, what a height not yet written creates is not available. -/
theorem not_available (hd : ((transactions chain).map rb.computeTxid).Nodup) {h : Nat} {blk : Block}
    (hblk : chain[h]? = some blk) (hw : ¬ g.written h) {out' : TxOut}
    (ho : (o, out) ∈ blk.creates rb) : ¬ g.Available rb chain o out' := by
  rintro ⟨j, blk', hj, hblk', ho'⟩
  obtain ⟨tx, htx, hid, -⟩ := Block.mem_creates.mp ho
  obtain ⟨tx', htx', hid', -⟩ := Block.mem_creates.mp ho'
  rw [creates_height hd hblk hblk' htx htx' (hid.trans hid'.symm)] at hw
  exact hw hj

end Progress

end BitcoinExplorer
