import BitcoinExplorer.Iter.Ledger
import BitcoinExplorer.Lib.Keeps
import Mathlib.Data.List.Forall2

/-!
# Where the inputs of a connected block may come from

On a chain that is not valid, or with a database that fails, one ledger does not say what an input
is: two reads of one outpoint need not agree. A *source* `C` says which outputs an outpoint may be
given; a connected block comes from a source when each of its inputs does.

* `connectsFrom_iff`: for the source of a ledger, this is the connected block of that ledger.
* `CreatedBelow`: the source the iterator draws on, whatever it runs over: outputs that some block
  below the end creates.
* `ConnectsFrom.unique`: a source that allows one output for each outpoint fixes what comes from it.
* `ConnectsFrom.eq_expectedBlock`: with a txid fixing the outputs, what comes from that source is
  the expected block.
-/

namespace BitcoinExplorer

open Rust

variable {Blk Tx Out : Type}

/-- Add outputs as inputs. -/
def ConnectedTx.addOutputs (CT : ConnectedTx Tx Out) (outs : List TxOut) (tx : Tx) : Tx :=
  outs.foldl (fun t out => CT.addInput t (CT.into out)) tx

/-- The inputs of the connected transaction are outputs the source allows, one for each outpoint the
transaction spends. -/
def ConnectedTx.ConnectsFrom (CT : ConnectedTx Tx Out) (C : OutPoint → TxOut → Prop)
    (tx : Transaction) (t : Tx) : Prop :=
  ∃ outs, List.Forall₂ C (spends tx.input) outs ∧ t = CT.addOutputs outs (CT.ofTx tx)

/-- The connected block has the header of the block and its transactions, connected. -/
def ConnectedBlock.ConnectsFrom (CB : ConnectedBlock Blk Tx Out) (rb : RustBitcoin)
    (C : OutPoint → TxOut → Prop) (blk : Block) (b : Blk) : Prop :=
  ∃ ts, List.Forall₂ (CB.tx.ConnectsFrom C) blk.txdata ts ∧
    b = ts.foldl CB.addTx (CB.ofHeader blk.header (rb.blockHash blk.header))

/-- Some block below the end creates the output under the outpoint. -/
def CreatedBelow (rb : RustBitcoin) (getBlock : Nat → Outcome Error Block) (endHeight : Nat)
    (o : OutPoint) (out : TxOut) : Prop :=
  ∃ h blk, h < endHeight ∧ getBlock h = .ok blk ∧ (o, out) ∈ blk.creates rb

/-- What stage 1 may return for a height: its block; a panic only when reading the block panics. -/
def Fetched (getBlock : Nat → Outcome Error Block) (h : Nat) (r : Outcome Unit Block) : Prop :=
  (∀ blk, r = .ok blk → getBlock h = .ok blk) ∧ (r = .panic → getBlock h = .panic)

variable {CT : ConnectedTx Tx Out} {CB : ConnectedBlock Blk Tx Out} {rb : RustBitcoin}
  {C C' : OutPoint → TxOut → Prop}

theorem ConnectedTx.ConnectsFrom.imp (h : ∀ o out, C o out → C' o out) {tx : Transaction} {t : Tx}
    (ht : CT.ConnectsFrom C tx t) : CT.ConnectsFrom C' tx t := by
  obtain ⟨outs, houts, rfl⟩ := ht
  exact ⟨outs, houts.imp h, rfl⟩

theorem ConnectedBlock.ConnectsFrom.imp (h : ∀ o out, C o out → C' o out) {blk : Block} {b : Blk}
    (hb : CB.ConnectsFrom rb C blk b) : CB.ConnectsFrom rb C' blk b := by
  obtain ⟨ts, hts, rfl⟩ := hb
  exact ⟨ts, hts.imp fun _ _ => ConnectedTx.ConnectsFrom.imp h, rfl⟩

/-- A source that allows one output for each outpoint connects a transaction in one way. -/
theorem ConnectedTx.ConnectsFrom.unique (hC : Relator.RightUnique C) :
    Relator.RightUnique (CT.ConnectsFrom C) := by
  rintro tx t t' ⟨outs, houts, rfl⟩ ⟨outs', houts', rfl⟩
  rw [hC.forall₂ houts houts']

/-- And a block. -/
theorem ConnectedBlock.ConnectsFrom.unique (hC : Relator.RightUnique C) :
    Relator.RightUnique (CB.ConnectsFrom rb C) := by
  rintro blk b b' ⟨ts, hts, rfl⟩ ⟨ts', hts', rfl⟩
  rw [(ConnectedTx.ConnectsFrom.unique hC).forall₂ hts hts']

/-! ## The source of a ledger -/

theorem ConnectedTx.addInputs_eq_some {f : Ledger} : ∀ {os : List OutPoint} {tx t : Tx},
    CT.addInputs f os tx = some t ↔
      ∃ outs, List.Forall₂ (fun o out => f o = some out) os outs ∧ t = CT.addOutputs outs tx
  | [], tx, t => by
    rw [addInputs_nil, Option.some.injEq]
    constructor
    · rintro rfl
      exact ⟨[], .nil, rfl⟩
    · rintro ⟨outs, houts, rfl⟩
      cases houts
      rfl
  | o :: os, tx, t => by
    rw [addInputs_cons, Option.bind_eq_some_iff]
    constructor
    · rintro ⟨out, hout, h⟩
      obtain ⟨outs, houts, rfl⟩ := addInputs_eq_some.mp h
      exact ⟨out :: outs, .cons hout houts, rfl⟩
    · rintro ⟨outs, houts, rfl⟩
      cases houts with
      | cons hout houts => exact ⟨_, hout, addInputs_eq_some.mpr ⟨_, houts, rfl⟩⟩

theorem ConnectedBlock.addTxs_eq_some {f : Ledger} : ∀ {txs : List Transaction} {blk b : Blk},
    CB.addTxs f txs blk = some b ↔
      ∃ ts, List.Forall₂ (CB.tx.ConnectsFrom fun o out => f o = some out) txs ts ∧
        b = ts.foldl CB.addTx blk
  | [], blk, b => by
    rw [addTxs_nil, Option.some.injEq]
    constructor
    · rintro rfl
      exact ⟨[], .nil, rfl⟩
    · rintro ⟨ts, hts, rfl⟩
      cases hts
      rfl
  | tx :: txs, blk, b => by
    rw [addTxs_cons, Option.bind_eq_some_iff]
    constructor
    · rintro ⟨t, ht, h⟩
      obtain ⟨ts, hts, rfl⟩ := addTxs_eq_some.mp h
      exact ⟨t :: ts, .cons (ConnectedTx.addInputs_eq_some.mp ht) hts, rfl⟩
    · rintro ⟨ts, hts, rfl⟩
      cases hts with
      | cons ht hts =>
        exact ⟨_, ConnectedTx.addInputs_eq_some.mpr ht, addTxs_eq_some.mpr ⟨_, hts, rfl⟩⟩

/-- **For the source of a ledger**, what comes from it is the connected block of that ledger. -/
theorem connectsFrom_iff {f : Ledger} {blk : Block} {b : Blk} :
    CB.ConnectsFrom rb (fun o out => f o = some out) blk b ↔ CB.connectWith rb f blk = some b :=
  ConnectedBlock.addTxs_eq_some.symm

/-! ## The source the iterator draws on -/

variable {getBlock : Nat → Outcome Error Block} {endHeight : Nat}

theorem fetched_err {h : Nat} {e : Unit} : Fetched getBlock h (.err e) := ⟨by simp, by simp⟩

theorem createdBelow_of_creates {h : Nat} {blk : Block} (hlt : h < endHeight)
    (hget : getBlock h = .ok blk) {o : OutPoint} {out : TxOut} (ho : (o, out) ∈ blk.creates rb) :
    CreatedBelow rb getBlock endHeight o out :=
  ⟨h, blk, hlt, hget, ho⟩

/-- With a txid fixing the outputs, an output created below the end is the one its outpoint
names. -/
theorem CreatedBelow.named {chain : List Block} (hb : TxidBinds rb chain)
    (hget : ∀ h blk, h < endHeight → getBlock h = .ok blk → chain[h]? = some blk) {o : OutPoint}
    {out : TxOut} (ho : CreatedBelow rb getBlock endHeight o out) :
    namedOutput rb chain o = some out := by
  obtain ⟨h, blk, hlt, hblk, hcr⟩ := ho
  exact namedOutput_of_creates hb (List.mem_of_getElem? (hget h blk hlt hblk)) hcr

/-- **What comes from below the end is the expected block**, when a txid fixes the outputs. -/
theorem ConnectedBlock.ConnectsFrom.eq_expectedBlock {chain : List Block} (hb : TxidBinds rb chain)
    (hget : ∀ h blk, h < endHeight → getBlock h = .ok blk → chain[h]? = some blk) {h : Nat}
    {blk : Block} (hblk : chain[h]? = some blk) {b : Blk}
    (hfrom : CB.ConnectsFrom rb (CreatedBelow rb getBlock endHeight) blk b) :
    expectedBlock CB rb chain h = some b := by
  rw [expectedBlock, hblk, Option.bind_some]
  exact connectsFrom_iff.mp (hfrom.imp fun o out ho => ho.named hb hget)

end BitcoinExplorer
