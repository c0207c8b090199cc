import BitcoinExplorer.Iter.Ledger
import BitcoinExplorer.Iter.VecMap
import BitcoinExplorer.Lib.Pipeline

/-!
# `src/iter/fetch_connected_async.rs`: `in_mem_utxo`

The unspent outputs live in a hash map behind a mutex, from txids to reference-counted mutexes, each
around the `VecMap` of that transaction's outputs. A `Cache` keeps the map and, by number, the inner
cells; a number stands for an `Arc`. An operation is one critical section. The duplicate-key check
of debug builds only logs and is left out.
-/

namespace BitcoinExplorer

open Rust Conc SpendMap

namespace InMem

/-- `InMemoryUtxoCache`: the map, the cells its `Arc`s point to, and the next fresh cell. -/
structure Cache (Out : Type) where
  map : Txid → Option Nat
  cells : Nat → VecMap Out
  next : Nat

/-- The critical sections. -/
inductive Op (Out : Type) where
  /-- `unspent.lock().unwrap().extend(..)`. -/
  | extend (entries : List (Txid × VecMap Out))
  /-- `unspent.lock().unwrap().get(..).cloned()`. -/
  | get (txid : Txid)
  /-- `VecMap::remove` and `VecMap::is_empty` under the lock of one cell. -/
  | remove (cell : Nat) (n : Nat)
  /-- `unspent.lock().unwrap().remove(..)`. -/
  | removeKey (txid : Txid)

/-- The results of the critical sections. -/
def Op.Res {Out : Type} : Op Out → Type
  | .extend _ => Unit
  | .get _ => Option Nat
  | .remove _ _ => Outcome Empty (Option Out × Bool)
  | .removeKey _ => Unit

variable {Out : Type}

/-- Insert one entry: its `VecMap` in a new cell, the key pointing there. -/
def Cache.insert (cache : Cache Out) (entry : Txid × VecMap Out) : Cache Out :=
  { map := Function.update cache.map entry.1 (some cache.next)
    cells := Function.update cache.cells cache.next entry.2
    next := cache.next + 1 }

/-- The mutexes of the cache. -/
abbrev mutexes (tgt : Target) (Out : Type) : Machine where
  State := Cache Out
  Op := Op Out
  Res := Op.Res
  exec
    | .extend entries, cache => ((), entries.foldl Cache.insert cache)
    | .get txid, cache => (cache.map txid, cache)
    | .remove cell n, cache =>
      match (cache.cells cell).remove tgt n with
      | .ok (txOut, v) =>
        (.ok (txOut, v.isEmpty), { cache with cells := Function.update cache.cells cell v })
      | _ => (.panic, cache)
    | .removeKey txid, cache => ((), { cache with map := Function.update cache.map txid none })

section

variable (rb : RustBitcoin) (tgt : Target) {Blk Tx : Type}

/-- The entry `update_unspent_cache` makes for a transaction. -/
def newEntry (CT : ConnectedTx Tx Out) (tx : Transaction) : Txid × VecMap Out :=
  let outs := VecMap.fromVec (tx.output.map fun o => some (CT.into o))
  (rb.computeTxid tx, outs)

/-- `update_unspent_cache`. -/
def updateUnspentCache (CT : ConnectedTx Tx Out) (getBlock : Nat → Outcome Error Block)
    (height : Nat) : Prog (mutexes tgt Out) (Outcome Unit Block) :=
  match (getBlock height).mapErr fun _ => () with
  | .err e => .ret (.err e)
  | .panic => .ret .panic
  | .ok block => .op (.extend (block.txdata.map (newEntry rb CT))) fun _ => .ret (.ok block)

/-- The key is removed when its last output was taken. -/
def removeIfEmpty (isEmpty : Bool) (prevTxid : Txid) : Prog (mutexes tgt Out) (Outcome Unit Unit) :=
  if isEmpty then .op (.removeKey prevTxid) fun _ => .ret (.ok ()) else .ret (.ok ())

/-- The loop over the inputs of a transaction. -/
def inputLoop (CT : ConnectedTx Tx Out) :
    List TxIn → Tx → Prog (mutexes tgt Out) (Outcome Unit Tx)
  | [], outputTx => .ret (.ok outputTx)
  | input :: inputs, outputTx =>
    if input.previousOutput.isNull then inputLoop CT inputs outputTx
    else
      let prevTxid := input.previousOutput.txid
      let n := input.previousOutput.vout.toNat
      .op (.get prevTxid) fun
        | none => .ret (.err ())
        | some prevTx => .op (.remove prevTx n) fun
          | .ok (txOut, isEmpty) =>
            (removeIfEmpty tgt isEmpty prevTxid).andThen fun _ =>
              match txOut with
              | some out => inputLoop CT inputs (CT.addInput outputTx out)
              | none => .ret (.err ())
          | _ => .ret .panic

/-- The loop over the transactions of a block. -/
def txLoop (CB : ConnectedBlock Blk Tx Out) :
    List Transaction → Blk → Prog (mutexes tgt Out) (Outcome Unit Blk)
  | [], outputBlock => .ret (.ok outputBlock)
  | tx :: txs, outputBlock =>
    (inputLoop tgt CB.tx tx.input (CB.tx.ofTx tx)).andThen fun outputTx =>
      txLoop CB txs (CB.addTx outputBlock outputTx)

/-- `connect_outpoints`. -/
def connectOutpoints (CB : ConnectedBlock Blk Tx Out) (block : Block) :
    Prog (mutexes tgt Out) (Outcome Unit Blk) :=
  let blockHash := rb.blockHash block.header
  txLoop tgt CB block.txdata (CB.ofHeader block.header blockHash)

/-- `ConnectedBlockIter::new`: the two stages over an empty cache. -/
def connectedBlockIter (CB : ConnectedBlock Blk Tx Out) (getBlock : Nat → Outcome Error Block)
    (endHeight : Nat) : Pipeline (mutexes tgt Out) Unit Block Blk where
  len := endHeight
  stage1 := updateUnspentCache rb tgt CB.tx getBlock
  stage2 := connectOutpoints rb tgt CB

/-- The new cache of the iterator. -/
def emptyCache : Cache Out :=
  { map := fun _ => none, cells := fun _ => VecMap.fromVec [], next := 0 }

end

/-- The unspent output the cache holds at an outpoint. -/
def Cache.lookup (cache : Cache Out) (o : OutPoint) : Option Out :=
  (cache.map o.txid).bind fun cell => (cache.cells cell).slot o.vout.toNat

variable {rb : RustBitcoin} {tgt : Target} {chain : List Block} {Blk Tx : Type}

/-! ## A transaction's entry -/

theorem wf_newEntry (CT : ConnectedTx Tx Out) (tx : Transaction) : (newEntry rb CT tx).2.Wf :=
  VecMap.wf_fromVec (by simp) (by simpa using tx.output_lt)

theorem slot_newEntry (CT : ConnectedTx Tx Out) (tx : Transaction) (n : Nat) :
    (newEntry rb CT tx).2.slot n = (tx.output[n]?).map CT.into := by
  unfold newEntry
  rw [VecMap.slot_fromVec, List.getElem?_map]
  cases tx.output[n]? <;> rfl

/-! ## The two stages run alone -/

/-- The cache holds a ledger: what it finds at an outpoint is the ledger's output, converted; its
cells are counted, hold nothing past a `u32` index, and belong to one key each. -/
structure Holds (CT : ConnectedTx Tx Out) (m : Ledger) (cache : Cache Out) : Prop where
  lookup : ∀ o, cache.lookup o = (m o).map CT.into
  wf : ∀ txid cell, cache.map txid = some cell → (cache.cells cell).Wf
  slots : ∀ txid cell n, cache.map txid = some cell → 2 ^ 32 ≤ n → (cache.cells cell).slot n = none
  fresh : ∀ txid cell, cache.map txid = some cell → cell < cache.next
  inj : ∀ txid txid' cell, cache.map txid = some cell → cache.map txid' = some cell → txid = txid'

theorem holds_emptyCache (CT : ConnectedTx Tx Out) : Holds CT (fun _ => none) emptyCache where
  lookup _ := rfl
  wf _ _ h := absurd h (by simp [emptyCache])
  slots _ _ _ h := absurd h (by simp [emptyCache])
  fresh _ _ h := absurd h (by simp [emptyCache])
  inj _ _ _ h := absurd h (by simp [emptyCache])

namespace Holds

variable {CT : ConnectedTx Tx Out} {m : Ledger} {cache : Cache Out}

/-- Inserting a transaction's entry puts its outputs, when the ledger holds no output of that
transaction beyond them. -/
theorem insert (h : Holds CT m cache) {tx : Transaction}
    (hm : ∀ o out, m o = some out → rb.computeTxid tx = o.txid → o.vout.toNat < tx.output.length) :
    Holds CT (putAll m (creates rb tx)) (cache.insert (newEntry rb CT tx)) := by
  have hmap : ∀ txid, (cache.insert (newEntry rb CT tx)).map txid =
      if txid = rb.computeTxid tx then some cache.next else cache.map txid := fun txid =>
    Function.update_apply _ _ _ _
  have hcell : ∀ cell, (cache.insert (newEntry rb CT tx)).cells cell =
      if cell = cache.next then (newEntry rb CT tx).2 else cache.cells cell := fun cell =>
    Function.update_apply _ _ _ _
  -- every key of the new map is the new one, or an old one with an old cell
  have hcases : ∀ txid cell, (cache.insert (newEntry rb CT tx)).map txid = some cell →
      (txid = rb.computeTxid tx ∧ cell = cache.next) ∨
        (txid ≠ rb.computeTxid tx ∧ cache.map txid = some cell ∧ cell < cache.next) := by
    intro txid cell hget
    rw [hmap] at hget
    split at hget
    · rename_i he
      exact Or.inl ⟨he, (Option.some.inj hget).symm⟩
    · rename_i hne
      exact Or.inr ⟨hne, hget, h.fresh txid cell hget⟩
  constructor
  · intro o
    unfold Cache.lookup
    rw [hmap]
    by_cases hid : o.txid = rb.computeTxid tx
    · rw [if_pos hid, Option.bind_some, hcell, if_pos rfl, slot_newEntry]
      congr 1
      cases hget : tx.output[o.vout.toNat]? with
      | some out =>
        refine (putAll_of_mem (mem_creates.mpr ⟨hid.symm, hget⟩) (fun out' hout' => ?_) m).symm
        exact Option.some.inj ((mem_creates.mp hout').2.symm.trans hget)
      | none =>
        rw [putAll_of_not_mem fun out hout => ?_]
        · cases hmo : m o with
          | none => rfl
          | some out =>
            have := List.getElem?_eq_none_iff.mp hget
            exact absurd (hm o out hmo hid.symm) (by omega)
        · rw [(mem_creates.mp hout).2] at hget
          exact absurd hget (by simp)
    · rw [if_neg hid, putAll_of_not_mem fun out hout => hid (mem_creates.mp hout).1.symm,
        ← h.lookup o, Cache.lookup]
      cases hget : cache.map o.txid with
      | none => rfl
      | some cell =>
        have := h.fresh _ _ hget
        rw [Option.bind_some, Option.bind_some, hcell, if_neg (by omega)]
  · intro txid cell hget
    rw [hcell]
    rcases hcases txid cell hget with ⟨-, rfl⟩ | ⟨-, hold, hlt⟩
    · rw [if_pos rfl]
      exact wf_newEntry CT tx
    · rw [if_neg (by omega)]
      exact h.wf txid cell hold
  · intro txid cell n hget hn
    rw [hcell]
    rcases hcases txid cell hget with ⟨-, rfl⟩ | ⟨-, hold, hlt⟩
    · rw [if_pos rfl, slot_newEntry, List.getElem?_eq_none (tx.output_lt.le.trans hn)]
      rfl
    · rw [if_neg (by omega)]
      exact h.slots txid cell n hold hn
  · intro txid cell hget
    change cell < cache.next + 1
    rcases hcases txid cell hget with ⟨-, rfl⟩ | ⟨-, -, hlt⟩
    · omega
    · omega
  · intro txid txid' cell hget hget'
    rcases hcases txid cell hget with ⟨rfl, rfl⟩ | ⟨-, hold, hlt⟩
    · rcases hcases txid' _ hget' with ⟨rfl, -⟩ | ⟨-, -, hlt'⟩
      · rfl
      · omega
    · rcases hcases txid' _ hget' with ⟨-, rfl⟩ | ⟨-, hold', -⟩
      · omega
      · exact h.inj txid txid' cell hold hold'

/-- Taking the output at an outpoint empties its slot. -/
theorem take (h : Holds CT m cache) {o : OutPoint} {cell : Nat} {v : VecMap Out}
    (hcell : cache.map o.txid = some cell) (hv : v.Wf)
    (hslot : ∀ n, v.slot n = if n = o.vout.toNat then none else (cache.cells cell).slot n) :
    Holds CT (Function.update m o none)
      { cache with cells := Function.update cache.cells cell v } := by
  have hother : ∀ txid cell', cache.map txid = some cell' → txid ≠ o.txid → cell' ≠ cell := by
    rintro txid cell' hget hne rfl
    exact hne (h.inj txid o.txid cell' hget hcell)
  constructor
  · intro o'
    unfold Cache.lookup
    dsimp only
    by_cases hid : o'.txid = o.txid
    · rw [hid, hcell, Option.bind_some, Function.update_self, hslot]
      by_cases hv' : o'.vout.toNat = o.vout.toNat
      · have : o' = o := by
          cases o'
          cases o
          cases hid
          cases UInt32.toNat_inj.mp hv'
          rfl
        rw [if_pos hv', this, Function.update_self]
        rfl
      · have hne : o' ≠ o := fun he => hv' (he ▸ rfl)
        rw [if_neg hv', Function.update_of_ne hne, ← h.lookup o', Cache.lookup, hid, hcell]
        rfl
    · have hne : o' ≠ o := fun he => hid (he ▸ rfl)
      rw [Function.update_of_ne hne, ← h.lookup o', Cache.lookup]
      cases hget : cache.map o'.txid with
      | none => rfl
      | some cell' =>
        rw [Option.bind_some, Option.bind_some,
          Function.update_of_ne (hother _ _ hget hid)]
  · intro txid cell' hget
    by_cases he : cell' = cell
    · subst he
      simpa only [Function.update_self] using hv
    · simpa only [Function.update_of_ne he] using h.wf txid cell' hget
  · intro txid cell' n hget hn
    by_cases he : cell' = cell
    · subst he
      simp only [Function.update_self]
      rw [hslot]
      split
      · rfl
      · exact h.slots txid cell' n hget hn
    · simpa only [Function.update_of_ne he] using h.slots txid cell' n hget hn
  · exact h.fresh
  · exact h.inj

/-- Removing the key of an empty cell changes nothing that can be looked up. -/
theorem removeKey (h : Holds CT m cache) {txid : Txid} {cell : Nat}
    (hcell : cache.map txid = some cell) (hempty : ∀ n, (cache.cells cell).slot n = none) :
    Holds CT m { cache with map := Function.update cache.map txid none } := by
  have hsub : ∀ txid' cell', Function.update cache.map txid none txid' = some cell' →
      cache.map txid' = some cell' := by
    intro txid' cell' hget
    by_cases he : txid' = txid
    · subst he
      rw [Function.update_self] at hget
      exact absurd hget (by simp)
    · rwa [Function.update_of_ne he] at hget
  constructor
  · intro o
    rw [← h.lookup o]
    unfold Cache.lookup
    dsimp only
    by_cases he : o.txid = txid
    · rw [he, Function.update_self, hcell, Option.bind_some, hempty]
      rfl
    · rw [Function.update_of_ne he]
  · exact fun txid' cell' hget => h.wf txid' cell' (hsub _ _ hget)
  · exact fun txid' cell' n hget => h.slots txid' cell' n (hsub _ _ hget)
  · exact fun txid' cell' hget => h.fresh txid' cell' (hsub _ _ hget)
  · exact fun txid₁ txid₂ cell' h₁ h₂ => h.inj txid₁ txid₂ cell' (hsub _ _ h₁) (hsub _ _ h₂)

/-- Inserting the entries of a list of transactions puts their outputs. -/
theorem extend (hb : TxidBinds rb chain) : ∀ {txs : List Transaction} {m : Ledger}
    {cache : Cache Out}, Holds CT m cache → CreatedBy rb chain m →
    (∀ tx ∈ txs, tx ∈ transactions chain) →
    Holds CT (putAll m (txs.flatMap (creates rb)))
      ((txs.map (newEntry rb CT)).foldl Cache.insert cache)
  | [], _, _, h, _, _ => h
  | tx :: txs, m, cache, h, hm, hmem => by
    rw [List.flatMap_cons, putAll_append, List.map_cons, List.foldl_cons]
    have htx := hmem tx List.mem_cons_self
    refine extend hb (h.insert fun o out hout hid => ?_) (hm.put htx)
      fun tx' ht' => hmem tx' (List.mem_cons_of_mem _ ht')
    obtain ⟨tx', htx', hout'⟩ := hm o out hout
    obtain ⟨hid', hget⟩ := mem_creates.mp hout'
    rw [hb tx htx tx' htx' (hid.trans hid'.symm)]
    exact (List.getElem?_eq_some_iff.mp hget).1

end Holds

/-- **`update_unspent_cache` alone** puts the outputs the block creates. -/
theorem updateUnspentCache_run (hb : TxidBinds rb chain) {CT : ConnectedTx Tx Out} {m : Ledger}
    {cache : Cache Out} {getBlock : Nat → Outcome Error Block} {height : Nat} {block : Block}
    (hget : getBlock height = .ok block) (hblk : block ∈ chain) (h : Holds CT m cache)
    (hm : CreatedBy rb chain m) :
    ∃ cache', (updateUnspentCache rb tgt CT getBlock height).run cache = (.ok block, cache') ∧
      Holds CT (putAll m (block.creates rb)) cache' := by
  refine ⟨(block.txdata.map (newEntry rb CT)).foldl Cache.insert cache, ?_,
    h.extend hb hm fun tx htx => mem_transactions.mpr ⟨block, hblk, htx⟩⟩
  unfold updateUnspentCache
  rw [hget]
  rfl

section Run

variable {CT : ConnectedTx Tx Out} {m : Ledger} {cache : Cache Out}

/-- One input whose output is there is taken, whether or not that empties its cell. -/
theorem inputLoop_run_some (h : Holds CT m cache) {input : TxIn} {out : TxOut}
    (hnull : input.previousOutput.isNull = false) (hm : m input.previousOutput = some out)
    (inputs : List TxIn) (tx : Tx) :
    ∃ cache', Holds CT (Function.update m input.previousOutput none) cache' ∧
      (inputLoop tgt CT (input :: inputs) tx).run cache =
        (inputLoop tgt CT inputs (CT.addInput tx (CT.into out))).run cache' := by
  have hlook := h.lookup input.previousOutput
  rw [hm, Option.map_some] at hlook
  obtain ⟨cell, hcell, hslot⟩ := Option.bind_eq_some_iff.mp hlook
  obtain ⟨v, hrem, hv, hvslot⟩ := VecMap.remove_spec (h.wf _ cell hcell) tgt
    input.previousOutput.vout.toNat
  have htake := h.take hcell hv hvslot
  rw [inputLoop, if_neg (by rw [hnull]; exact Bool.false_ne_true)]
  dsimp only
  rw [Prog.run_op]
  dsimp only
  rw [hcell]
  dsimp only
  rw [Prog.run_op]
  dsimp only
  rw [hrem, hslot]
  dsimp only
  cases hempty : v.isEmpty with
  | false => exact ⟨_, htake, rfl⟩
  | true =>
    refine ⟨_, htake.removeKey hcell fun n => ?_, rfl⟩
    dsimp only
    rw [Function.update_self]
    exact (VecMap.isEmpty_iff hv).mp hempty n

/-- One input whose output is not there ends in `Err`. -/
theorem inputLoop_run_none (h : Holds CT m cache) {input : TxIn}
    (hnull : input.previousOutput.isNull = false) (hm : m input.previousOutput = none)
    (inputs : List TxIn) (tx : Tx) :
    ∃ cache', (inputLoop tgt CT (input :: inputs) tx).run cache = (.err (), cache') := by
  have hlook := h.lookup input.previousOutput
  rw [hm, Option.map_none] at hlook
  rw [inputLoop, if_neg (by rw [hnull]; exact Bool.false_ne_true)]
  dsimp only
  rw [Prog.run_op]
  dsimp only
  cases hcell : cache.map input.previousOutput.txid with
  | none => exact ⟨_, rfl⟩
  | some cell =>
    dsimp only
    obtain ⟨v, hrem, hv, -⟩ := VecMap.remove_spec (h.wf _ cell hcell) tgt
      input.previousOutput.vout.toNat
    have hslot : (cache.cells cell).slot input.previousOutput.vout.toNat = none := by
      rw [Cache.lookup, hcell, Option.bind_some] at hlook
      exact hlook
    rw [Prog.run_op]
    dsimp only
    rw [hrem, hslot]
    dsimp only
    cases v.isEmpty with
    | false => exact ⟨_, rfl⟩
    | true => exact ⟨_, rfl⟩

/-- The input loop alone takes the outpoints of its inputs one by one, or ends in `Err`. -/
theorem inputLoop_run : ∀ {inputs : List TxIn} {m : Ledger} {cache : Cache Out} (tx : Tx),
    Holds CT m cache →
    (∀ vs m', takeAll m (spends inputs) = some (vs, m') → ∃ cache' t,
      (inputLoop tgt CT inputs tx).run cache = (.ok t, cache') ∧ Holds CT m' cache' ∧
        CT.addInputs m (spends inputs) tx = some t) ∧
    (takeAll m (spends inputs) = none → ∃ cache',
      (inputLoop tgt CT inputs tx).run cache = (.err (), cache'))
  | [], m, cache, tx, h => by
    refine ⟨fun vs m' htake => ?_, fun htake => absurd htake (by simp [takeAll])⟩
    obtain ⟨rfl, rfl⟩ := Prod.mk.inj (Option.some.inj htake)
    exact ⟨cache, tx, rfl, h, rfl⟩
  | input :: inputs, m, cache, tx, h => by
    by_cases hnull : input.previousOutput.isNull = true
    · rw [spends_cons_null hnull, inputLoop, if_pos hnull]
      exact inputLoop_run tx h
    · have hnull' := Bool.eq_false_iff.mpr hnull
      rw [spends_cons hnull', takeAll]
      cases hm : m input.previousOutput with
      | none => exact ⟨fun _ _ htake => absurd htake (by simp), fun _ =>
          inputLoop_run_none h hnull' hm inputs tx⟩
      | some out =>
        obtain ⟨cache₁, h₁, hrun⟩ := inputLoop_run_some h hnull' hm inputs tx
        obtain ⟨hsome, hnone⟩ := inputLoop_run (CT.addInput tx (CT.into out)) h₁
        rw [hrun, Option.bind_some]
        refine ⟨fun vs m' htake => ?_, fun htake => hnone (Option.map_eq_none_iff.mp htake)⟩
        obtain ⟨⟨ws, m₁⟩, htake₁, he⟩ := Option.map_eq_some_iff.mp htake
        obtain ⟨-, rfl⟩ := Prod.mk.inj he
        obtain ⟨cache', t, hrun', hholds, hadd⟩ := hsome ws m₁ htake₁
        refine ⟨cache', t, hrun', hholds, ?_⟩
        rw [ConnectedTx.addInputs_cons, hm, Option.bind_some, ← hadd]
        exact ConnectedTx.addInputs_congr fun o ho => (takeAll_update_of_mem htake₁ ho).symm

/-- The transaction loop alone takes the outpoints of its transactions, or ends in `Err`. -/
theorem txLoop_run {CB : ConnectedBlock Blk Tx Out} : ∀ {txs : List Transaction} {m : Ledger}
    {cache : Cache Out} (b : Blk), Holds CB.tx m cache →
    (∀ vs m', takeAll m (txs.flatMap fun tx => spends tx.input) = some (vs, m') → ∃ cache' b',
      (txLoop tgt CB txs b).run cache = (.ok b', cache') ∧ Holds CB.tx m' cache' ∧
        CB.addTxs m txs b = some b') ∧
    (takeAll m (txs.flatMap fun tx => spends tx.input) = none → ∃ cache',
      (txLoop tgt CB txs b).run cache = (.err (), cache'))
  | [], m, cache, b, h => by
    refine ⟨fun vs m' htake => ?_, fun htake => absurd htake (by simp [takeAll])⟩
    obtain ⟨rfl, rfl⟩ := Prod.mk.inj (Option.some.inj htake)
    exact ⟨cache, b, rfl, h, rfl⟩
  | tx :: txs, m, cache, b, h => by
    obtain ⟨hsome, hnone⟩ := inputLoop_run (CB.tx.ofTx tx) h
    rw [List.flatMap_cons, takeAll_append, txLoop]
    cases htake : takeAll m (spends tx.input) with
    | none =>
      obtain ⟨cache', hrun⟩ := hnone htake
      exact ⟨fun _ _ h' => absurd h' (by simp), fun _ => ⟨cache', Prog.run_andThen_err hrun _⟩⟩
    | some p =>
      obtain ⟨vs, m₁⟩ := p
      obtain ⟨cache₁, t, hrun, h₁, hadd⟩ := hsome vs m₁ htake
      rw [Prog.run_andThen_ok hrun, Option.bind_some]
      obtain ⟨hsome₁, hnone₁⟩ := txLoop_run (CB.addTx b t) h₁
      refine ⟨fun vs' m' h' => ?_, fun h' => hnone₁ (Option.map_eq_none_iff.mp h')⟩
      obtain ⟨⟨ws, m₂⟩, htake₁, he⟩ := Option.map_eq_some_iff.mp h'
      obtain ⟨-, rfl⟩ := Prod.mk.inj he
      obtain ⟨cache', b', hrun', hholds, hadd'⟩ := hsome₁ ws m₂ htake₁
      refine ⟨cache', b', hrun', hholds, ?_⟩
      rw [ConnectedBlock.addTxs_cons, ConnectedTx.connectWith, hadd, Option.bind_some, ← hadd']
      refine ConnectedBlock.addTxs_congr fun tx' ht' o ho => ?_
      exact (takeAll_takeAll_of_mem htake htake₁ (List.mem_flatMap.mpr ⟨tx', ht', ho⟩)).symm

/-- **`connect_outpoints` alone** connects the block when its outpoints can be taken one by one,
that is, when they are distinct and all there, and ends in `Err` otherwise. -/
theorem connectOutpoints_run {CB : ConnectedBlock Blk Tx Out} (h : Holds CB.tx m cache)
    (block : Block) :
    (block.spends.Nodup → ∀ b, CB.connectWith rb m block = some b → ∃ cache',
      (connectOutpoints rb tgt CB block).run cache = (.ok b, cache') ∧
        Holds CB.tx (eraseAll m block.spends) cache') ∧
    (¬ block.spends.Nodup ∨ CB.connectWith rb m block = none → ∃ cache',
      (connectOutpoints rb tgt CB block).run cache = (.err (), cache')) := by
  obtain ⟨hsome, hnone⟩ := txLoop_run
    (CB.ofHeader block.header (rb.blockHash block.header)) h
  constructor
  · intro hnd b hb
    have hall := ConnectedBlock.connectWith_isSome.mp (Option.isSome_iff_exists.mpr ⟨b, hb⟩)
    obtain ⟨vs, hvs⟩ := exists_map_some hall
    obtain ⟨cache', b', hrun, hholds, hadd⟩ := hsome vs _ (takeAll_eq_some.mpr ⟨hnd, hvs, rfl⟩)
    obtain rfl := Option.some.inj (hb.symm.trans hadd)
    exact ⟨cache', hrun, hholds⟩
  · intro hor
    refine hnone (Option.eq_none_iff_forall_ne_some.mpr fun p hp => ?_)
    obtain ⟨vs, m'⟩ := p
    obtain ⟨hnd, hvs, -⟩ := takeAll_eq_some.mp hp
    rcases hor with hor | hor
    · exact hor hnd
    · have hall : ∀ o ∈ block.spends, (m o).isSome = true := by
        intro o ho
        have : m o ∈ vs.map some := hvs ▸ List.mem_map_of_mem ho
        obtain ⟨v, -, hv⟩ := List.mem_map.mp this
        rw [← hv]
        rfl
      have hsome : (CB.connectWith rb m block).isSome = true :=
        ConnectedBlock.connectWith_isSome.mpr hall
      rw [hor] at hsome
      exact absurd hsome (by simp)

end Run

end InMem

end BitcoinExplorer
