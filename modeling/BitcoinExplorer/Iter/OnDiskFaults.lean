import BitcoinExplorer.Iter.OnDisk
import BitcoinExplorer.Iter.Provenance
import BitcoinExplorer.Lib.Delivery
import BitcoinExplorer.Lib.Lockstep

/-!
# The on-disk iterator over a database that fails

RocksDB may return an error from any call: a write or a deletion that fails may have taken effect or
not, and `multi_get` may fail item by item; and the database may not open at all, in which case
`ConnectedBlockIter::new` returns the null iterator. `Fault` says how one call goes wrong and
`FaultyDB` carries the faults of all calls to come, so that a statement for every `FaultyDB` is one
for every way in which the calls may fail.

* `faulty_none`, `faultless`: without a fault, a call is that of the database that never fails, and
  an iterator without faults runs in lockstep with the one over that database.
* **`onDisk_faults_safe`**: over any blocks, valid or not, under every schedule and all faults, no
  task panics, and every block delivered is the block of its height, connected with outputs that
  blocks below the end create.
-/

namespace BitcoinExplorer

open Rust Conc SpendMap

namespace OnDisk

/-- How one call of the database goes wrong. -/
structure Fault where
  /-- A write or a deletion returns an error. -/
  fails : Bool
  /-- It takes effect all the same. -/
  applied : Bool
  /-- The items of a `multi_get` that are errors. -/
  item : Nat → Bool

/-- A call that does not go wrong. -/
def Fault.none : Fault := ⟨false, false, fun _ => false⟩

/-- The database, how its calls will go wrong, and how many there were. -/
structure FaultyDB where
  db : List UInt8 → Option (List UInt8)
  faults : Nat → Fault
  calls : Nat

/-- One call of the database, with its fault. -/
def faulty (fault : Fault) : (o : Op) → (List UInt8 → Option (List UInt8)) →
    o.Res × (List UInt8 → Option (List UInt8))
  | .write batch, db =>
    if fault.fails then (.error (), if fault.applied then putAll db batch else db)
    else (.ok (), putAll db batch)
  | .multiGet keys, db =>
    (keys.zipIdx.map fun p => if fault.item p.2 then .error () else .ok (db p.1), db)
  | .delete key, db =>
    if fault.fails then
      (.error (), if fault.applied then Function.update db key Option.none else db)
    else (.ok (), Function.update db key Option.none)

/-- The next call, with the next fault. -/
def FaultyDB.exec (o : Op) (σ : FaultyDB) : o.Res × FaultyDB :=
  let r := faulty (σ.faults σ.calls) o σ.db
  (r.1, { σ with db := r.2, calls := σ.calls + 1 })

/-- A new database, with the faults to come. -/
def FaultyDB.empty (faults : Nat → Fault) : FaultyDB := ⟨emptyCache, faults, 0⟩

/-- **A call without a fault** is one of the database that never fails. -/
theorem faulty_none (o : Op) (db : rocksDB.State) : faulty Fault.none o db = rocksDB.exec o db := by
  cases o with
  | write batch => rfl
  | delete key => rfl
  | multiGet keys =>
    refine Prod.ext ?_ rfl
    change (keys.zipIdx.map fun p => Except.ok (db p.1)) = keys.map fun key => .ok (db key)
    conv_rhs => rw [← List.zipIdx_map_fst 0 keys, List.map_map]
    rfl

section

variable (rb : RustBitcoin) (tgt : Target) {Blk Tx Out : Type}

/-- `ConnectedBlockIter::null`: an iterator without a task. -/
def null : Pipeline (rocksDB.onto FaultyDB FaultyDB.exec) Unit Block Blk where
  len := 0
  stage1 _ := .ret (.err ())
  stage2 _ := .ret (.err ())

/-- `ConnectedBlockIter::new`; `opens` says whether the temporary directory and the database in it
could be created. -/
def faultyBlockIter (opens : Bool) (CB : ConnectedBlock Blk Tx Out)
    (getBlock : Nat → Outcome Error Block) (endHeight : Nat) :
    Pipeline (rocksDB.onto FaultyDB FaultyDB.exec) Unit Block Blk :=
  if opens then (connectedBlockIter rb tgt CB getBlock endHeight).onto FaultyDB.exec else null

end

variable {rb : RustBitcoin} {tgt : Target} {Blk Tx Out : Type} {C : OutPoint → TxOut → Prop}

/-- Without faults, and when the database opens, every schedule is one of the iterator over the
database that never fails, and the consumers see the same. -/
theorem faultless (rb : RustBitcoin) (tgt : Target) (CB : ConnectedBlock Blk Tx Out)
    (getBlock : Nat → Outcome Error Block) (endHeight : Nat) :
    Lockstep (connectedBlockIter rb tgt CB getBlock endHeight)
      (faultyBlockIter rb tgt true CB getBlock endHeight)
      (fun db (σ : FaultyDB) => σ.db = db ∧ ∀ n, σ.faults n = Fault.none) Eq Eq := by
  refine Lockstep.onto (fun o db σ hσ => ?_) _
  obtain ⟨rfl, hnone⟩ := hσ
  unfold FaultyDB.exec
  rw [hnone, faulty_none]
  exact ⟨rfl, rfl, hnone⟩

/-! ## What the database holds, whatever fails -/

/-- What the database holds under an outpoint is an output the source allows, encoded. -/
def Sourced (rb : RustBitcoin) (tgt : Target) (C : OutPoint → TxOut → Prop)
    (db : List UInt8 → Option (List UInt8)) : Prop :=
  ∀ o bytes, db (outpointKey tgt o) = some bytes → ∃ out, C o out ∧ bytes = rb.encodeTxOut out

variable {db : List UInt8 → Option (List UInt8)}

/-- The batch of a block the source covers. -/
theorem Sourced.write (hs : Sourced rb tgt C db) {blk : Block}
    (hblk : ∀ o out, (o, out) ∈ blk.creates rb → C o out) :
    Sourced rb tgt C (putAll db (newOutputs rb tgt blk)) := by
  intro o bytes hget
  rcases mem_of_putAll hget with hmem | hold
  · rw [newOutputs_eq] at hmem
    obtain ⟨⟨o', out⟩, ho, he⟩ := List.mem_map.mp hmem
    obtain ⟨hkey, rfl⟩ := Prod.mk.inj he
    obtain rfl := outpointKey_injective hkey
    exact ⟨out, hblk o' out ho, rfl⟩
  · exact hs o bytes hold

theorem Sourced.delete (hs : Sourced rb tgt C db) (key : List UInt8) :
    Sourced rb tgt C (Function.update db key none) := by
  intro o bytes hget
  by_cases hk : outpointKey tgt o = key
  · rw [hk, Function.update_self] at hget
    cases hget
  · rw [Function.update_of_ne hk] at hget
    exact hs o bytes hget

/-- Items read for a list of outpoints: what one decodes to is allowed for its outpoint. -/
def Reads (rb : RustBitcoin) (C : OutPoint → TxOut → Prop) (os : List OutPoint)
    (items : List (Except Unit (Option (List UInt8)))) : Prop :=
  List.Forall₂ (fun o item => ∀ out, prevTxo rb item = some out → C o out) os items

/-- A `multi_get` reads what the database holds, with whatever items it fails. -/
theorem Sourced.reads (hs : Sourced rb tgt C db)
    (hdec : ∀ o out, C o out → rb.decodeTxOut (rb.encodeTxOut out) = some out) (fault : Fault) :
    ∀ (os : List OutPoint) (n : Nat),
      Reads rb C os (((os.map (outpointKey tgt)).zipIdx n).map fun p =>
        if fault.item p.2 then .error () else .ok (db p.1))
  | [], n => .nil
  | o :: os, n => by
    rw [List.map_cons, List.zipIdx_cons, List.map_cons]
    refine .cons (fun out hout => ?_) (hs.reads hdec fault os (n + 1))
    dsimp only at hout
    split at hout
    · cases hout
    · cases hget : db (outpointKey tgt o) with
      | none =>
        rw [hget] at hout
        cases hout
      | some bytes =>
        obtain ⟨out', hC, rfl⟩ := hs o bytes hget
        rw [hget] at hout
        obtain rfl := Option.some.inj ((hdec o out' hC).symm.trans hout)
        exact hC

/-! ## The loops over the items read -/

/-- The input loop adds an output the source allows for each outpoint. -/
theorem inputLoop_from (CT : ConnectedTx Tx Out)
    {txOuts : List (Except Unit (Option (List UInt8)))} :
    ∀ {inputs : List TxIn} {tx : Tx} {pos : Nat} {rest : List OutPoint},
    Reads rb C (spends inputs ++ rest) (txOuts.drop pos) →
    (inputLoop rb CT txOuts inputs tx pos).Safe fun p => ∃ outs,
      List.Forall₂ C (spends inputs) outs ∧
        p = (CT.addOutputs outs tx, pos + (spends inputs).length)
  | [], tx, pos, rest, _ => ⟨[], .nil, rfl⟩
  | input :: inputs, tx, pos, rest, h => by
    unfold inputLoop
    by_cases hnull : input.previousOutput.isNull = true
    · rw [spends_cons_null hnull] at h ⊢
      rw [if_pos hnull]
      exact inputLoop_from CT h
    · rw [if_neg hnull]
      rw [spends_cons (by simpa using hnull)] at h ⊢
      rw [List.cons_append] at h
      obtain ⟨item, items, hitem, hitems, hdrop⟩ := List.forall₂_cons_left_iff.mp h
      have hget : txOuts[pos]? = some item := by
        rw [← List.head?_drop, hdrop, List.head?_cons]
      have hnext : txOuts.drop (pos + 1) = items := by
        rw [← List.drop_drop, hdrop, List.drop_one, List.tail_cons]
      rw [hget]
      dsimp only
      cases hout : prevTxo rb item with
      | none => trivial
      | some out =>
        refine (inputLoop_from CT (hnext ▸ hitems)).imp ?_
        rintro p ⟨outs, houts, rfl⟩
        refine ⟨out :: outs, .cons (hitem out hout) houts, ?_⟩
        rw [List.length_cons, Nat.add_right_comm, Nat.add_assoc]
        rfl

/-- The transaction loop adds transactions connected from the source. -/
theorem txLoop_from (CB : ConnectedBlock Blk Tx Out)
    {txOuts : List (Except Unit (Option (List UInt8)))} :
    ∀ {txs : List Transaction} {b : Blk} {pos : Nat},
    Reads rb C (txs.flatMap fun tx => spends tx.input) (txOuts.drop pos) →
    (txLoop rb CB txOuts txs b pos).Safe fun b' =>
      ∃ ts, List.Forall₂ (CB.tx.ConnectsFrom C) txs ts ∧ b' = ts.foldl CB.addTx b
  | [], b, pos, _ => ⟨[], .nil, rfl⟩
  | tx :: txs, b, pos, h => by
    rw [List.flatMap_cons] at h
    refine (inputLoop_from CB.tx h).bind ?_
    rintro p ⟨outs, houts, rfl⟩
    have hrest : Reads rb C (txs.flatMap fun tx => spends tx.input)
        (txOuts.drop (pos + (spends tx.input).length)) := by
      have hdrop := List.forall₂_drop (spends tx.input).length h
      rwa [List.drop_left, List.drop_drop] at hdrop
    refine (txLoop_from CB hrest).imp ?_
    rintro b' ⟨ts, hts, rfl⟩
    exact ⟨_ :: ts, .cons ⟨outs, houts, rfl⟩ hts, rfl⟩

/-! ## The two stages keep the database sourced -/

/-- The database of the faulty machine is sourced. -/
def SourcedDB (rb : RustBitcoin) (tgt : Target) (C : OutPoint → TxOut → Prop) (_ : NoGhost)
    (σ : FaultyDB) : Prop := Sourced rb tgt C σ.db

/-- A call that fails leaves what was there, or what it would have left. -/
theorem SourcedDB.exec {σ : FaultyDB} (hs : SourcedDB rb tgt C .mk σ) {o : Op}
    (ho : Sourced rb tgt C (rocksDB.exec o σ.db).2) :
    SourcedDB rb tgt C .mk (FaultyDB.exec o σ).2 := by
  unfold SourcedDB FaultyDB.exec faulty
  cases o with
  | multiGet keys => exact hs
  | write batch =>
    dsimp only
    split
    · split
      · exact ho
      · exact hs
    · exact ho
  | delete key =>
    dsimp only
    split
    · split
      · exact ho
      · exact hs
    · exact ho

theorem updateUnspentCache_keeps {getBlock : Nat → Outcome Error Block} {h : Nat}
    (hC : ∀ blk, getBlock h = .ok blk → ∀ o out, (o, out) ∈ blk.creates rb → C o out) :
    ((updateUnspentCache rb tgt getBlock h).onto FaultyDB.exec).Keeps (SourcedDB rb tgt C)
      (fun _ => Fetched getBlock h) .mk := by
  unfold updateUnspentCache
  cases hget : getBlock h with
  | err e => exact fetched_err
  | panic => exact ⟨by simp, fun _ => hget⟩
  | ok block =>
    intro _ σ _ hI
    refine ⟨.mk, le_rfl, hI.exec (Sourced.write hI (hC block hget)), ?_⟩
    generalize ((rocksDB.onto FaultyDB FaultyDB.exec).exec
      (Op.write (newOutputs rb tgt block)) σ).1 = res
    cases res with
    | ok u =>
      refine ⟨fun blk hr => ?_, by simp⟩
      rw [hget, Outcome.ok.inj hr]
    | error e => exact fetched_err

/-- The deletions may fail, and do not panic. -/
theorem deleteKeys_keeps : ∀ (keys : List (List UInt8)),
    ((deleteKeys keys).onto FaultyDB.exec).Keeps (SourcedDB rb tgt C)
      (fun _ => Outcome.Safe fun _ => True) .mk
  | [] => trivial
  | key :: keys => by
    intro _ σ _ hI
    refine ⟨.mk, le_rfl, hI.exec (Sourced.delete hI key), ?_⟩
    generalize ((rocksDB.onto FaultyDB FaultyDB.exec).exec (Op.delete key) σ).1 = res
    cases res with
    | ok u => exact deleteKeys_keeps keys
    | error e => trivial

theorem connectOutpoints_keeps (CB : ConnectedBlock Blk Tx Out)
    (hdec : ∀ o out, C o out → rb.decodeTxOut (rb.encodeTxOut out) = some out) (block : Block) :
    ((connectOutpoints rb tgt CB block).onto FaultyDB.exec).Keeps (SourcedDB rb tgt C)
      (fun _ => Outcome.Safe (CB.ConnectsFrom rb C block)) .mk := by
  intro _ σ _ hI
  refine ⟨.mk, le_rfl, hI, ?_⟩
  change Prog.Keeps _ _ (Prog.onto _ (Prog.andThen _ _)) NoGhost.mk
  rw [Prog.onto_andThen]
  refine (deleteKeys_keeps _).andThen_safe fun _ _ _ _ => ?_
  have hreads : Reads rb C block.spends ((outpointKeys tgt block).zipIdx.map fun p =>
      if (σ.faults σ.calls).item p.2 then .error () else .ok (σ.db p.1)) := by
    rw [outpointKeys_eq]
    exact Sourced.reads hI hdec _ _ 0
  exact txLoop_from CB hreads

/-- Nothing is in the new database. -/
theorem sourced_empty {C : OutPoint → TxOut → Prop} {faults : Nat → Fault} :
    SourcedDB rb tgt C .mk (FaultyDB.empty faults) := fun _ _ hget => by cases hget

/-- The programs of both stages keep the database sourced. -/
theorem kept (rb : RustBitcoin) (tgt : Target) (CB : ConnectedBlock Blk Tx Out)
    (getBlock : Nat → Outcome Error Block) (endHeight : Nat)
    (hdec : ∀ h blk, h < endHeight → getBlock h = .ok blk → ∀ tx ∈ blk.txdata, ∀ out ∈ tx.output,
      rb.decodeTxOut (rb.encodeTxOut out) = some out) :
    ((connectedBlockIter rb tgt CB getBlock endHeight).onto FaultyDB.exec).Kept
      (SourcedDB rb tgt (CreatedBelow rb getBlock endHeight)) (fun h _ => Fetched getBlock h)
      fun h _ r => ∃ blk, getBlock h = .ok blk ∧
        r.Safe (CB.ConnectsFrom rb (CreatedBelow rb getBlock endHeight) blk) where
  mono1 _ _ _ _ _ hr := hr
  mono2 _ _ _ _ _ hr := hr
  stage1 _ _ hlt := updateUnspentCache_keeps fun _ hblk _ _ ho =>
    createdBelow_of_creates hlt hblk ho
  stage2 h _ blk _ hfetched := by
    have hC : ∀ o out, CreatedBelow rb getBlock endHeight o out →
        rb.decodeTxOut (rb.encodeTxOut out) = some out := by
      rintro o out ⟨j, blk', hlt, hblk', ho⟩
      obtain ⟨tx, htx, -, hget⟩ := Block.mem_creates.mp ho
      exact hdec j blk' hlt hblk' tx htx out (List.mem_of_getElem? hget)
    exact (connectOutpoints_keeps CB hC blk).imp fun _ _ _ hr => ⟨blk, hfetched.1 blk rfl, hr⟩

section

variable {CB : ConnectedBlock Blk Tx Out} {getBlock : Nat → Outcome Error Block} {endHeight : Nat}
  {opens : Bool} {faults : Nat → Fault}
  (hdec : ∀ h blk, h < endHeight → getBlock h = .ok blk → ∀ tx ∈ blk.txdata, ∀ out ∈ tx.output,
    rb.decodeTxOut (rb.encodeTxOut out) = some out)
  {s : Config (rocksDB.onto FaultyDB FaultyDB.exec) Unit Block Blk}
  (hr : (faultyBlockIter rb tgt opens CB getBlock endHeight).Reachable (FaultyDB.empty faults) s)
include hdec hr

/-- What a task of the first stage returns is a block read, or an error. -/
theorem work1_ret {h : Nat} {r : Outcome Unit Block}
    (hlt : h < (faultyBlockIter rb tgt opens CB getBlock endHeight).len)
    (hret : s.work1 h = .ret r) : Fetched getBlock h r := by
  cases opens with
  | true =>
    obtain ⟨_, -, h1, -⟩ := (kept rb tgt CB getBlock endHeight hdec).reachable sourced_empty hr
    exact h1 h _ hlt hret
  | false =>
    -- the null iterator has no task
    exact absurd hlt (Nat.not_lt_zero h)

/-- What a task of the second stage returns is its block, connected from what is below the end, or
an error. -/
theorem work2_ret {h : Nat} {r : Outcome Unit Blk} (hret : s.work2 h = some (.ret r)) :
    ∃ blk, getBlock h = .ok blk ∧
      r.Safe (CB.ConnectsFrom rb (CreatedBelow rb getBlock endHeight) blk) := by
  cases opens with
  | true =>
    obtain ⟨_, -, -, h2⟩ := (kept rb tgt CB getBlock endHeight hdec).reachable sourced_empty hr
    exact h2 h _ hret
  | false => exact absurd (hr.wf.handed h _ hret).1 (Nat.not_lt_zero h)

/-- So what is delivered at a height is its block. -/
theorem connectsFrom_of_emitted {i : Nat} {b : Blk} (hb : s.emitted[i]? = some b) :
    ∃ blk, getBlock i = .ok blk ∧
      CB.ConnectsFrom rb (CreatedBelow rb getBlock endHeight) blk b :=
  work2_ret hdec hr (hr.wf.emitted i b hb)

end

/-- **The on-disk iterator is safe over a failing database.** Whatever blocks `get_block` returns,
whatever the schedule, and whichever calls fail: a task panics only if reading its block does, every
block delivered is the block of its height with each input an output that a block below the end
creates under the outpoint spent, and the consumer comes to its end. -/
theorem onDisk_faults_safe (rb : RustBitcoin) (tgt : Target) (CB : ConnectedBlock Blk Tx Out)
    (getBlock : Nat → Outcome Error Block) (endHeight : Nat) (opens : Bool) (faults : Nat → Fault)
    (hdec : ∀ h blk, h < endHeight → getBlock h = .ok blk → ∀ tx ∈ blk.txdata, ∀ out ∈ tx.output,
      rb.decodeTxOut (rb.encodeTxOut out) = some out)
    {s : Config (rocksDB.onto FaultyDB FaultyDB.exec) Unit Block Blk}
    (hr : (faultyBlockIter rb tgt opens CB getBlock endHeight).Reachable
      (FaultyDB.empty faults) s) :
    (∀ h, h < (faultyBlockIter rb tgt opens CB getBlock endHeight).len →
        s.work1 h = .ret .panic → getBlock h = .panic) ∧
      (∀ h, s.work2 h ≠ some (.ret .panic)) ∧
      (∀ i b, s.emitted[i]? = some b → ∃ blk, getBlock i = .ok blk ∧
        CB.ConnectsFrom rb (CreatedBelow rb getBlock endHeight) blk b) ∧
      (faultyBlockIter rb tgt opens CB getBlock endHeight).Ends s := by
  refine ⟨fun h hlt hret => (work1_ret hdec hr hlt hret).2 rfl, fun h hret => ?_,
    fun i b hb => connectsFrom_of_emitted hdec hr hb, hr.ends⟩
  obtain ⟨_, -, hsafe⟩ := work2_ret hdec hr hret
  exact Outcome.not_safe_panic hsafe

/-- The second read of the database fails. -/
def sampleFaults (n : Nat) : Fault := ⟨false, false, fun _ => n = 3⟩

/-- The sequential run over the sample chain when the second read fails delivers the first block. -/
theorem sampleChain_faults :
    ∃ s, (faultyBlockIter sampleBitcoin ⟨true, true⟩ true (fullConnectedBlock sampleBitcoin)
        (getBlockFrom sampleChain) 2).Reachable (FaultyDB.empty sampleFaults) s ∧
      s.emitted.length = 1 ∧
      ∀ i b, s.emitted[i]? = some b → ∃ blk, getBlockFrom sampleChain i = .ok blk ∧
        (fullConnectedBlock sampleBitcoin).ConnectsFrom sampleBitcoin
          (CreatedBelow sampleBitcoin (getBlockFrom sampleChain) 2) blk b := by
  obtain ⟨s, hr, -, he⟩ := Pipeline.sequential_run
    (faultyBlockIter sampleBitcoin ⟨true, true⟩ true (fullConnectedBlock sampleBitcoin)
      (getBlockFrom sampleChain) 2) (FaultyDB.empty sampleFaults)
  refine ⟨s, hr, by rw [he]; decide,
    (onDisk_faults_safe sampleBitcoin ⟨true, true⟩ _ _ 2 true _ ?_ hr).2.2.1⟩
  intro h blk _ hget
  have hdec : ∀ blk ∈ sampleChain, ∀ tx ∈ blk.txdata, ∀ out ∈ tx.output,
      sampleBitcoin.decodeTxOut (sampleBitcoin.encodeTxOut out) = some out := by decide
  exact hdec blk (List.mem_of_getElem? (Outcome.ofOption_eq_ok.mp hget))

end OnDisk

end BitcoinExplorer
