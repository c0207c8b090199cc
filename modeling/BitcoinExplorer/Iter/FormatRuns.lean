import BitcoinExplorer.Formats
import BitcoinExplorer.Iter.InMem
import BitcoinExplorer.Iter.OnDiskFaults
import BitcoinExplorer.Lib.Lockstep

/-!
# The connected-block iterator in two formats, under one schedule

With a reduction of one format to another (`ConnectedBlock.Hom`), the iterators in the two formats
run in lockstep: the database holds encoded outputs and does not know the format, and the in-memory
cache of one is that of the other with every output reduced.

* `OnDisk.lockstep`, `InMem.lockstep`: the programs of the two iterators perform the same
  operations.
* **`formats_lockstep`**: each schedule is possible in both formats or in neither, and the blocks
  seen in the one are the reduced blocks seen in the other, whatever the blocks and whichever calls
  of the database fail.
-/

namespace BitcoinExplorer

open Rust Conc

variable {rb : RustBitcoin} {tgt : Target} {Blk Tx Out Blk' Tx' Out' : Type}
  {CB : ConnectedBlock Blk Tx Out} {CB' : ConnectedBlock Blk' Tx' Out'}

/-- What the consumer has seen in one format is the reduction of what it has seen in the other. -/
def SameView {M M' : Machine} (f : Blk → Blk') (s : Config M Unit Block Blk)
    (s' : Config M' Unit Block Blk') : Prop :=
  s'.emitted = s.emitted.map f ∧ s'.stopped = s.stopped

theorem sameView_of_related {M M' : Machine} {R : M.State → M'.State → Prop} {f : Blk → Blk'}
    {s : Config M Unit Block Blk} {s' : Config M' Unit Block Blk'}
    (h : Lockstep.Related R Eq (fun b b' => b' = f b) s s') : SameView f s s' := by
  have hmap : ∀ {l : List Blk} {l' : List Blk'}, List.Forall₂ (fun b b' => b' = f b) l l' →
      l' = l.map f := by
    intro l l' hl
    induction hl with
    | nil => rfl
    | cons hb _ ih => rw [List.map_cons, hb, ih]
  exact ⟨hmap h.emitted, h.stopped.symm⟩

/-! ## The on-disk iterator -/

namespace OnDisk

theorem inputLoop_hom {CT : ConnectedTx Tx Out} {CT' : ConnectedTx Tx' Out'} (F : CT.Hom CT')
    (txOuts : List (Except Unit (Option (List UInt8)))) :
    ∀ (inputs : List TxIn) (tx : Tx) (pos : Nat),
    inputLoop rb CT' txOuts inputs (F.tx tx) pos =
      (fun p => (F.tx p.1, p.2)) <$> inputLoop rb CT txOuts inputs tx pos
  | [], _, _ => rfl
  | input :: inputs, tx, pos => by
    unfold inputLoop
    by_cases hnull : input.previousOutput.isNull = true
    · rw [if_pos hnull, if_pos hnull]
      exact inputLoop_hom F txOuts inputs tx pos
    · rw [if_neg hnull, if_neg hnull]
      cases txOuts[pos]? with
      | none => rfl
      | some item =>
        dsimp only
        cases prevTxo rb item with
        | none => rfl
        | some out =>
          dsimp only
          rw [← F.into, ← F.addInput]
          exact inputLoop_hom F txOuts inputs _ (pos + 1)

theorem txLoop_hom (F : CB.Hom CB') (txOuts : List (Except Unit (Option (List UInt8)))) :
    ∀ (txs : List Transaction) (b : Blk) (pos : Nat),
    txLoop rb CB' txOuts txs (F.blk b) pos = F.blk <$> txLoop rb CB txOuts txs b pos
  | [], _, _ => rfl
  | tx :: txs, b, pos => by
    unfold txLoop
    rw [← F.tx.ofTx, inputLoop_hom F.tx]
    cases inputLoop rb CB.tx txOuts tx.input (CB.tx.ofTx tx) pos with
    | err e => rfl
    | panic => rfl
    | ok p =>
      change txLoop rb CB' txOuts txs (CB'.addTx (F.blk b) (F.tx.tx p.1)) p.2 = _
      rw [← F.addTx]
      exact txLoop_hom F txOuts txs _ p.2

theorem connectOutpoints_same (F : CB.Hom CB') (block : Block) :
    (connectOutpoints rb tgt CB block).Same (Outcome.Rel fun b b' => b' = F.blk b)
      (connectOutpoints rb tgt CB' block) := by
  refine .op _ fun txOuts => .andThen _ fun _ => .ret ?_
  rw [← F.ofHeader]
  exact Outcome.rel_map.mpr (txLoop_hom F txOuts block.txdata _ 0)

/-- The database does not know the format. -/
theorem lockstep (F : CB.Hom CB') (opens : Bool) (getBlock : Nat → Outcome Error Block)
    (endHeight : Nat) :
    Lockstep (faultyBlockIter rb tgt opens CB getBlock endHeight)
      (faultyBlockIter rb tgt opens CB' getBlock endHeight) Eq Eq fun b b' => b' = F.blk b := by
  have herr : ∀ {T T' : Type} {S : T → T' → Prop},
      (.ret (.err ()) : Prog (rocksDB.onto FaultyDB FaultyDB.exec) (Outcome Unit T)).Sim Eq
        (Outcome.Rel S) (.ret (.err ())) := .ret (.err ())
  cases opens with
  | false => exact ⟨rfl, fun _ => herr, fun _ _ _ => herr⟩
  | true =>
    refine ⟨rfl, fun h => ?_, ?_⟩
    · exact (Prog.Same.refl (fun r => Outcome.rel_refl (fun _ => rfl) r) _).onto _
    · rintro block _ rfl
      exact (connectOutpoints_same F block).onto _

end OnDisk

/-! ## The in-memory iterator -/

/-- The map with every value converted. -/
def VecMap.map {α β : Type} (f : α → β) (v : VecMap α) : VecMap β :=
  { size := v.size, inner := v.inner.map (Option.map f) }

theorem VecMap.remove_map {α β : Type} (f : α → β) (tgt : Target) (v : VecMap α) (index : Nat) :
    (v.map f).remove tgt index = (fun p => (p.1.map f, p.2.map f)) <$> v.remove tgt index := by
  unfold VecMap.remove VecMap.map
  dsimp only
  rw [List.length_map, List.getElem?_map]
  by_cases hlen : index ≥ v.inner.length
  · rw [if_pos hlen, if_pos hlen]
    rfl
  · rw [if_neg hlen, if_neg hlen]
    cases v.inner[index]? with
    | none => rfl
    | some slot =>
      cases slot with
      | none => rfl
      | some element =>
        have hset : (v.inner.map (Option.map f)).set index none =
            (v.inner.set index none).map (Option.map f) := by rw [List.map_set, Option.map_none]
        simp only [Option.map_some, Option.join_some, hset]
        unfold Outcome.overflowing
        split
        · rfl
        · split <;> rfl

namespace InMem

/-- The cache with every output converted. -/
def Cache.mapOut (f : Out → Out') (cache : Cache Out) : Cache Out' :=
  { map := cache.map, cells := fun cell => (cache.cells cell).map f, next := cache.next }

theorem Cache.mapOut_update (f : Out → Out') (cache : Cache Out) (cell : Nat) (v : VecMap Out) :
    ({ cache with cells := Function.update cache.cells cell v } : Cache Out).mapOut f =
      { cache.mapOut f with cells := Function.update (cache.mapOut f).cells cell (v.map f) } := by
  unfold Cache.mapOut
  dsimp only
  congr 1
  funext c
  by_cases hc : c = cell
  · rw [hc, Function.update_self, Function.update_self]
  · rw [Function.update_of_ne hc, Function.update_of_ne hc]

theorem Cache.mapOut_insert (f : Out → Out') (cache : Cache Out) (entry : Txid × VecMap Out) :
    (cache.insert entry).mapOut f = (cache.mapOut f).insert (entry.1, entry.2.map f) := by
  have hcells := congrArg Cache.cells (cache.mapOut_update f cache.next entry.2)
  unfold Cache.insert
  exact congrArg (fun cells => { (cache.mapOut f).insert (entry.1, entry.2.map f) with cells })
    hcells

theorem Cache.mapOut_foldl (f : Out → Out') : ∀ (entries : List (Txid × VecMap Out))
    (cache : Cache Out), (entries.foldl Cache.insert cache).mapOut f =
      (entries.map fun e => (e.1, e.2.map f)).foldl Cache.insert (cache.mapOut f)
  | [], _ => rfl
  | e :: entries, cache => by
    rw [List.foldl_cons, List.map_cons, List.foldl_cons, ← Cache.mapOut_insert]
    exact Cache.mapOut_foldl f entries _

theorem newEntry_hom {CT : ConnectedTx Tx Out} {CT' : ConnectedTx Tx' Out'} (F : CT.Hom CT')
    (tx : Transaction) :
    newEntry rb CT' tx = ((newEntry rb CT tx).1, (newEntry rb CT tx).2.map F.out) := by
  unfold newEntry VecMap.fromVec VecMap.map
  dsimp only
  rw [List.length_map, List.length_map, List.map_map]
  refine congrArg (fun inner => (_, VecMap.mk _ inner)) (List.map_congr_left fun o _ => ?_)
  exact congrArg some (F.into o).symm

section

variable {f : Out → Out'}

/-- One cache is the other, converted. -/
def Converted (f : Out → Out') (cache : Cache Out) (cache' : Cache Out') : Prop :=
  cache' = cache.mapOut f

theorem updateUnspentCache_sim {CT : ConnectedTx Tx Out} {CT' : ConnectedTx Tx' Out'}
    (F : CT.Hom CT') (getBlock : Nat → Outcome Error Block) (height : Nat) :
    (updateUnspentCache rb tgt CT getBlock height).Sim (Converted F.out) (Outcome.Rel Eq)
      (updateUnspentCache rb tgt CT' getBlock height) := by
  unfold updateUnspentCache
  cases getBlock height with
  | err e => exact .ret (.err ())
  | panic => exact .ret .panic
  | ok block =>
    refine .op ?_ fun _ _ _ => .ret (.ok rfl)
    rintro cache _ rfl
    have hentries : block.txdata.map (newEntry rb CT') =
        (block.txdata.map (newEntry rb CT)).map fun e => (e.1, e.2.map F.out) := by
      rw [List.map_map]
      exact List.map_congr_left fun tx _ => newEntry_hom F tx
    dsimp only
    rw [hentries]
    exact (Cache.mapOut_foldl F.out _ cache).symm

theorem removeIfEmpty_sim (isEmpty : Bool) (txid : Txid) :
    (removeIfEmpty tgt isEmpty txid).Sim (Converted f) (Outcome.Rel Eq)
      (removeIfEmpty tgt isEmpty txid) := by
  cases isEmpty with
  | false => exact .ret (.ok rfl)
  | true =>
    refine .op ?_ fun _ _ _ => .ret (.ok rfl)
    rintro cache _ rfl
    rfl

/-- Taking an output out of a cell of either cache. -/
theorem exec_remove_mapOut (f : Out → Out') (tgt : Target) (cell n : Nat) (cache : Cache Out) :
    (mutexes tgt Out').exec (.remove cell n) (cache.mapOut f) =
      ((fun p => (p.1.map f, p.2)) <$>
          (show Outcome Empty (Option Out × Bool) from
            ((mutexes tgt Out).exec (.remove cell n) cache).1),
        ((mutexes tgt Out).exec (.remove cell n) cache).2.mapOut f) := by
  have hcell : (cache.mapOut f).cells cell = (cache.cells cell).map f := rfl
  dsimp only
  rw [hcell, VecMap.remove_map]
  cases (cache.cells cell).remove tgt n with
  | panic => rfl
  | err e => rfl
  | ok p =>
    refine Prod.ext rfl ?_
    exact (Cache.mapOut_update f cache cell p.2).symm

theorem inputLoop_sim {CT : ConnectedTx Tx Out} {CT' : ConnectedTx Tx' Out'} (F : CT.Hom CT') :
    ∀ (inputs : List TxIn) (tx : Tx), (inputLoop tgt CT inputs tx).Sim (Converted F.out)
      (Outcome.Rel fun t t' => t' = F.tx t) (inputLoop tgt CT' inputs (F.tx tx))
  | [], tx => .ret (.ok rfl)
  | input :: inputs, tx => by
    unfold inputLoop
    by_cases hnull : input.previousOutput.isNull = true
    · rw [if_pos hnull, if_pos hnull]
      exact inputLoop_sim F inputs tx
    · rw [if_neg hnull, if_neg hnull]
      refine .op (fun _ _ h => h) ?_
      rintro cache _ rfl
      have hmap : (cache.mapOut F.out).map input.previousOutput.txid =
          cache.map input.previousOutput.txid := rfl
      dsimp only
      rw [hmap]
      cases cache.map input.previousOutput.txid with
      | none => exact .ret (.err ())
      | some cell =>
        refine .op ?_ ?_
        · rintro cache _ rfl
          exact congrArg Prod.snd (exec_remove_mapOut F.out tgt cell _ cache)
        · rintro cache _ rfl
          rw [exec_remove_mapOut]
          generalize ((mutexes tgt Out).exec
            (Op.remove cell input.previousOutput.vout.toNat) cache).1 = res
          cases res with
          | panic => exact .ret .panic
          | err e => exact .ret .panic
          | ok p =>
            obtain ⟨txOut, isEmpty⟩ := p
            refine (removeIfEmpty_sim isEmpty _).andThen fun _ _ _ => ?_
            cases txOut with
            | none => exact .ret (.err ())
            | some out =>
              have hadd := F.addInput tx out
              dsimp only [Option.map_some]
              rw [← hadd]
              exact inputLoop_sim F inputs _

theorem txLoop_sim (F : CB.Hom CB') : ∀ (txs : List Transaction) (b : Blk),
    (txLoop tgt CB txs b).Sim (Converted F.tx.out) (Outcome.Rel fun b b' => b' = F.blk b)
      (txLoop tgt CB' txs (F.blk b))
  | [], b => .ret (.ok rfl)
  | tx :: txs, b => by
    unfold txLoop
    rw [← F.tx.ofTx]
    refine (inputLoop_sim F.tx tx.input _).andThen ?_
    rintro t _ rfl
    rw [← F.addTx]
    exact txLoop_sim F txs _

end

/-- The caches hold the same outputs, in the two formats. -/
theorem lockstep (F : CB.Hom CB') (getBlock : Nat → Outcome Error Block) (endHeight : Nat) :
    Lockstep (connectedBlockIter rb tgt CB getBlock endHeight)
      (connectedBlockIter rb tgt CB' getBlock endHeight) (Converted F.tx.out) Eq
      fun b b' => b' = F.blk b := by
  refine ⟨rfl, updateUnspentCache_sim F.tx getBlock, ?_⟩
  rintro block _ rfl
  change Prog.Sim _ _ (connectOutpoints rb tgt CB block) (connectOutpoints rb tgt CB' block)
  unfold connectOutpoints
  dsimp only
  rw [← F.ofHeader]
  exact txLoop_sim F block.txdata _

end InMem

/-- **The formats run in lockstep.** Whatever the blocks and the end height: a list of scheduler's
choices is possible for the iterator of `CompactConnectedBlock` exactly when it is for that of
`FullConnectedBlock`, and then the compact blocks seen are the full blocks seen with the other
fields dropped, and both consumers are stopped or neither; with the on-disk cache whichever of its
calls fail, and with the in-memory cache. -/
theorem formats_lockstep (rb : RustBitcoin) (tgt : Target) (getBlock : Nat → Outcome Error Block)
    (endHeight : Nat) (choices : List Action) :
    (∀ opens faults, Option.Rel (SameView FullConnectedBlock.toCompact)
      ((OnDisk.faultyBlockIter rb tgt opens (fullConnectedBlock rb) getBlock endHeight).runFrom
        (OnDisk.FaultyDB.empty faults) choices)
      ((OnDisk.faultyBlockIter rb tgt opens (compactConnectedBlock rb) getBlock endHeight).runFrom
        (OnDisk.FaultyDB.empty faults) choices)) ∧
    Option.Rel (SameView FullConnectedBlock.toCompact)
      ((InMem.connectedBlockIter rb tgt (fullConnectedBlock rb) getBlock endHeight).runFrom
        InMem.emptyCache choices)
      ((InMem.connectedBlockIter rb tgt (compactConnectedBlock rb) getBlock endHeight).runFrom
        InMem.emptyCache choices) :=
  ⟨fun opens _ => (OnDisk.lockstep (compactHom rb) opens getBlock endHeight).runFrom rfl
      (fun _ _ => sameView_of_related) choices,
    (InMem.lockstep (compactHom rb) getBlock endHeight).runFrom rfl
      (fun _ _ => sameView_of_related) choices⟩

end BitcoinExplorer
