import BitcoinExplorer.Iter.InMem
import BitcoinExplorer.Iter.Provenance
import BitcoinExplorer.Lib.Delivery

/-!
# The in-memory iterator over any blocks

Blocks that no valid chain contains (repeated txids, outpoints spent twice or before they exist)
make the cache lose or replace entries, and two tasks may hold the `Arc` of one cell while a third
drops its key. What stays true is who a cell was made for: `Owners` records the txid of each cell
ever allocated, and only grows.

* `Sourced`: every cell counts its outputs, and holds only outputs some block creates under the txid
  it was made for.
* **`inMem_safe`**: over any blocks and under every schedule, no task panics, and every block
  delivered is the block of its height, connected with outputs that blocks below the end create.
-/

namespace BitcoinExplorer

open Rust Conc

namespace InMem

/-- Which txid each cell was made for. -/
structure Owners where
  of : Nat → Option Txid

/-- Owners only grow. -/
instance : Preorder Owners where
  le w w' := ∀ cell txid, w.of cell = some txid → w'.of cell = some txid
  le_refl _ _ _ h := h
  le_trans _ _ _ h h' cell txid hw := h' cell txid (h cell txid hw)

/-- No cell yet. -/
def Owners.none : Owners := ⟨fun _ => Option.none⟩

/-- A new cell and the txid it is made for. -/
def Owners.add (w : Owners) (cell : Nat) (txid : Txid) : Owners :=
  ⟨Function.update w.of cell (some txid)⟩

theorem Owners.add_of (w : Owners) (cell cell' : Nat) (txid : Txid) :
    (w.add cell txid).of cell' = if cell' = cell then some txid else w.of cell' :=
  Function.update_apply _ _ _ _

variable {rb : RustBitcoin} {tgt : Target} {Blk Tx Out : Type} {CT : ConnectedTx Tx Out}
  {C : OutPoint → TxOut → Prop} {w : Owners} {cache : Cache Out}

/-- What a slot map may hold when it is made for a txid: converted outputs that the source allows
under that txid. -/
def Allowed (CT : ConnectedTx Tx Out) (C : OutPoint → TxOut → Prop) (txid : Txid) (v : VecMap Out) :
    Prop :=
  ∀ o x, o.txid = txid → v.slot o.vout.toNat = some x → ∃ out, C o out ∧ x = CT.into out

/-- The keys of the cache point to cells made for them, cells are numbered below the next one, and
each is counted and holds what the source allows for its owner. -/
structure Sourced (CT : ConnectedTx Tx Out) (C : OutPoint → TxOut → Prop) (w : Owners)
    (cache : Cache Out) : Prop where
  owner : ∀ txid cell, cache.map txid = some cell → w.of cell = some txid
  fresh : ∀ cell txid, w.of cell = some txid → cell < cache.next
  wf : ∀ cell txid, w.of cell = some txid → (cache.cells cell).Wf
  allowed : ∀ cell txid, w.of cell = some txid → Allowed CT C txid (cache.cells cell)

theorem sourced_emptyCache : Sourced CT C Owners.none emptyCache where
  owner _ _ h := absurd h (by simp [emptyCache])
  fresh _ _ h := absurd h (by simp [Owners.none])
  wf _ _ h := absurd h (by simp [Owners.none])
  allowed _ _ h := absurd h (by simp [Owners.none])

namespace Sourced

/-- A new entry goes into a new cell, made for its key. -/
theorem insert (hs : Sourced CT C w cache) {entry : Txid × VecMap Out} (hwf : entry.2.Wf)
    (hallowed : Allowed CT C entry.1 entry.2) :
    ∃ w', w ≤ w' ∧ Sourced CT C w' (cache.insert entry) := by
  -- the owner of a cell of the new cache: that of the new entry, or the one it had
  have hcases : ∀ cell txid, (w.add cache.next entry.1).of cell = some txid →
      (cell = cache.next ∧ txid = entry.1) ∨ (cell ≠ cache.next ∧ w.of cell = some txid) := by
    intro cell txid hw
    rw [Owners.add_of] at hw
    split at hw
    · rename_i hc
      exact Or.inl ⟨hc, (Option.some.inj hw).symm⟩
    · rename_i hc
      exact Or.inr ⟨hc, hw⟩
  have hold : ∀ cell txid, w.of cell = some txid →
      (w.add cache.next entry.1).of cell = some txid := fun cell txid hw =>
    (Function.update_of_ne (hs.fresh cell txid hw).ne _ _).trans hw
  have hcell : ∀ cell, cell ≠ cache.next → (cache.insert entry).cells cell = cache.cells cell :=
    fun cell hc => Function.update_of_ne hc _ _
  have hself : (cache.insert entry).cells cache.next = entry.2 := Function.update_self _ _ _
  refine ⟨w.add cache.next entry.1, hold, ?_, ?_, ?_, ?_⟩
  · intro txid cell hget
    change Function.update cache.map entry.1 (some cache.next) txid = some cell at hget
    by_cases ht : txid = entry.1
    · rw [ht, Function.update_self] at hget
      obtain rfl := Option.some.inj hget
      rw [ht]
      exact Function.update_self _ _ _
    · rw [Function.update_of_ne ht] at hget
      exact hold cell txid (hs.owner txid cell hget)
  · intro cell txid hw
    rcases hcases cell txid hw with ⟨rfl, -⟩ | ⟨-, hw⟩
    · exact Nat.lt_succ_self _
    · exact Nat.lt_succ_of_lt (hs.fresh cell txid hw)
  · intro cell txid hw
    rcases hcases cell txid hw with ⟨rfl, -⟩ | ⟨hc, hw⟩
    · exact hself ▸ hwf
    · exact hcell cell hc ▸ hs.wf cell txid hw
  · intro cell txid hw
    rcases hcases cell txid hw with ⟨rfl, rfl⟩ | ⟨hc, hw⟩
    · exact hself ▸ hallowed
    · exact hcell cell hc ▸ hs.allowed cell txid hw

/-- The entries of a block the source covers. -/
theorem extend (hs : Sourced CT C w cache) {txs : List Transaction}
    (htxs : ∀ tx ∈ txs, ∀ o out, (o, out) ∈ creates rb tx → C o out) :
    ∃ w', w ≤ w' ∧ Sourced CT C w' ((txs.map (newEntry rb CT)).foldl Cache.insert cache) := by
  induction txs generalizing w cache with
  | nil => exact ⟨w, le_rfl, hs⟩
  | cons tx txs ih =>
    have hallowed : Allowed CT C (newEntry rb CT tx).1 (newEntry rb CT tx).2 := by
      intro o x hid hslot
      rw [slot_newEntry] at hslot
      obtain ⟨out, hget, rfl⟩ := Option.map_eq_some_iff.mp hslot
      exact ⟨out, htxs tx List.mem_cons_self o out (mem_creates.mpr ⟨hid.symm, hget⟩), rfl⟩
    obtain ⟨w₁, hle₁, hs₁⟩ := hs.insert (wf_newEntry CT tx) hallowed
    obtain ⟨w₂, hle₂, hs₂⟩ := ih hs₁ fun tx' htx' => htxs tx' (List.mem_cons_of_mem _ htx')
    exact ⟨w₂, hle₁.trans hle₂, hs₂⟩

/-- Taking an output out of a cell that was made for some txid. -/
theorem remove (hs : Sourced CT C w cache) (tgt : Target) {cell : Nat} {txid : Txid}
    (hw : w.of cell = some txid) (n : Nat) :
    ∃ v, (cache.cells cell).remove tgt n = .ok ((cache.cells cell).slot n, v) ∧
      Sourced CT C w { cache with cells := Function.update cache.cells cell v } := by
  obtain ⟨v, hv, hwf, hslot⟩ := VecMap.remove_spec (hs.wf cell txid hw) tgt n
  have hkeep : ∀ cell' txid', w.of cell' = some txid' →
      Function.update cache.cells cell v cell' = v ∧ txid' = txid ∨
        Function.update cache.cells cell v cell' = cache.cells cell' := by
    intro cell' txid' hw'
    by_cases hc : cell' = cell
    · subst hc
      exact Or.inl ⟨Function.update_self _ _ _, Option.some.inj (hw'.symm.trans hw)⟩
    · exact Or.inr (Function.update_of_ne hc _ _)
  refine ⟨v, hv, hs.owner, hs.fresh, fun cell' txid' hw' => ?_, fun cell' txid' hw' => ?_⟩
  · dsimp only
    rcases hkeep cell' txid' hw' with ⟨he, -⟩ | he
    · rw [he]
      exact hwf
    · rw [he]
      exact hs.wf cell' txid' hw'
  · dsimp only
    rcases hkeep cell' txid' hw' with ⟨he, rfl⟩ | he
    · rw [he]
      intro o x hid hget
      rw [hslot] at hget
      split at hget
      · cases hget
      · exact hs.allowed cell txid' hw o x hid hget
    · rw [he]
      exact hs.allowed cell' txid' hw'

theorem removeKey (hs : Sourced CT C w cache) (txid : Txid) :
    Sourced CT C w { cache with map := Function.update cache.map txid none } where
  owner txid' cell hget := by
    by_cases ht : txid' = txid
    · dsimp only at hget
      rw [ht, Function.update_self] at hget
      cases hget
    · dsimp only at hget
      rw [Function.update_of_ne ht] at hget
      exact hs.owner txid' cell hget
  fresh := hs.fresh
  wf := hs.wf
  allowed := hs.allowed

end Sourced

/-! ## The two stages keep the cache sourced -/

theorem updateUnspentCache_keeps {getBlock : Nat → Outcome Error Block} {h : Nat}
    (hC : ∀ blk, getBlock h = .ok blk → ∀ o out, (o, out) ∈ blk.creates rb → C o out) :
    (updateUnspentCache rb tgt CT getBlock h).Keeps (Sourced CT C)
      (fun _ => Fetched getBlock h) w := by
  unfold updateUnspentCache
  cases hget : getBlock h with
  | err e => exact fetched_err
  | panic => exact ⟨by simp, fun _ => hget⟩
  | ok block =>
    intro w' cache _ hs
    have htxs : ∀ tx ∈ block.txdata, ∀ o out, (o, out) ∈ creates rb tx → C o out :=
      fun tx htx o out ho => hC block hget o out (List.mem_flatMap.mpr ⟨tx, htx, ho⟩)
    obtain ⟨w'', hle, hs'⟩ := hs.extend htxs
    refine ⟨w'', hle, hs', fun blk hr => ?_, by simp⟩
    rw [hget, Outcome.ok.inj hr]

theorem removeIfEmpty_keeps (isEmpty : Bool) (txid : Txid) :
    (removeIfEmpty tgt isEmpty txid : Prog (mutexes tgt Out) _).Keeps (Sourced CT C)
      (fun _ => Outcome.Safe fun _ => True) w := by
  cases isEmpty with
  | true => exact fun w' _ _ hs => ⟨w', le_rfl, hs.removeKey txid, trivial⟩
  | false => trivial

/-- The input loop adds an output the source allows for each outpoint. -/
theorem inputLoop_keeps : ∀ (inputs : List TxIn) (tx : Tx) (w : Owners),
    (inputLoop tgt CT inputs tx).Keeps (Sourced CT C) (fun _ => Outcome.Safe fun t =>
      ∃ outs, List.Forall₂ C (spends inputs) outs ∧ t = CT.addOutputs outs tx) w
  | [], tx, _ => ⟨[], .nil, rfl⟩
  | input :: inputs, tx, w => by
    unfold inputLoop
    by_cases hnull : input.previousOutput.isNull = true
    · rw [if_pos hnull, spends_cons_null hnull]
      exact inputLoop_keeps inputs tx w
    · rw [if_neg hnull, spends_cons (by simpa using hnull)]
      intro w₁ cache₁ _ hs₁
      refine ⟨w₁, le_rfl, hs₁, ?_⟩
      dsimp only
      cases hget : cache₁.map input.previousOutput.txid with
      | none => trivial
      | some cell =>
        -- the owner of the cell stays known, whatever runs before it is locked
        have howner := hs₁.owner _ cell hget
        intro w₂ cache₂ hle₂ hs₂
        obtain ⟨v, hv, hs₂'⟩ := hs₂.remove tgt (hle₂ _ _ howner)
          input.previousOutput.vout.toNat
        refine ⟨w₂, le_rfl, ?_⟩
        dsimp only
        rw [hv]
        refine ⟨hs₂', (removeIfEmpty_keeps v.isEmpty _).andThen_safe fun w₃ _ _ _ => ?_⟩
        cases hslot : (cache₂.cells cell).slot input.previousOutput.vout.toNat with
        | none => trivial
        | some x =>
          obtain ⟨out, hC, rfl⟩ := hs₂.allowed cell _ (hle₂ _ _ howner) _ x rfl hslot
          refine (inputLoop_keeps inputs _ w₃).imp fun _ _ _ hr => hr.imp ?_
          rintro t ⟨outs, houts, rfl⟩
          exact ⟨out :: outs, .cons hC houts, rfl⟩

/-- The transaction loop adds transactions connected from the source. -/
theorem txLoop_keeps (CB : ConnectedBlock Blk Tx Out) : ∀ (txs : List Transaction) (b : Blk)
    (w : Owners), (txLoop tgt CB txs b).Keeps (Sourced CB.tx C) (fun _ => Outcome.Safe fun b' =>
      ∃ ts, List.Forall₂ (CB.tx.ConnectsFrom C) txs ts ∧ b' = ts.foldl CB.addTx b) w
  | [], b, _ => ⟨[], .nil, rfl⟩
  | tx :: txs, b, w => by
    refine (inputLoop_keeps tx.input (CB.tx.ofTx tx) w).andThen_safe fun w' _ t ht => ?_
    refine (txLoop_keeps CB txs (CB.addTx b t) w').imp fun _ _ _ hr => hr.imp ?_
    rintro b' ⟨ts, hts, rfl⟩
    exact ⟨t :: ts, .cons ht hts, rfl⟩

/-- The programs of both stages keep the cache sourced. -/
theorem kept (rb : RustBitcoin) (tgt : Target) (CB : ConnectedBlock Blk Tx Out)
    (getBlock : Nat → Outcome Error Block) (endHeight : Nat) :
    (connectedBlockIter rb tgt CB getBlock endHeight).Kept
      (Sourced CB.tx (CreatedBelow rb getBlock endHeight)) (fun h _ => Fetched getBlock h)
      fun h _ r => ∃ blk, getBlock h = .ok blk ∧
        r.Safe (CB.ConnectsFrom rb (CreatedBelow rb getBlock endHeight) blk) where
  mono1 _ _ _ _ _ hr := hr
  mono2 _ _ _ _ _ hr := hr
  stage1 _ _ hlt := updateUnspentCache_keeps fun _ hblk _ _ ho =>
    createdBelow_of_creates hlt hblk ho
  stage2 _ w blk _ hfetched := (txLoop_keeps CB blk.txdata _ w).imp fun _ _ _ hr =>
    ⟨blk, hfetched.1 blk rfl, hr⟩

/-- What is delivered at a height is its block, connected from what is below the end. -/
theorem connectsFrom_of_emitted {CB : ConnectedBlock Blk Tx Out}
    {getBlock : Nat → Outcome Error Block} {endHeight : Nat}
    {s : Config (mutexes tgt Out) Unit Block Blk}
    (hr : (connectedBlockIter rb tgt CB getBlock endHeight).Reachable emptyCache s) {i : Nat}
    {b : Blk} (hb : s.emitted[i]? = some b) :
    ∃ blk, getBlock i = .ok blk ∧
      CB.ConnectsFrom rb (CreatedBelow rb getBlock endHeight) blk b := by
  obtain ⟨_, -, blk, hblk, hfrom⟩ :=
    (kept rb tgt CB getBlock endHeight).emitted sourced_emptyCache hr hb
  exact ⟨blk, hblk, hfrom⟩

/-- **The in-memory iterator is safe over any blocks.** Whatever blocks `get_block` returns and
whatever the schedule: a task panics only if reading its block does, every block delivered is the
block of its height with each input an output that a block below the end creates under the outpoint
spent, and the consumer comes to its end. -/
theorem inMem_safe (rb : RustBitcoin) (tgt : Target) (CB : ConnectedBlock Blk Tx Out)
    (getBlock : Nat → Outcome Error Block) (endHeight : Nat)
    {s : Config (mutexes tgt Out) Unit Block Blk}
    (hr : (connectedBlockIter rb tgt CB getBlock endHeight).Reachable emptyCache s) :
    (∀ h, h < endHeight → s.work1 h = .ret .panic → getBlock h = .panic) ∧
      (∀ h, s.work2 h ≠ some (.ret .panic)) ∧
      (∀ i b, s.emitted[i]? = some b → ∃ blk, getBlock i = .ok blk ∧
        CB.ConnectsFrom rb (CreatedBelow rb getBlock endHeight) blk b) ∧
      (connectedBlockIter rb tgt CB getBlock endHeight).Ends s := by
  obtain ⟨_, -, h1, h2⟩ := (kept rb tgt CB getBlock endHeight).reachable sourced_emptyCache hr
  refine ⟨fun h hlt hret => (h1 h _ hlt hret).2 rfl, fun h hret => ?_,
    fun i b hb => connectsFrom_of_emitted hr hb, hr.ends⟩
  obtain ⟨_, -, hsafe⟩ := h2 h _ hret
  exact Outcome.not_safe_panic hsafe

/-- Over the sample chain and its last block once more, which spends what is already spent. -/
theorem sampleChain_respent :
    ∃ s, (connectedBlockIter sampleBitcoin ⟨true, true⟩ (fullConnectedBlock sampleBitcoin)
        (getBlockFrom (sampleChain ++ sampleChain.drop 1)) 3).Reachable emptyCache s ∧
      s.emitted.length = 2 ∧ s.stopped = true ∧
      ∀ i b, s.emitted[i]? = some b →
        ∃ blk, getBlockFrom (sampleChain ++ sampleChain.drop 1) i = .ok blk ∧
          (fullConnectedBlock sampleBitcoin).ConnectsFrom sampleBitcoin (CreatedBelow sampleBitcoin
            (getBlockFrom (sampleChain ++ sampleChain.drop 1)) 3) blk b := by
  obtain ⟨s, hr, hs, he⟩ := Pipeline.sequential_run (connectedBlockIter sampleBitcoin ⟨true, true⟩
    (fullConnectedBlock sampleBitcoin) (getBlockFrom (sampleChain ++ sampleChain.drop 1)) 3)
    emptyCache
  have hlen : s.emitted.length = 2 := by rw [he]; decide
  refine ⟨s, hr, hlen, hs.resolve_right ?_, (inMem_safe sampleBitcoin ⟨true, true⟩ _ _ 3 hr).2.2.1⟩
  rw [hlen]
  decide

end InMem

end BitcoinExplorer
