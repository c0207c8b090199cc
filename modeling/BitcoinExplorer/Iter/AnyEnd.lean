import BitcoinExplorer.Iter.InMemRuns
import BitcoinExplorer.Iter.OnDiskRuns
import BitcoinExplorer.Lib.Cutoff

/-!
# `connected_block_iter(end)` for any end

Nothing checks `end` against the number of blocks. Below it, the iterator is that of a shorter
chain, which is connectable when the whole one is; past it, reading a block fails before the cache
is touched.

* `Connectable.take`, `expectedBlock_take`: a front part of a chain expects of its blocks what the
  whole chain does.
* **`iterators_any_end`**: with either cache, for every `end` and every schedule, exactly the blocks
  below `end` that the chain has come out, and then the iterator ends.
-/

namespace BitcoinExplorer

open Rust Conc

variable {rb : RustBitcoin} {chain : List Block} {Blk Tx Out : Type}

/-! ## Front parts of a chain -/

theorem transactions_take (n : Nat) :
    transactions chain = transactions (chain.take n) ++ transactions (chain.drop n) := by
  unfold transactions
  rw [← List.flatMap_append, List.take_append_drop]

theorem chainSpends_take (n : Nat) :
    chainSpends chain = chainSpends (chain.take n) ++ chainSpends (chain.drop n) := by
  unfold chainSpends
  rw [← List.flatMap_append, List.take_append_drop]

/-- The blocks of a front part are those of the chain. -/
theorem getElem?_of_take {n h : Nat} {blk : Block} (hblk : (chain.take n)[h]? = some blk) :
    h < n ∧ chain[h]? = some blk := by
  rw [List.getElem?_take] at hblk
  split at hblk
  · rename_i hlt
    exact ⟨hlt, hblk⟩
  · cases hblk

theorem Connectable.take (hc : Connectable rb chain) (n : Nat) :
    Connectable rb (chain.take n) where
  binds tx htx tx' htx' := hc.binds tx (transactions_take n ▸ List.mem_append_left _ htx) tx'
    (transactions_take n ▸ List.mem_append_left _ htx')
  named h blk hblk o ho := by
    obtain ⟨hlt, hblk⟩ := getElem?_of_take hblk
    obtain ⟨j, hj, blk', hblk', hout⟩ := hc.named h blk hblk o ho
    exact ⟨j, hj, blk', by rw [List.getElem?_take_of_lt (by omega), hblk'], hout⟩
  spentOnce := (List.nodup_append.mp (chainSpends_take n ▸ hc.spentOnce)).1

/-- A front part expects what the chain expects. -/
theorem expectedBlock_take (hc : Connectable rb chain) (CB : ConnectedBlock Blk Tx Out) {n h : Nat}
    (hlt : h < n) : expectedBlock CB rb (chain.take n) h = expectedBlock CB rb chain h := by
  unfold expectedBlock
  rw [List.getElem?_take_of_lt hlt]
  cases hblk : chain[h]? with
  | none => rfl
  | some blk =>
    refine ConnectedBlock.connectWith_congr fun o ho => ?_
    have hblk' : (chain.take n)[h]? = some blk := by rw [List.getElem?_take_of_lt hlt, hblk]
    obtain ⟨j, -, blk', hj, out, hout⟩ := (hc.take n).named h blk hblk' o ho
    rw [namedOutput_of_creates (hc.take n).binds (List.mem_of_getElem? hj) hout,
      namedOutput_of_creates hc.binds (List.mem_of_getElem? (getElem?_of_take hj).2) hout]

/-! ## The iterators -/

variable {getBlock : Nat → Outcome Error Block}

theorem OnDisk.failsFrom {tgt : Target} (CB : ConnectedBlock Blk Tx Out) (endHeight : Nat)
    {n : Nat} (hend : ∀ h, n ≤ h → h < endHeight → (getBlock h).isOk = false) :
    (OnDisk.connectedBlockIter rb tgt CB getBlock endHeight).FailsFrom n := by
  intro h hn hlt
  have hfail := hend h hn hlt
  change ∃ r, OnDisk.updateUnspentCache rb tgt getBlock h = .ret r ∧ r.isOk = false
  unfold OnDisk.updateUnspentCache
  cases hget : getBlock h with
  | ok blk =>
    rw [hget] at hfail
    cases hfail
  | err e => exact ⟨_, rfl, rfl⟩
  | panic => exact ⟨_, rfl, rfl⟩

theorem InMem.failsFrom {tgt : Target} (CB : ConnectedBlock Blk Tx Out) (endHeight : Nat)
    {n : Nat} (hend : ∀ h, n ≤ h → h < endHeight → (getBlock h).isOk = false) :
    (InMem.connectedBlockIter rb tgt CB getBlock endHeight).FailsFrom n := by
  intro h hn hlt
  have hfail := hend h hn hlt
  change ∃ r, InMem.updateUnspentCache rb tgt CB.tx getBlock h = .ret r ∧ r.isOk = false
  unfold InMem.updateUnspentCache
  cases hget : getBlock h with
  | ok blk =>
    rw [hget] at hfail
    cases hfail
  | err e => exact ⟨_, rfl, rfl⟩
  | panic => exact ⟨_, rfl, rfl⟩

/-- **Any end height.** Over a connectable chain, with either cache and under every schedule, the
iterator for `0..end` delivers the connected blocks of the first `end` heights that the chain has,
in order and no others; it cannot end before the last of them, and no schedule goes on forever. -/
theorem iterators_any_end (rb : RustBitcoin) (tgt : Target) (CB : ConnectedBlock Blk Tx Out)
    (getBlock : Nat → Outcome Error Block) (chain : List Block)
    (hget : ∀ h blk, chain[h]? = some blk → getBlock h = .ok blk)
    (hend : ∀ h, chain.length ≤ h → (getBlock h).isOk = false)
    (hcodec : OnDisk.DecodesOutputs rb chain) (hc : Connectable rb chain) (endHeight : Nat) :
    (∀ s, (OnDisk.connectedBlockIter rb tgt CB getBlock endHeight).Reachable OnDisk.emptyCache s →
      (OnDisk.connectedBlockIter rb tgt CB getBlock endHeight).DeliversUpTo
        (min endHeight chain.length) (expectedBlock CB rb chain) s) ∧
    ∀ s, (InMem.connectedBlockIter rb tgt CB getBlock endHeight).Reachable InMem.emptyCache s →
      (InMem.connectedBlockIter rb tgt CB getBlock endHeight).DeliversUpTo
        (min endHeight chain.length) (expectedBlock CB rb chain) s := by
  have hlen : (chain.take endHeight).length = min endHeight chain.length := List.length_take
  have hexpected : ∀ i, i < (chain.take endHeight).length →
      expectedBlock CB rb (chain.take endHeight) i = expectedBlock CB rb chain i := fun i hi =>
    expectedBlock_take hc CB (by omega)
  have hget' : ∀ h blk, (chain.take endHeight)[h]? = some blk → getBlock h = .ok blk :=
    fun h blk hblk => hget h blk (getElem?_of_take hblk).2
  have hcodec' : OnDisk.DecodesOutputs rb (chain.take endHeight) := fun tx htx =>
    hcodec tx (transactions_take endHeight ▸ List.mem_append_left _ htx)
  have hpast : ∀ h, (chain.take endHeight).length ≤ h → h < endHeight →
      (getBlock h).isOk = false := fun h hle hlt => hend h (by omega)
  rw [← hlen]
  constructor
  · intro s hr
    refine (Pipeline.delivers_cutoff (OnDisk.failsFrom CB endHeight hpast) (fun t ht => ?_)
      hr).congr hexpected
    exact OnDisk.delivers_of_connectable hcodec' (hc.take endHeight) hget' ht
  · intro s hr
    refine (Pipeline.delivers_cutoff (InMem.failsFrom CB endHeight hpast) (fun t ht => ?_)
      hr).congr hexpected
    exact InMem.delivers_of_connectable (hc.take endHeight) hget' ht

end BitcoinExplorer
