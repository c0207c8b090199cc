import BitcoinExplorer.Iter.InMemRuns
import BitcoinExplorer.Iter.OnDiskRuns

/-!
# What the caches hold in the middle of a run

Between the first block and the last one a cache holds the outputs of the blocks read ahead, less
what was taken so far. Which ones these are depends on the schedule, within bounds that do not.

* `MayHold`, `MustHold`: the outputs a cache may hold in a configuration, and those it must.
* **`OnDisk.onDisk_footprint`**, **`InMem.inMem_footprint`**: in every configuration a run reaches,
  the cache is between the two; and a txid of which the in-memory cache has no output left is the
  next one that some block removes.
-/

namespace BitcoinExplorer

open Rust Conc SpendMap

section

variable (rb : RustBitcoin) (chain : List Block) {M : Machine} {Blk : Type}
  (s : Config M Unit Block Blk)

/-- The output is of a block that is through stage 1, and no block delivered so far spends it. -/
def MayHold (o : OutPoint) (out : TxOut) : Prop :=
  ∃ h blk, chain[h]? = some blk ∧ s.work1 h = .ret (.ok blk) ∧ (o, out) ∈ blk.creates rb ∧
    ∀ blk' ∈ chain.take s.emitted.length, o ∉ blk'.spends

/-- The output is of a block that is through stage 1, and no block in stage 2 spends it. -/
def MustHold (o : OutPoint) (out : TxOut) : Prop :=
  ∃ h blk, chain[h]? = some blk ∧ s.work1 h = .ret (.ok blk) ∧ (o, out) ∈ blk.creates rb ∧
    ∀ (h' : Nat) blk', chain[h']? = some blk' → o ∈ blk'.spends → s.work2 h' = none

/-- The progress is that of the configuration. -/
structure Tracks (g : Progress) : Prop where
  written : ∀ h blk, chain[h]? = some blk → (g.written h ↔ s.work1 h = .ret (.ok blk))
  delivered : ∀ blk ∈ chain.take s.emitted.length, ∀ o ∈ blk.spends, g.taken o
  handed : ∀ (h : Nat) blk, chain[h]? = some blk → s.work2 h = none → ∀ o ∈ blk.spends, ¬ g.taken o
  spent : ∀ o, g.taken o → o ∈ chainSpends chain

variable {rb chain s} {g : Progress} {o : OutPoint} {out : TxOut}

theorem Tracks.mayHold (ht : Tracks chain s g) (ha : g.Available rb chain o out)
    (hn : ¬ g.taken o) : MayHold rb chain s o out := by
  obtain ⟨h, blk, hw, hblk, ho⟩ := ha
  exact ⟨h, blk, hblk, (ht.written h blk hblk).mp hw, ho,
    fun blk' hblk' hsp => hn (ht.delivered blk' hblk' o hsp)⟩

theorem Tracks.of_mustHold (ht : Tracks chain s g) (hm : MustHold rb chain s o out) :
    g.Available rb chain o out ∧ ¬ g.taken o := by
  obtain ⟨h, blk, hblk, hw, ho, hfree⟩ := hm
  refine ⟨⟨h, blk, (ht.written h blk hblk).mpr hw, hblk, ho⟩, fun htaken => ?_⟩
  obtain ⟨h', blk', hblk', hsp⟩ := mem_chainSpends.mp (ht.spent o htaken)
  exact ht.handed h' blk' hblk' (hfree h' blk' hblk' hsp) o hsp htaken

/-- A delivered block has returned from stage 2. -/
theorem exists_ret_of_mem_take {P : Pipeline M Unit Block Blk} (hw : Pipeline.Wf P s) {blk : Block}
    (hmem : blk ∈ chain.take s.emitted.length) :
    ∃ h c, chain[h]? = some blk ∧ s.work2 h = some (.ret (.ok c)) := by
  obtain ⟨h, hh⟩ := List.getElem?_of_mem hmem
  rw [List.getElem?_take, Option.ite_none_right_eq_some] at hh
  obtain ⟨hlt, hblk⟩ := hh
  exact ⟨h, _, hblk, hw.emitted h _ (List.getElem?_eq_getElem hlt)⟩

end

variable {rb : RustBitcoin} {tgt : Target} {chain : List Block} {Blk Tx Out : Type}
  {CB : ConnectedBlock Blk Tx Out} {getBlock : Nat → Outcome Error Block}

namespace OnDisk

theorem tracks_of_holds {hcodec : DecodesOutputs rb chain} {hc : Connectable rb chain}
    {g : Progress} {s : Config rocksDB Unit Block Blk} (hw : Pipeline.Wf
      (connectedBlockIter rb tgt CB getBlock chain.length) s)
    (hg : (outline tgt CB getBlock hcodec hc).Holds g s) : Tracks chain s g where
  written h blk hblk := by
    rcases hg.task1 h (List.getElem?_eq_some_iff.mp hblk).1 blk hblk with ⟨hn, he⟩ | ⟨hy, he⟩
    · rw [he]
      exact ⟨fun hy => absurd hy hn, fun he => by cases he⟩
    · exact ⟨fun _ => he, fun _ => hy⟩
  delivered blk hmem o ho := by
    obtain ⟨h, c, hblk, hret⟩ := exists_ret_of_mem_take hw hmem
    obtain ⟨blk', -, hblk', -, -, htaken⟩ := Connecting.ret (hret ▸ hg.task2 h)
    obtain rfl := Option.some.inj (hblk.symm.trans hblk')
    exact htaken o ho
  handed h blk hblk hnone := by
    have htask := hg.task2 h
    rw [hnone] at htask
    exact htask blk hblk
  spent o ht := (hg.shared.taken o ht).1

/-- **The on-disk cache in the middle of a run.** On a valid chain, in every configuration of every
run: each entry is the encoding of an output of a block that was read, under its key, which no block
delivered so far spends; and every output of a block that was read is there unless a block has begun
to connect that spends it. -/
theorem onDisk_footprint (rb : RustBitcoin) (tgt : Target) (CB : ConnectedBlock Blk Tx Out)
    (getBlock : Nat → Outcome Error Block) (chain : List Block)
    (hget : ∀ h blk, chain[h]? = some blk → getBlock h = .ok blk)
    (hcodec : DecodesOutputs rb chain) (hv : ValidChain rb chain)
    {s : Config rocksDB Unit Block Blk}
    (hr : (connectedBlockIter rb tgt CB getBlock chain.length).Reachable emptyCache s) :
    (∀ key value, s.shared key = some value → ∃ o out, key = outpointKey tgt o ∧
        value = rb.encodeTxOut out ∧ MayHold rb chain s o out) ∧
      ∀ o out, MustHold rb chain s o out →
        s.shared (outpointKey tgt o) = some (rb.encodeTxOut out) := by
  obtain ⟨g, hg⟩ := Outline.sound (outline_init hcodec hv.connectable hget) hr
  have htracks := tracks_of_holds hr.wf hg
  refine ⟨fun key value hget => ?_, fun o out hm => ?_⟩
  · obtain ⟨o, out, ha, hn, hkey, hvalue⟩ := hg.shared.only key value hget
    exact ⟨o, out, hkey, hvalue, htracks.mayHold ha (hn hv.txids)⟩
  · obtain ⟨ha, hn⟩ := htracks.of_mustHold hm
    exact hg.shared.present o out ha hn

/-- The output of block 0 is there once block 0 was read, while block 1 still may spend it. -/
theorem sampleChain_onDisk_footprint :
    ∃ s, (connectedBlockIter sampleBitcoin ⟨true, true⟩ (fullConnectedBlock sampleBitcoin)
        (getBlockFrom sampleChain) 2).Reachable emptyCache s ∧ s.emitted = [] ∧
      s.shared (outpointKey ⟨true, true⟩ sampleOutPoint) =
        some (sampleBitcoin.encodeTxOut ⟨50, []⟩) := by
  have hcodec : DecodesOutputs sampleBitcoin sampleChain := by
    unfold DecodesOutputs
    decide
  refine ⟨_, .step (.step1 0) .init rfl, rfl, ?_⟩
  refine (onDisk_footprint sampleBitcoin ⟨true, true⟩ (fullConnectedBlock sampleBitcoin)
    (getBlockFrom sampleChain) sampleChain getBlockFrom_eq hcodec sampleChain_valid
    (.step (.step1 0) .init rfl)).2 _ _ ?_
  exact ⟨0, _, rfl, rfl, by decide, fun _ _ _ _ => rfl⟩

end OnDisk

namespace InMem

theorem tracks_of_holds {hc : Connectable rb chain} {g : Ghost}
    {s : Config (mutexes tgt Out) Unit Block Blk} (hw : Pipeline.Wf
      (connectedBlockIter rb tgt CB getBlock chain.length) s)
    (hg : (outline tgt CB getBlock hc).Holds g s) : Tracks chain s g.toProgress where
  written h blk hblk := by
    rcases hg.task1 h (List.getElem?_eq_some_iff.mp hblk).1 blk hblk with ⟨hn, he⟩ | ⟨hy, he⟩
    · rw [he]
      exact ⟨fun hy => absurd hy hn, fun he => by cases he⟩
    · exact ⟨fun _ => he, fun _ => hy⟩
  delivered blk hmem o ho := by
    obtain ⟨h, c, hblk, hret⟩ := exists_ret_of_mem_take hw hmem
    obtain ⟨blk', -, hblk', -, -, htaken, -⟩ := Connecting.ret (hret ▸ hg.task2 h)
    obtain rfl := Option.some.inj (hblk.symm.trans hblk')
    exact htaken o ho
  handed h blk hblk hnone := by
    have htask := hg.task2 h
    rw [hnone] at htask
    exact htask.1 blk hblk
  spent o ht := (hg.shared.taken o ht).1

section

variable {CT : ConnectedTx Tx Out} {seen : Txid → Prop} {g : Ghost} {cache : Cache Out}

/-- With distinct txids, an output found in the cache was written and not taken. -/
theorem CacheInv.of_lookup (hd : ((transactions chain).map rb.computeTxid).Nodup)
    (hi : CacheInv rb CT chain g cache) {o : OutPoint} {found : Out}
    (hfound : cache.lookup o = some found) :
    ∃ out, found = CT.into out ∧ g.Available rb chain o out ∧ ¬ g.taken o := by
  obtain ⟨cell, hget, hslot⟩ := Option.bind_eq_some_iff.mp hfound
  have howner := hi.cells.map _ _ hget
  rcases hi.cells.slot cell _ o.vout.toNat howner with h | ⟨h, -⟩
  · rw [hslot] at h
    obtain ⟨out, hout, rfl⟩ := Option.map_eq_some_iff.mp h.symm
    obtain ⟨⟨j, blk, tx, hw, hblk, htx, hid⟩, -⟩ := hi.cells.known cell _ howner
    refine ⟨out, rfl, ⟨j, blk, hw, hblk, Block.mem_creates.mpr ⟨tx, htx, hid, ?_⟩⟩, fun ht => ?_⟩
    · rwa [← hid, outputAt_eq (txidBinds_of_nodup hd)
        (mem_transactions.mpr ⟨blk, List.mem_of_getElem? hblk, htx⟩)] at hout
    · rw [(hi.cells.exact hd cell _ howner).2.1 o.vout ht] at hslot
      cases hslot
  · rw [hslot] at h
    cases h

/-- An output that was written and not taken is found in the cache. -/
theorem CacheInv.lookup_of_available (hb : TxidBinds rb chain) (hi : CacheInv rb CT chain g cache)
    {o : OutPoint} {out : TxOut} (ha : g.Available rb chain o out) (hn : ¬ g.taken o) :
    cache.lookup o = some (CT.into out) := by
  obtain ⟨cell, hget⟩ := hi.present o out ha hn
  rw [Cache.lookup, hget, Option.bind_some]
  rcases hi.cells.slot cell _ o.vout.toNat (hi.cells.map _ _ hget) with h | ⟨-, vout, hvout, ht⟩
  · rw [h]
    exact congrArg _ (ha.named hb)
  · rw [UInt32.toNat_inj.mp hvout] at ht
    exact absurd ht hn

/-- With distinct txids, a key whose cell has nothing left is about to be removed. -/
theorem CacheInv.lookup_or_pending (hd : ((transactions chain).map rb.computeTxid).Nodup)
    (hout : ∀ tx ∈ transactions chain, tx.output ≠ []) (hi : CacheInv rb CT chain g cache)
    {txid : Txid} {cell : Nat} (hget : cache.map txid = some cell) :
    (∃ vout, (cache.lookup ⟨txid, vout⟩).isSome = true) ∨ ∃ h, g.pending txid = some h := by
  have howner := hi.cells.map _ _ hget
  by_cases hempty : (cache.cells cell).isEmpty = true
  · obtain ⟨-, tx, htx, hid⟩ := hi.cells.known cell txid howner
    refine Or.inr ((hi.cells.exact hd cell txid howner).2.2 hget hempty ⟨0, ?_⟩)
    rw [← hid, outputAt_eq (txidBinds_of_nodup hd) htx, List.getElem?_eq_getElem
      (List.length_pos_iff.mpr (hout tx htx))]
    rfl
  · rw [VecMap.isEmpty_iff (hi.cells.wf cell txid howner), not_forall] at hempty
    obtain ⟨n, hn⟩ := hempty
    have hlt : n < 2 ^ 32 := by
      rcases hi.cells.slot cell txid n howner with h | ⟨h, -⟩
      · rw [h, Option.map_eq_none_iff] at hn
        exact outputAt_lt (Option.isSome_iff_ne_none.mpr hn)
      · exact absurd h hn
    refine Or.inl ⟨UInt32.ofNat n, ?_⟩
    rw [Cache.lookup, hget, Option.bind_some, UInt32.toNat_ofNat_of_lt' hlt]
    exact Option.isSome_iff_ne_none.mpr hn

end

/-- A key about to be removed is the one the connecting task of that height removes next. -/
theorem Connecting.removeKey_of_pending {g : Ghost} {txid : Txid} {h : Nat}
    (hpend : g.pending txid = some h) {p : Option (Prog (mutexes tgt Out) (Outcome Unit Blk))}
    (hp : Connecting rb tgt chain CB g h p) : ∃ k, p = some (.op (.removeKey txid) k) := by
  cases p with
  | none => exact absurd hpend (hp.2 txid)
  | some p =>
    obtain ⟨blk, b, done, rest, -, -, -, -, -, -, hphase⟩ := hp
    cases hphase with
    | idle hp hnone => exact absurd hpend (hnone txid)
    | holding o os cell hcons howner hp hnone => exact absurd hpend (hnone txid)
    | dropping txid' hp honly hall =>
      obtain rfl := honly txid hpend
      obtain ⟨k, rfl, -⟩ := hp
      exact ⟨k, rfl⟩

/-- **The in-memory cache in the middle of a run.** On a valid chain whose transactions each have an
output, in every configuration of every run: each output found is of a block that was read and not
spent by a block delivered so far; every output of a block that was read is found unless a block has
begun to connect that spends it; and a key is kept only while one of its outputs is, or until the
next step of the block that took the last one. -/
theorem inMem_footprint (rb : RustBitcoin) (tgt : Target) (CB : ConnectedBlock Blk Tx Out)
    (getBlock : Nat → Outcome Error Block) (chain : List Block)
    (hget : ∀ h blk, chain[h]? = some blk → getBlock h = .ok blk)
    (hv : ValidChain rb chain) (hout : ∀ tx ∈ transactions chain, tx.output ≠ [])
    {s : Config (mutexes tgt Out) Unit Block Blk}
    (hr : (connectedBlockIter rb tgt CB getBlock chain.length).Reachable emptyCache s) :
    (∀ o found, s.shared.lookup o = some found →
        ∃ out, found = CB.tx.into out ∧ MayHold rb chain s o out) ∧
      (∀ o out, MustHold rb chain s o out → s.shared.lookup o = some (CB.tx.into out)) ∧
      ∀ txid, (s.shared.map txid).isSome = true →
        (∃ vout, (s.shared.lookup ⟨txid, vout⟩).isSome = true) ∨
          ∃ h k, s.work2 h = some (.op (.removeKey txid) k) := by
  obtain ⟨g, hg⟩ := Outline.sound (outline_init hv.connectable hget) hr
  have htracks := tracks_of_holds hr.wf hg
  refine ⟨fun o found hfound => ?_, fun o out hm => ?_, fun txid hsome => ?_⟩
  · obtain ⟨out, hinto, ha, hn⟩ := hg.shared.of_lookup hv.txids hfound
    exact ⟨out, hinto, htracks.mayHold ha hn⟩
  · obtain ⟨ha, hn⟩ := htracks.of_mustHold hm
    exact hg.shared.lookup_of_available (txidBinds_of_nodup hv.txids) ha hn
  · obtain ⟨cell, hcell⟩ := Option.isSome_iff_exists.mp hsome
    rcases hg.shared.lookup_or_pending hv.txids hout hcell with hleft | ⟨h, hpend⟩
    · exact Or.inl hleft
    · obtain ⟨k, hk⟩ := Connecting.removeKey_of_pending hpend (hg.task2 h)
      exact Or.inr ⟨h, k, hk⟩

/-- The same in memory. -/
theorem sampleChain_inMem_footprint :
    ∃ s, (connectedBlockIter sampleBitcoin ⟨true, true⟩ (fullConnectedBlock sampleBitcoin)
        (getBlockFrom sampleChain) 2).Reachable emptyCache s ∧ s.emitted = [] ∧
      s.shared.lookup sampleOutPoint =
        some ((fullConnectedBlock sampleBitcoin).tx.into ⟨50, []⟩) := by
  refine ⟨_, .step (.step1 0) .init rfl, rfl, ?_⟩
  refine (inMem_footprint sampleBitcoin ⟨true, true⟩ (fullConnectedBlock sampleBitcoin)
    (getBlockFrom sampleChain) sampleChain getBlockFrom_eq sampleChain_valid (by decide)
    (.step (.step1 0) .init rfl)).2.1 _ _ ?_
  exact ⟨0, _, rfl, rfl, by decide, fun _ _ _ _ => rfl⟩

end InMem

end BitcoinExplorer
