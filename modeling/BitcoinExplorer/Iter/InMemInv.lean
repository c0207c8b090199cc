import BitcoinExplorer.Iter.InMem

/-!
# The invariant of the in-memory cache

Taking an output is three critical sections: the lookup of the cell, the removal from the cell, and,
when that emptied the cell, the removal of the key. In between, other blocks may take from the same
cell and, with a repeated txid, a new cell may replace it under the key. What stays true
(`CacheInv`): a cell belongs to one txid, and each of its slots holds the output of that txid unless
that output was taken; a written output not yet taken has its key in the map, since a key is removed
only after all its outputs were taken.

* `CacheInv.write`, `CacheInv.remove`, `CacheInv.dropKey`: each critical section keeps the
  invariant.
* `CacheInv.exec_remove`: an outpoint not yet taken is found in any cell of its txid.
* `CacheInv.final`: on a chain with distinct txids, once everything is written, taken and removed,
  the cache holds exactly the unspent outputs.
-/

namespace BitcoinExplorer

open Rust Conc SpendMap

namespace InMem

/-- Progress, with the txid each cell was made for and the height that still has to remove an
emptied key. -/
structure Ghost extends Progress where
  owner : Nat → Option Txid
  pending : Txid → Option Nat

/-- Nothing done. -/
def Ghost.start : Ghost := { Progress.start with owner := fun _ => none, pending := fun _ => none }

variable {rb : RustBitcoin} {tgt : Target} {chain : List Block} {Tx Out : Type}

/-- The cells of the cache, each made for one of the txids `seen`. With distinct txids each txid has
one cell, which holds none of the outputs taken, and an emptied cell's key is about to go. -/
structure CellsInv (rb : RustBitcoin) (CT : ConnectedTx Tx Out) (chain : List Block)
    (seen : Txid → Prop) (g : Ghost) (cache : Cache Out) : Prop where
  fresh : ∀ cell txid, g.owner cell = some txid → cell < cache.next
  map : ∀ txid cell, cache.map txid = some cell → g.owner cell = some txid
  known : ∀ cell txid, g.owner cell = some txid →
    seen txid ∧ ∃ tx ∈ transactions chain, rb.computeTxid tx = txid
  wf : ∀ cell txid, g.owner cell = some txid → (cache.cells cell).Wf
  slot : ∀ cell txid n, g.owner cell = some txid →
    (cache.cells cell).slot n = (outputAt rb chain txid n).map CT.into ∨
      ((cache.cells cell).slot n = none ∧ ∃ vout : UInt32, vout.toNat = n ∧ g.taken ⟨txid, vout⟩)
  exact : ((transactions chain).map rb.computeTxid).Nodup → ∀ cell txid, g.owner cell = some txid →
    (∀ cell', g.owner cell' = some txid → cell' = cell) ∧
    (∀ vout : UInt32, g.taken ⟨txid, vout⟩ → (cache.cells cell).slot vout.toNat = none) ∧
    (cache.map txid = some cell → (cache.cells cell).isEmpty = true →
      (∃ n, (outputAt rb chain txid n).isSome = true) → ∃ h, g.pending txid = some h)

/-- A txid of a written block. -/
def WrittenTxid (rb : RustBitcoin) (chain : List Block) (g : Progress) (txid : Txid) : Prop :=
  ∃ h blk tx, g.written h ∧ chain[h]? = some blk ∧ tx ∈ blk.txdata ∧ rb.computeTxid tx = txid

/-- The invariant of the cache. -/
structure CacheInv (rb : RustBitcoin) (CT : ConnectedTx Tx Out) (chain : List Block) (g : Ghost)
    (cache : Cache Out) : Prop where
  cells : CellsInv rb CT chain (WrittenTxid rb chain g.toProgress) g cache
  present : ∀ o out, g.Available rb chain o out → ¬ g.taken o → ∃ cell, cache.map o.txid = some cell
  taken : ∀ o, g.taken o → o ∈ chainSpends chain ∧ ∃ out, g.Available rb chain o out

variable {CT : ConnectedTx Tx Out} {seen : Txid → Prop} {g : Ghost} {cache : Cache Out}

/-! ## Insertion -/

/-- One entry is inserted; with distinct txids, for a txid neither seen nor taken from. -/
theorem CellsInv.insert (hb : TxidBinds rb chain) (hi : CellsInv rb CT chain seen g cache)
    {tx : Transaction} (htx : tx ∈ transactions chain)
    (hnew : ((transactions chain).map rb.computeTxid).Nodup →
      ¬ seen (rb.computeTxid tx) ∧ ∀ vout, ¬ g.taken ⟨rb.computeTxid tx, vout⟩) :
    CellsInv rb CT chain (fun txid => seen txid ∨ txid = rb.computeTxid tx)
      { g with owner := Function.update g.owner cache.next (some (rb.computeTxid tx)) }
      (cache.insert (newEntry rb CT tx)) := by
  have hcell : ∀ cell, (cache.insert (newEntry rb CT tx)).cells cell =
      if cell = cache.next then (newEntry rb CT tx).2 else cache.cells cell := fun cell =>
    Function.update_apply _ _ _ _
  have hmap : ∀ txid, (cache.insert (newEntry rb CT tx)).map txid =
      if txid = rb.computeTxid tx then some cache.next else cache.map txid := fun txid =>
    Function.update_apply _ _ _ _
  -- a cell is the new one, or an old one with its old owner
  have hcases : ∀ cell txid,
      Function.update g.owner cache.next (some (rb.computeTxid tx)) cell = some txid →
      (cell = cache.next ∧ txid = rb.computeTxid tx) ∨
        (cell ≠ cache.next ∧ g.owner cell = some txid) := by
    intro cell txid ho
    rw [Function.update_apply] at ho
    split at ho
    · rename_i he
      exact Or.inl ⟨he, (Option.some.inj ho).symm⟩
    · rename_i hne
      exact Or.inr ⟨hne, ho⟩
  have hold : ∀ {cell txid}, g.owner cell = some txid →
      Function.update g.owner cache.next (some (rb.computeTxid tx)) cell = some txid := by
    intro cell txid ho
    rw [Function.update_of_ne (hi.fresh cell txid ho).ne]
    exact ho
  constructor
  · intro cell txid ho
    change cell < cache.next + 1
    rcases hcases cell txid ho with ⟨rfl, -⟩ | ⟨-, ho⟩
    · omega
    · have := hi.fresh cell txid ho
      omega
  · intro txid cell hget
    rw [hmap] at hget
    split at hget
    · rename_i he
      obtain rfl := Option.some.inj hget
      rw [he]
      exact Function.update_self _ _ _
    · exact hold (hi.map txid cell hget)
  · intro cell txid ho
    rcases hcases cell txid ho with ⟨-, rfl⟩ | ⟨-, ho⟩
    · exact ⟨Or.inr rfl, tx, htx, rfl⟩
    · obtain ⟨hs, hex⟩ := hi.known cell txid ho
      exact ⟨Or.inl hs, hex⟩
  · intro cell txid ho
    rw [hcell]
    rcases hcases cell txid ho with ⟨rfl, -⟩ | ⟨hne, ho⟩
    · rw [if_pos rfl]
      exact wf_newEntry CT tx
    · rw [if_neg hne]
      exact hi.wf cell txid ho
  · intro cell txid n ho
    rw [hcell]
    rcases hcases cell txid ho with ⟨rfl, rfl⟩ | ⟨hne, ho⟩
    · rw [if_pos rfl, slot_newEntry, outputAt_eq hb htx]
      exact Or.inl rfl
    · rw [if_neg hne]
      exact hi.slot cell txid n ho
  · intro hd cell txid ho
    obtain ⟨hseen, htaken⟩ := hnew hd
    rw [hcell]
    rcases hcases cell txid ho with ⟨rfl, rfl⟩ | ⟨hne, ho⟩
    · refine ⟨fun cell' ho' => ?_, fun vout ht => absurd ht (htaken vout), fun _ he hex => ?_⟩
      · rcases hcases cell' _ ho' with ⟨rfl, -⟩ | ⟨-, ho'⟩
        · rfl
        · exact absurd (hi.known cell' _ ho').1 hseen
      · rw [if_pos rfl] at he
        obtain ⟨n, hn⟩ := hex
        have := (VecMap.isEmpty_iff (wf_newEntry CT tx)).mp he n
        rw [slot_newEntry, Option.map_eq_none_iff] at this
        rw [outputAt_eq hb htx, this] at hn
        exact absurd hn (by simp)
    · obtain ⟨huniq, hslot, hpend⟩ := hi.exact hd cell txid ho
      have hne' : txid ≠ rb.computeTxid tx := by
        rintro rfl
        exact hseen (hi.known cell _ ho).1
      rw [if_neg hne]
      refine ⟨fun cell' ho' => ?_, hslot, fun hget => ?_⟩
      · rcases hcases cell' _ ho' with ⟨-, he⟩ | ⟨-, ho'⟩
        · exact absurd he hne'
        · exact huniq cell' ho'
      · rw [hmap, if_neg hne'] at hget
        exact hpend hget

theorem CellsInv.seen_mono {seen' : Txid → Prop} (hi : CellsInv rb CT chain seen g cache)
    (hs : ∀ txid, seen txid → seen' txid) : CellsInv rb CT chain seen' g cache :=
  { hi with known := fun cell txid ho =>
    ⟨hs txid (hi.known cell txid ho).1, (hi.known cell txid ho).2⟩ }

/-- The entries of a list of transactions are inserted: old cells keep their owners. -/
theorem CellsInv.extend (hb : TxidBinds rb chain) (txs : List Transaction) :
    ∀ {seen : Txid → Prop} {g : Ghost} {cache : Cache Out}, CellsInv rb CT chain seen g cache →
    (∀ tx ∈ txs, tx ∈ transactions chain) →
    (((transactions chain).map rb.computeTxid).Nodup → (txs.map rb.computeTxid).Nodup ∧
      ∀ tx ∈ txs, ¬ seen (rb.computeTxid tx) ∧ ∀ vout, ¬ g.taken ⟨rb.computeTxid tx, vout⟩) →
    ∃ owner, CellsInv rb CT chain (fun txid => seen txid ∨ txid ∈ txs.map rb.computeTxid)
      { g with owner } ((txs.map (newEntry rb CT)).foldl Cache.insert cache) ∧
      ∀ cell txid, g.owner cell = some txid → owner cell = some txid := by
  induction txs with
  | nil =>
    intro seen g cache hi _ _
    exact ⟨g.owner, hi.seen_mono fun _ => Or.inl, fun _ _ => id⟩
  | cons tx txs ih =>
    intro seen g cache hi hmem hnew
    have hi' := hi.insert hb (hmem tx List.mem_cons_self) fun hd =>
      (hnew hd).2 tx List.mem_cons_self
    obtain ⟨owner, hfinal, hkeep⟩ := ih hi' (fun tx' ht' => hmem tx' (List.mem_cons_of_mem _ ht'))
      fun hd => by
        obtain ⟨hnd, hseen⟩ := hnew hd
        rw [List.map_cons, List.nodup_cons] at hnd
        refine ⟨hnd.2, fun tx' ht' => ?_⟩
        obtain ⟨hs, ht⟩ := hseen tx' (List.mem_cons_of_mem _ ht')
        refine ⟨?_, ht⟩
        rintro (h | h)
        · exact hs h
        · exact hnd.1 (h ▸ List.mem_map_of_mem ht')
    refine ⟨owner, hfinal.seen_mono ?_, fun cell txid ho => hkeep cell txid ?_⟩
    · rintro txid ((h | rfl) | h)
      · exact Or.inl h
      · exact Or.inr List.mem_cons_self
      · exact Or.inr (List.mem_cons_of_mem _ h)
    · change Function.update _ _ _ _ = _
      rw [Function.update_of_ne (hi.fresh cell txid ho).ne]
      exact ho

/-- Inserting entries removes no key and adds theirs. -/
theorem isSome_map_foldl_insert (entries : List (Txid × VecMap Out)) :
    ∀ {cache : Cache Out} {txid : Txid},
    (cache.map txid).isSome = true ∨ txid ∈ entries.map Prod.fst →
      ((entries.foldl Cache.insert cache).map txid).isSome = true := by
  induction entries with
  | nil =>
    rintro cache txid (h | h)
    · exact h
    · exact absurd h List.not_mem_nil
  | cons entry entries ih =>
    intro cache txid h
    rw [List.foldl_cons]
    apply ih
    by_cases he : txid = entry.1
    · refine Or.inl ?_
      change (Function.update cache.map entry.1 (some cache.next) txid).isSome = true
      rw [he, Function.update_self]
      rfl
    · rcases h with h | h
      · refine Or.inl ?_
        change (Function.update cache.map entry.1 (some cache.next) txid).isSome = true
        rw [Function.update_of_ne he]
        exact h
      · exact Or.inr ((List.mem_cons.mp h).resolve_left he)

/-- The insertion of a height not yet written. -/
theorem CacheInv.write (hb : TxidBinds rb chain) (hi : CacheInv rb CT chain g cache) {h : Nat}
    {blk : Block} (hblk : chain[h]? = some blk) (hw : ¬ g.written h) :
    ∃ owner, CacheInv rb CT chain { g with toProgress := g.toProgress.write h, owner }
        ((blk.txdata.map (newEntry rb CT)).foldl Cache.insert cache) ∧
      ∀ cell txid, g.owner cell = some txid → owner cell = some txid := by
  have hmem : ∀ tx ∈ blk.txdata, tx ∈ transactions chain := fun tx htx =>
    mem_transactions.mpr ⟨blk, List.mem_of_getElem? hblk, htx⟩
  obtain ⟨owner, hcells, hkeep⟩ := hi.cells.extend hb blk.txdata hmem fun hd => by
    refine ⟨?_, fun tx htx => ⟨?_, fun vout ht => ?_⟩⟩
    · rw [transactions, List.map_flatMap] at hd
      exact (List.nodup_flatMap.mp hd).1 blk (List.mem_of_getElem? hblk)
    · rintro ⟨j, blk', tx', hj, hblk', htx', he⟩
      rw [creates_height hd hblk hblk' htx htx' he.symm] at hw
      exact hw hj
    · obtain ⟨-, out, j, blk', hj, hblk', ho⟩ := hi.taken _ ht
      obtain ⟨tx', htx', he, -⟩ := Block.mem_creates.mp ho
      rw [creates_height hd hblk hblk' htx htx' he.symm] at hw
      exact hw hj
  refine ⟨owner, ⟨?_, ?_, ?_⟩, hkeep⟩
  · refine { hcells.seen_mono ?_ with }
    rintro txid (⟨j, blk', tx, hj, hrest⟩ | hin)
    · exact ⟨j, blk', tx, Or.inl hj, hrest⟩
    · obtain ⟨tx, htx, he⟩ := List.mem_map.mp hin
      exact ⟨h, blk, tx, Or.inr rfl, hblk, htx, he⟩
  · intro o out ha ht
    apply Option.isSome_iff_exists.mp
    apply isSome_map_foldl_insert
    rcases (Progress.available_write hblk).mp ha with ha | ho
    · exact Or.inl (Option.isSome_iff_exists.mpr (hi.present o out ha ht))
    · obtain ⟨tx, htx, he, -⟩ := Block.mem_creates.mp ho
      refine Or.inr ?_
      rw [List.map_map]
      exact List.mem_map.mpr ⟨tx, htx, he⟩
  · intro o ht
    obtain ⟨hs, out, ha⟩ := hi.taken o ht
    exact ⟨hs, out, (Progress.available_write hblk).mpr (Or.inl ha)⟩

/-! ## Removal -/

/-- Ghost state after `height` took `o` from a cell and saw whether that emptied it. -/
def Ghost.takeFrom (g : Ghost) (o : OutPoint) (isEmpty : Bool) (height : Nat) : Ghost :=
  { g with
    toProgress := g.toProgress.take o
    pending := if isEmpty then Function.update g.pending o.txid (some height) else g.pending }

/-- Ghost state after the removal of a key. -/
def Ghost.dropKey (g : Ghost) (txid : Txid) : Ghost :=
  { g with pending := Function.update g.pending txid none }

/-- One slot is emptied under the lock of its cell. -/
theorem CacheInv.remove (hi : CacheInv rb CT chain g cache) {o : OutPoint} {cell : Nat}
    {v : VecMap Out} (ho : g.owner cell = some o.txid) (hv : v.Wf)
    (hslot : ∀ n, v.slot n = if n = o.vout.toNat then none else (cache.cells cell).slot n)
    (hs : o ∈ chainSpends chain) (ha : ∃ out, g.Available rb chain o out) (height : Nat) :
    CacheInv rb CT chain (g.takeFrom o v.isEmpty height)
      { cache with cells := Function.update cache.cells cell v } := by
  have hcell : ∀ c, Function.update cache.cells cell v c = if c = cell then v else cache.cells c :=
    fun c => Function.update_apply _ _ _ _
  have hpending : ∀ txid h, g.pending txid = some h →
      ∃ h', (g.takeFrom o v.isEmpty height).pending txid = some h' := by
    intro txid h hp
    unfold Ghost.takeFrom
    dsimp only
    split
    · by_cases he : txid = o.txid
      · exact ⟨height, by rw [he, Function.update_self]⟩
      · exact ⟨h, by rw [Function.update_of_ne he, hp]⟩
    · exact ⟨h, hp⟩
  refine ⟨⟨hi.cells.fresh, hi.cells.map, hi.cells.known, ?_, ?_, ?_⟩, ?_, ?_⟩
  · intro c txid hc
    dsimp only
    rw [hcell]
    split
    · exact hv
    · exact hi.cells.wf c txid hc
  · intro c txid n hc
    dsimp only
    rw [hcell]
    split
    · rename_i he
      subst he
      obtain rfl := Option.some.inj (ho.symm.trans hc)
      rw [hslot]
      split
      · rename_i hn
        exact Or.inr ⟨rfl, o.vout, hn.symm, Or.inr rfl⟩
      · exact (hi.cells.slot c _ n hc).imp_right fun ⟨hnone, vout, hv, ht⟩ =>
          ⟨hnone, vout, hv, Or.inl ht⟩
    · exact (hi.cells.slot c txid n hc).imp_right fun ⟨hnone, vout, hv, ht⟩ =>
        ⟨hnone, vout, hv, Or.inl ht⟩
  · intro hd c txid hc
    obtain ⟨huniq, hnone, hpend⟩ := hi.cells.exact hd c txid hc
    dsimp only
    rw [hcell]
    refine ⟨huniq, ?_, ?_⟩
    · rintro vout ht
      by_cases he : c = cell
      · subst he
        obtain rfl := Option.some.inj (ho.symm.trans hc)
        rw [if_pos rfl, hslot]
        split
        · rfl
        · rename_i hne
          rcases ht with ht | ht
          · exact hnone vout ht
          · exact absurd (congrArg (fun o => o.vout.toNat) ht) hne
      · rw [if_neg he]
        rcases ht with ht | ht
        · exact hnone vout ht
        · obtain rfl : txid = o.txid := congrArg OutPoint.txid ht
          exact absurd (huniq cell ho).symm he
    · intro hget hempty hex
      by_cases he : c = cell
      · subst he
        obtain rfl := Option.some.inj (ho.symm.trans hc)
        rw [if_pos rfl] at hempty
        refine ⟨height, ?_⟩
        unfold Ghost.takeFrom
        rw [hempty]
        exact Function.update_self _ _ _
      · rw [if_neg he] at hempty
        obtain ⟨h, hp⟩ := hpend hget hempty hex
        exact hpending txid h hp
  · intro o' out' ha' ht'
    exact hi.present o' out' ha' fun ht => ht' (Or.inl ht)
  · rintro o' (ht | rfl)
    · exact hi.taken o' ht
    · exact ⟨hs, ha⟩

/-- The key of a txid is removed, all of whose outputs were taken. -/
theorem CacheInv.dropKey (hb : TxidBinds rb chain) (hi : CacheInv rb CT chain g cache) {txid : Txid}
    (hall : ∀ vout, (namedOutput rb chain ⟨txid, vout⟩).isSome = true → g.taken ⟨txid, vout⟩) :
    CacheInv rb CT chain (g.dropKey txid)
      { cache with map := Function.update cache.map txid none } := by
  have hsub : ∀ txid' cell, Function.update cache.map txid none txid' = some cell →
      txid' ≠ txid ∧ cache.map txid' = some cell := by
    intro txid' cell hget
    by_cases he : txid' = txid
    · rw [he, Function.update_self] at hget
      exact absurd hget (by simp)
    · rw [Function.update_of_ne he] at hget
      exact ⟨he, hget⟩
  refine ⟨⟨hi.cells.fresh, ?_, hi.cells.known, hi.cells.wf, hi.cells.slot, ?_⟩, ?_, hi.taken⟩
  · exact fun txid' cell hget => hi.cells.map txid' cell (hsub txid' cell hget).2
  · intro hd cell txid' ho
    obtain ⟨huniq, hnone, hpend⟩ := hi.cells.exact hd cell txid' ho
    refine ⟨huniq, hnone, fun hget hempty hex => ?_⟩
    obtain ⟨hne, hget⟩ := hsub txid' cell hget
    obtain ⟨h, hp⟩ := hpend hget hempty hex
    exact ⟨h, (Function.update_of_ne hne _ _).trans hp⟩
  · intro o out ha ht
    obtain ⟨cell, hget⟩ := hi.present o out ha ht
    refine ⟨cell, (Function.update_of_ne ?_ _ _).trans hget⟩
    rintro rfl
    exact ht (hall o.vout (by rw [ha.named hb]; rfl))

/-- The removal of the next outpoint from its cell finds the output it names. -/
theorem CacheInv.exec_remove (hi : CacheInv rb CT chain g cache) {o : OutPoint} {cell : Nat}
    {out : TxOut} (ho : g.owner cell = some o.txid) (hout : namedOutput rb chain o = some out)
    (ht : ¬ g.taken o) : ∃ v, v.Wf ∧
      (∀ n, v.slot n = if n = o.vout.toNat then none else (cache.cells cell).slot n) ∧
      (mutexes tgt Out).exec (.remove cell o.vout.toNat) cache =
        (.ok (some (CT.into out), v.isEmpty),
          { cache with cells := Function.update cache.cells cell v }) := by
  obtain ⟨v, hrem, hv, hslot⟩ :=
    VecMap.remove_spec (hi.cells.wf cell o.txid ho) tgt o.vout.toNat
  have hfound : (cache.cells cell).slot o.vout.toNat = some (CT.into out) := by
    rcases hi.cells.slot cell o.txid o.vout.toNat ho with h | ⟨-, vout, hvout, htaken⟩
    · rw [h]
      exact congrArg _ hout
    · have : (⟨o.txid, vout⟩ : OutPoint) = o := by
        cases o
        cases UInt32.toNat_inj.mp hvout
        rfl
      exact absurd (this ▸ htaken) ht
  refine ⟨v, hv, hslot, ?_⟩
  dsimp only
  rw [hrem, hfound]

/-- A cell found empty after the removal has had all its outputs taken. -/
theorem CellsInv.all_taken (hi : CellsInv rb CT chain seen g cache) {cell : Nat} {txid : Txid}
    (ho : g.owner cell = some txid) (hempty : (cache.cells cell).isEmpty = true) (vout : UInt32)
    (hsome : (namedOutput rb chain ⟨txid, vout⟩).isSome = true) : g.taken ⟨txid, vout⟩ := by
  have hnone := (VecMap.isEmpty_iff (hi.wf cell txid ho)).mp hempty vout.toNat
  rcases hi.slot cell txid vout.toNat ho with h | ⟨-, vout', hvout, htaken⟩
  · rw [hnone] at h
    rw [namedOutput, Option.map_eq_none_iff.mp h.symm] at hsome
    exact absurd hsome (by simp)
  · rwa [UInt32.toNat_inj.mp hvout] at htaken

/-! ## At the end -/

/-- With every block connected and no key left to remove, the cache finds exactly the unspent
outputs, and keeps exactly the keys that have one. -/
theorem CacheInv.final (hi : CacheInv rb CT chain g cache)
    (hd : ((transactions chain).map rb.computeTxid).Nodup)
    (hout : ∀ tx ∈ transactions chain, tx.output ≠ [])
    (hw : ∀ h, h < chain.length → g.written h) (ht : ∀ o ∈ chainSpends chain, g.taken o)
    (hp : ∀ txid h, g.pending txid ≠ some h) :
    (∀ o, cache.lookup o = (unspentOutputs rb chain o).map CT.into) ∧
      ∀ txid, (cache.map txid).isSome = true ↔
        ∃ vout, (unspentOutputs rb chain ⟨txid, vout⟩).isSome = true := by
  have hb := txidBinds_of_nodup hd
  have hlookup : ∀ o, cache.lookup o = (unspentOutputs rb chain o).map CT.into := by
    intro o
    unfold Cache.lookup unspentOutputs eraseAll
    split
    · rename_i ho
      cases hget : cache.map o.txid with
      | none => rfl
      | some cell => exact (hi.cells.exact hd cell _ (hi.cells.map _ _ hget)).2.1 o.vout (ht o ho)
    · rename_i ho
      have hnt : ¬ g.taken o := fun hto => ho (hi.taken o hto).1
      cases hget : cache.map o.txid with
      | none =>
        cases hnamed : namedOutput rb chain o with
        | none => rfl
        | some out =>
          obtain ⟨blk, hblk, hcr⟩ := creates_of_namedOutput hnamed
          obtain ⟨h, hh⟩ := List.getElem?_of_mem hblk
          have hlt := (List.getElem?_eq_some_iff.mp hh).1
          obtain ⟨cell, hcell⟩ := hi.present o out ⟨h, blk, hw h hlt, hh, hcr⟩ hnt
          rw [hget] at hcell
          exact absurd hcell (by simp)
      | some cell =>
        rcases hi.cells.slot cell o.txid o.vout.toNat (hi.cells.map _ _ hget) with
          h | ⟨-, vout, hvout, htaken⟩
        · exact h
        · rw [UInt32.toNat_inj.mp hvout] at htaken
          exact absurd htaken hnt
  refine ⟨hlookup, fun txid => ⟨fun hsome => ?_, ?_⟩⟩
  · obtain ⟨cell, hget⟩ := Option.isSome_iff_exists.mp hsome
    have howner := hi.cells.map _ _ hget
    obtain ⟨-, tx, htx, hid⟩ := hi.cells.known cell txid howner
    have hfirst : ∃ n, (outputAt rb chain txid n).isSome = true := by
      refine ⟨0, ?_⟩
      rw [← hid, outputAt_eq hb htx, List.getElem?_eq_getElem
        (List.length_pos_iff.mpr (hout tx htx))]
      rfl
    -- the cell is not empty, or its key would still have to be removed
    have hempty : (cache.cells cell).isEmpty ≠ true := by
      intro hempty
      obtain ⟨h, hpend⟩ := (hi.cells.exact hd cell txid howner).2.2 hget hempty hfirst
      exact hp txid h hpend
    rw [ne_eq, VecMap.isEmpty_iff (hi.cells.wf cell txid howner), not_forall] at hempty
    obtain ⟨n, hn⟩ := hempty
    have hlt : n < 2 ^ 32 := by
      rcases hi.cells.slot cell txid n howner with h | ⟨h, -⟩
      · rw [h, Option.map_eq_none_iff] at hn
        exact outputAt_lt (Option.isSome_iff_ne_none.mpr hn)
      · exact absurd h hn
    refine ⟨UInt32.ofNat n, ?_⟩
    have := hlookup ⟨txid, UInt32.ofNat n⟩
    unfold Cache.lookup at this
    rw [hget, Option.bind_some, UInt32.toNat_ofNat_of_lt' hlt] at this
    rw [this, Option.map_eq_none_iff] at hn
    exact Option.isSome_iff_ne_none.mpr hn
  · rintro ⟨vout, hsome⟩
    have := hlookup ⟨txid, vout⟩
    obtain ⟨out, hout⟩ := Option.isSome_iff_exists.mp hsome
    rw [hout, Option.map_some] at this
    obtain ⟨cell, hget, -⟩ := Option.bind_eq_some_iff.mp this
    rw [hget]
    rfl

end InMem

end BitcoinExplorer
