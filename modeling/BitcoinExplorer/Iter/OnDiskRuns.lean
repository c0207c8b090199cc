import BitcoinExplorer.Iter.OnDisk
import BitcoinExplorer.Lib.Delivery

/-!
# The on-disk cache under every schedule

On a `Connectable` chain the database always holds the outputs written so far, less those taken
(`CacheInv`), whatever the interleaving of batch writes, reads and deletes: no outpoint of a block
is deleted before the block reads it, since no other block spends it. Where a txid is repeated, an
output that was taken may be written again; with distinct txids nothing taken is there. The
invariant and what each task has still to do are the proof outline `outline`.

* `delivers_of_connectable`: every schedule delivers the expected blocks of a `Connectable` chain.

* **`onDisk_iterator_delivers`**: every schedule of the iterator delivers the expected blocks of a
  valid chain, and with the last one the database holds exactly the unspent outputs.
-/

namespace BitcoinExplorer

open Rust Conc SpendMap

namespace OnDisk

/-- The database holds, encoded, the written outputs that were not taken, and with distinct txids
no others; what was taken is spent and was written. -/
structure CacheInv (rb : RustBitcoin) (tgt : Target) (chain : List Block) (g : Progress)
    (db : rocksDB.State) : Prop where
  present : ∀ o out, g.Available rb chain o out → ¬ g.taken o →
    db (outpointKey tgt o) = some (rb.encodeTxOut out)
  only : ∀ key value, db key = some value →
    ∃ o out, g.Available rb chain o out ∧
      (((transactions chain).map rb.computeTxid).Nodup → ¬ g.taken o) ∧
      key = outpointKey tgt o ∧ value = rb.encodeTxOut out
  taken : ∀ o, g.taken o → o ∈ chainSpends chain ∧ ∃ out, g.Available rb chain o out

variable {rb : RustBitcoin} {tgt : Target} {chain : List Block} {g : Progress} {db : rocksDB.State}

theorem CacheInv.start : CacheInv rb tgt chain Progress.start emptyCache where
  present _ _ h := by
    obtain ⟨_, _, hw, _⟩ := h
    exact hw.elim
  only _ _ h := absurd h (by simp [emptyCache])
  taken _ h := h.elim

/-- A key of the batch of a block has the value of the one output under it. -/
theorem putAll_newOutputs (hb : TxidBinds rb chain) {blk : Block} (hblk : blk ∈ chain)
    {o : OutPoint} {out : TxOut} (ho : (o, out) ∈ blk.creates rb) (db : rocksDB.State) :
    putAll db (newOutputs rb tgt blk) (outpointKey tgt o) = some (rb.encodeTxOut out) := by
  rw [newOutputs_eq]
  have hput := List.mem_map_of_mem (f := fun e => (outpointKey tgt e.1, rb.encodeTxOut e.2)) ho
  refine putAll_of_mem hput (fun value hvalue => ?_) db
  obtain ⟨⟨o', out'⟩, ho', he⟩ := List.mem_map.mp hvalue
  obtain ⟨hkey, rfl⟩ := Prod.mk.inj he
  obtain rfl := outpointKey_injective hkey
  rw [Option.some.inj ((namedOutput_of_creates hb hblk ho').symm.trans
    (namedOutput_of_creates hb hblk ho))]

/-- The batch write of a height not yet written. -/
theorem CacheInv.write (hb : TxidBinds rb chain) (hi : CacheInv rb tgt chain g db) {h : Nat}
    {blk : Block} (hblk : chain[h]? = some blk) (hw : ¬ g.written h) :
    CacheInv rb tgt chain (g.write h) (putAll db (newOutputs rb tgt blk)) := by
  have hmem := List.mem_of_getElem? hblk
  have hfresh : ∀ {o out}, (o, out) ∈ blk.creates rb →
      ((transactions chain).map rb.computeTxid).Nodup → ¬ g.taken o := by
    intro o out ho hd ht
    obtain ⟨-, out', hout'⟩ := hi.taken o ht
    exact Progress.not_available hd hblk hw ho hout'
  have hold : ∀ {key}, (∀ value, (key, value) ∉ newOutputs rb tgt blk) →
      putAll db (newOutputs rb tgt blk) key = db key := fun hk => putAll_of_not_mem hk db
  constructor
  · intro o out ha ht
    by_cases hnew : ∃ out', (o, out') ∈ blk.creates rb
    · -- written before or not, it is the output under the outpoint
      obtain ⟨out', ho⟩ := hnew
      have hnamed := namedOutput_of_creates hb hmem ho
      rw [putAll_newOutputs hb hmem ho db, Option.some.inj (hnamed.symm.trans (ha.named hb))]
    · have ha := ((Progress.available_write hblk).mp ha).resolve_right fun ho => hnew ⟨out, ho⟩
      rw [hold fun value hvalue => ?_]
      · exact hi.present o out ha ht
      · rw [newOutputs_eq] at hvalue
        obtain ⟨⟨o', out'⟩, ho', he⟩ := List.mem_map.mp hvalue
        obtain rfl := outpointKey_injective (Prod.mk.inj he).1
        exact hnew ⟨out', ho'⟩
  · intro key value hget
    by_cases hk : ∃ value', (key, value') ∈ newOutputs rb tgt blk
    · obtain ⟨value', hvalue'⟩ := hk
      rw [newOutputs_eq] at hvalue'
      obtain ⟨⟨o, out⟩, ho, he⟩ := List.mem_map.mp hvalue'
      obtain ⟨rfl, rfl⟩ := Prod.mk.inj he
      rw [putAll_newOutputs hb hmem ho] at hget
      exact ⟨o, out, (Progress.available_write hblk).mpr (Or.inr ho), hfresh ho, rfl,
        (Option.some.inj hget).symm⟩
    · rw [hold fun value' hvalue' => hk ⟨value', hvalue'⟩] at hget
      obtain ⟨o, out, ha, hrest⟩ := hi.only key value hget
      exact ⟨o, out, (Progress.available_write hblk).mpr (Or.inl ha), hrest⟩
  · intro o ht
    obtain ⟨hs, out, ha⟩ := hi.taken o ht
    exact ⟨hs, out, (Progress.available_write hblk).mpr (Or.inl ha)⟩

/-- The deletion of the key of an outpoint whose block may read. -/
theorem CacheInv.delete (hi : CacheInv rb tgt chain g db) {o : OutPoint}
    (hs : o ∈ chainSpends chain) (ha : ∃ out, g.Available rb chain o out) :
    CacheInv rb tgt chain (g.take o) (Function.update db (outpointKey tgt o) none) := by
  constructor
  · intro o' out' ha' ht'
    obtain ⟨ht', hne⟩ := not_or.mp ht'
    rw [Function.update_of_ne fun he => hne (outpointKey_injective he)]
    exact hi.present o' out' ha' ht'
  · intro key value hget
    by_cases hk : key = outpointKey tgt o
    · rw [hk, Function.update_self] at hget
      exact absurd hget (by simp)
    · rw [Function.update_of_ne hk] at hget
      obtain ⟨o', out', ha', ht', rfl, hrest⟩ := hi.only key value hget
      refine ⟨o', out', ha', fun hd => ?_, rfl, hrest⟩
      rintro (ht | rfl)
      · exact ht' hd ht
      · exact hk rfl
  · rintro o' (ht | rfl)
    · exact hi.taken o' ht
    · exact ⟨hs, ha⟩

/-- A block whose outpoints are available and not taken reads the outputs they name. -/
theorem CacheInv.read (hb : TxidBinds rb chain) (hcodec : DecodesOutputs rb chain)
    (hi : CacheInv rb tgt chain g db) {o : OutPoint} {out : TxOut}
    (ha : g.Available rb chain o out) (ht : ¬ g.taken o) :
    readCache rb tgt db o = namedOutput rb chain o := by
  unfold readCache
  rw [hi.present o out ha ht, Option.bind_some, ha.named hb]
  obtain ⟨j, blk, -, hblk, ho⟩ := ha
  obtain ⟨tx, htx, -, hget⟩ := Block.mem_creates.mp ho
  exact hcodec tx (mem_transactions.mpr ⟨blk, List.mem_of_getElem? hblk, htx⟩) out
    (List.mem_of_getElem? hget)

/-! ## What each task has still to do -/

section Tasks

variable (rb tgt chain) {Blk Tx Out : Type} (CB : ConnectedBlock Blk Tx Out)

/-- Stage 1 of a height: still to write, or written. -/
def Writing (g : Progress) (h : Nat) (p : Prog rocksDB (Outcome Unit Block)) : Prop :=
  ∀ blk, chain[h]? = some blk →
    (¬ g.written h ∧ p = .op (.write (newOutputs rb tgt blk)) fun
      | .ok _ => .ret (.ok blk)
      | .error _ => .ret (.err ())) ∨
    (g.written h ∧ p = .ret (.ok blk))

/-- The deletions left to do, with the connected block in hand. -/
def deleting (os : List OutPoint) (b : Blk) : Prog rocksDB (Outcome Unit Blk) :=
  (deleteKeys (os.map (outpointKey tgt))).andThen fun _ => .ret (.ok b)

/-- Stage 2 of a height: not begun, or the expected block is in hand and the keys of some of its
outpoints are deleted. What is left to read or delete was not taken. -/
def Connecting (g : Progress) (h : Nat) : Option (Prog rocksDB (Outcome Unit Blk)) → Prop
  | none => ∀ blk, chain[h]? = some blk → ∀ o ∈ blk.spends, ¬ g.taken o
  | some p => ∃ blk b done rest, chain[h]? = some blk ∧ expectedBlock CB rb chain h = some b ∧
      (∀ j ≤ h, g.written j) ∧ blk.spends = done ++ rest ∧ (∀ o ∈ done, g.taken o) ∧
      (∀ o ∈ rest, ¬ g.taken o) ∧
      (p = deleting tgt rest b ∨ (done = [] ∧ p = connectOutpoints rb tgt CB blk))

end Tasks

section Outline

variable {Blk Tx Out : Type} {CB : ConnectedBlock Blk Tx Out}

/-- Taking an outpoint of one block leaves the stage-2 tasks of the others as they are. -/
theorem Connecting.take_of_ne (hc : (chainSpends chain).Nodup) {h j : Nat} (hne : j ≠ h)
    {blk : Block} (hblk : chain[h]? = some blk) {o : OutPoint} (ho : o ∈ blk.spends)
    {p : Option (Prog rocksDB (Outcome Unit Blk))}
    (hp : Connecting rb tgt chain CB g j p) : Connecting rb tgt chain CB (g.take o) j p := by
  cases p with
  | none =>
    rintro blk' hblk' o' ho' (ht | rfl)
    · exact hp blk' hblk' o' ho' ht
    · exact spends_disjoint hc hne hblk' hblk ho' ho
  | some p =>
    obtain ⟨blk', b, done, rest, hblk', hb, hw, hsplit, hdone, hrest, hp⟩ := hp
    refine ⟨blk', b, done, rest, hblk', hb, hw, hsplit, fun o' ho' => Or.inl (hdone o' ho'), ?_, hp⟩
    rintro o' ho' (ht | rfl)
    · exact hrest o' ho' ht
    · have : o' ∈ blk'.spends := hsplit ▸ List.mem_append_right _ ho'
      exact spends_disjoint hc hne hblk' hblk this ho

theorem Connecting.write {h j : Nat} {p : Option (Prog rocksDB (Outcome Unit Blk))}
    (hp : Connecting rb tgt chain CB g j p) : Connecting rb tgt chain CB (g.write h) j p := by
  cases p with
  | none => exact hp
  | some p =>
    obtain ⟨blk', b, done, rest, hblk', hb, hw, hrest⟩ := hp
    exact ⟨blk', b, done, rest, hblk', hb, fun i hi => Or.inl (hw i hi), hrest⟩

/-- **The proof outline of the on-disk iterator** on a connectable chain. -/
def outline (tgt : Target) (CB : ConnectedBlock Blk Tx Out)
    (getBlock : Nat → Outcome Error Block) (hcodec : DecodesOutputs rb chain)
    (hc : Connectable rb chain) :
    Outline (connectedBlockIter rb tgt CB getBlock chain.length) Progress where
  shared := CacheInv rb tgt chain
  task1 := Writing rb tgt chain
  task2 := Connecting rb tgt chain CB
  step1 := by
    intro g db h o k hlt hi hp
    have hblk : chain[h]? = some chain[h] := List.getElem?_eq_getElem hlt
    rcases hp _ hblk with ⟨hw, he⟩ | ⟨-, he⟩
    · cases he
      refine ⟨g.write h, hi.write hc.binds hblk hw, ?_, ?_, fun j p hp => hp.write⟩
      · intro blk' hblk'
        obtain rfl := Option.some.inj (hblk.symm.trans hblk')
        exact Or.inr ⟨Or.inr rfl, rfl⟩
      · intro j p hne hp blk' hblk'
        rcases hp blk' hblk' with ⟨hw', he'⟩ | ⟨hw', he'⟩
        · exact Or.inl ⟨fun hj => hj.elim hw' hne, he'⟩
        · exact Or.inr ⟨Or.inl hw', he'⟩
    · cases he
  hand := by
    intro g h b hlt hall hp hn
    have hblk : chain[h]? = some chain[h] := List.getElem?_eq_getElem hlt
    obtain ⟨b', hb', -⟩ := hc.expectedBlock_eq CB hblk
    have hwritten : ∀ j ≤ h, g.written j := by
      intro j hj
      obtain ⟨blk', hblk'⟩ := hall j hj
      rcases hblk' _ (List.getElem?_eq_getElem (lt_of_le_of_lt hj hlt)) with ⟨-, he⟩ | ⟨hw, -⟩
      · cases he
      · exact hw
    rcases hp _ hblk with ⟨-, he⟩ | ⟨-, he⟩
    · cases he
    · cases he
      exact ⟨_, b', [], _, hblk, hb', hwritten, rfl, fun _ ho => absurd ho List.not_mem_nil,
        hn _ hblk, Or.inr ⟨rfl, rfl⟩⟩
  step2 := by
    intro g db h o k hi hp
    obtain ⟨blk, b, done, rest, hblk, hb, hw, hsplit, hdone, hrest, he | ⟨rfl, he⟩⟩ := hp
    · -- one more key is deleted
      cases rest with
      | nil => cases he
      | cons o' rest =>
        cases he
        have hsp : o' ∈ blk.spends := hsplit ▸ List.mem_append_right _ List.mem_cons_self
        refine ⟨g.take o', hi.delete (mem_chainSpends.mpr ⟨h, blk, hblk, hsp⟩)
          (Progress.available_of_spends hc hblk hw hsp), ?_, fun j p hp => hp,
          fun j p hne hp => hp.take_of_ne hc.spentOnce hne hblk hsp⟩
        have hnd := spends_nodup hc.spentOnce hblk
        rw [hsplit] at hnd
        refine ⟨blk, b, done ++ [o'], rest, hblk, hb, hw, by simp [hsplit], ?_, ?_, Or.inl rfl⟩
        · intro o ho
          rcases List.mem_append.mp ho with ho | ho
          · exact Or.inl (hdone o ho)
          · exact Or.inr (List.mem_singleton.mp ho)
        · rintro o ho (ht | rfl)
          · exact hrest o (List.mem_cons_of_mem _ ho) ht
          · exact (List.nodup_cons.mp (List.nodup_append.mp hnd).2.1).1 ho
    · -- the block is read: its outpoints are all there
      cases he
      rw [List.nil_append] at hsplit
      subst hsplit
      refine ⟨g, hi, ?_, fun j p hp => hp, fun j p _ hp => hp⟩
      have hread : CB.connectWith rb (readCache rb tgt db) blk = some b := by
        obtain ⟨b', hb', hconnect⟩ := hc.expectedBlock_eq CB hblk
        obtain rfl := Option.some.inj (hb.symm.trans hb')
        rw [← hconnect]
        refine ConnectedBlock.connectWith_congr fun o ho => ?_
        obtain ⟨out, ha⟩ := Progress.available_of_spends hc hblk hw ho
        exact hi.read hc.binds hcodec ha (hrest o ho)
      refine ⟨blk, b, [], blk.spends, hblk, hb, hw, rfl, hdone, hrest, Or.inl ?_⟩
      unfold deleting
      rw [← outpointKeys_eq]
      refine congrArg _ (funext fun _ => ?_)
      rw [txLoop_multiGet, hread]
      rfl

variable {getBlock : Nat → Outcome Error Block}

theorem outline_init (hcodec : DecodesOutputs rb chain) (hc : Connectable rb chain)
    (hget : ∀ h blk, chain[h]? = some blk → getBlock h = .ok blk) :
    (outline tgt CB getBlock hcodec hc).Holds Progress.start
      ((connectedBlockIter rb tgt CB getBlock chain.length).init emptyCache) where
  shared := .start
  task1 h _ blk hblk := by
    refine Or.inl ⟨id, ?_⟩
    change updateUnspentCache rb tgt getBlock h = _
    unfold updateUnspentCache
    rw [hget h blk hblk]
    rfl
  task2 _ _ _ _ _ := id

/-- A connecting task that has returned has the expected block. -/
theorem Connecting.ret {h : Nat} {r : Outcome Unit Blk}
    (hp : Connecting rb tgt chain CB g h (some (.ret r))) :
    ∃ blk b, chain[h]? = some blk ∧ expectedBlock CB rb chain h = some b ∧ r = .ok b ∧
      ∀ o ∈ blk.spends, g.taken o := by
  obtain ⟨blk, b, done, rest, hblk, hb, -, hsplit, hdone, -, he | ⟨-, he⟩⟩ := hp
  · cases rest with
    | nil =>
      cases he
      rw [List.append_nil] at hsplit
      exact ⟨blk, b, hblk, hb, rfl, hsplit ▸ hdone⟩
    | cons o rest => cases he
  · cases he

theorem outline_succeeds {hcodec : DecodesOutputs rb chain} {hc : Connectable rb chain} :
    (outline tgt CB getBlock hcodec hc).Succeeds (expectedBlock CB rb chain) where
  ok1 := by
    intro g h r hlt hp
    rcases hp _ (List.getElem?_eq_getElem hlt) with ⟨-, he⟩ | ⟨-, he⟩
    · cases he
    · cases he
      rfl
  ok2 := by
    intro g h r hp
    obtain ⟨-, b, -, hb, hr, -⟩ := Connecting.ret hp
    exact ⟨b, hb, hr⟩

/-- **Every schedule delivers the blocks of a connectable chain**, where txids may repeat. -/
theorem delivers_of_connectable (hcodec : DecodesOutputs rb chain) (hc : Connectable rb chain)
    (hget : ∀ h blk, chain[h]? = some blk → getBlock h = .ok blk)
    {s : Config rocksDB Unit Block Blk}
    (hr : (connectedBlockIter rb tgt CB getBlock chain.length).Reachable emptyCache s) :
    (connectedBlockIter rb tgt CB getBlock chain.length).Delivers
      (expectedBlock CB rb chain) s := by
  obtain ⟨g, hg⟩ := Outline.sound (outline_init hcodec hc hget) hr
  exact outline_succeeds.delivers hr hg

/-- With every block connected and distinct txids, the database holds exactly the unspent
outputs. -/
theorem CacheInv.final (hd : ((transactions chain).map rb.computeTxid).Nodup)
    (hi : CacheInv rb tgt chain g db)
    (hw : ∀ h, h < chain.length → g.written h) (ht : ∀ o ∈ chainSpends chain, g.taken o)
    (key value : List UInt8) :
    db key = some value ↔ ∃ o out, key = outpointKey tgt o ∧ value = rb.encodeTxOut out ∧
      unspentOutputs rb chain o = some out := by
  have hunspent : ∀ o out, unspentOutputs rb chain o = some out ↔
      g.Available rb chain o out ∧ ¬ g.taken o := by
    intro o out
    simp only [unspentOutputs, eraseAll, Option.ite_none_left_eq_some]
    constructor
    · rintro ⟨ho, hnamed⟩
      obtain ⟨blk, hblk, hcr⟩ := creates_of_namedOutput hnamed
      obtain ⟨h, hh⟩ := List.getElem?_of_mem hblk
      have hlt := (List.getElem?_eq_some_iff.mp hh).1
      exact ⟨⟨h, blk, hw h hlt, hh, hcr⟩, fun hto => ho (hi.taken o hto).1⟩
    · rintro ⟨ha, hnt⟩
      exact ⟨fun ho => hnt (ht o ho), ha.named (txidBinds_of_nodup hd)⟩
  constructor
  · intro h
    obtain ⟨o, out, ha, hnt, hk, hval⟩ := hi.only key value h
    exact ⟨o, out, hk, hval, (hunspent o out).mpr ⟨ha, hnt hd⟩⟩
  · rintro ⟨o, out, rfl, rfl, hu⟩
    obtain ⟨ha, hnt⟩ := (hunspent o out).mp hu
    exact hi.present o out ha hnt

/-- **The on-disk iterator is correct under every schedule.** On a valid chain, whatever the
interleaving of the two stages: no task fails, the blocks come out in order with every input
replaced by the output it names, no schedule gets stuck or goes on forever before the last block,
and when it is out the database holds exactly the unspent outputs of the chain. -/
theorem onDisk_iterator_delivers (rb : RustBitcoin) (tgt : Target) (CB : ConnectedBlock Blk Tx Out)
    (getBlock : Nat → Outcome Error Block) (chain : List Block)
    (hget : ∀ h blk, chain[h]? = some blk → getBlock h = .ok blk)
    (hcodec : DecodesOutputs rb chain) (hv : ValidChain rb chain)
    {s : Config rocksDB Unit Block Blk}
    (hr : (connectedBlockIter rb tgt CB getBlock chain.length).Reachable emptyCache s) :
    (connectedBlockIter rb tgt CB getBlock chain.length).Delivers (expectedBlock CB rb chain) s ∧
      (s.emitted.length = chain.length → ∀ key value, s.shared key = some value ↔
        ∃ o out, key = outpointKey tgt o ∧ value = rb.encodeTxOut out ∧
          unspentOutputs rb chain o = some out) := by
  refine ⟨delivers_of_connectable hcodec hv.connectable hget hr, fun hl => ?_⟩
  obtain ⟨g, hg⟩ := Outline.sound (outline_init hcodec hv.connectable hget) hr
  refine CacheInv.final hv.txids hg.shared (fun h hlt => ?_) fun o ho => ?_
  · obtain ⟨⟨blk, hblk⟩, -⟩ := Outline.all_done hr.wf hg hl hlt
    rcases hblk _ (List.getElem?_eq_getElem hlt) with ⟨-, he⟩ | ⟨hw, -⟩
    · cases he
    · exact hw
  · obtain ⟨h, blk, hblk, ho⟩ := mem_chainSpends.mp ho
    obtain ⟨-, c, hc⟩ := Outline.all_done hr.wf hg hl (List.getElem?_eq_some_iff.mp hblk).1
    obtain ⟨blk', -, hblk', -, -, htaken⟩ := Connecting.ret hc
    obtain rfl := Option.some.inj (hblk.symm.trans hblk')
    exact htaken o ho

/-- The sequential run over the sample chain. -/
theorem sampleChain_onDisk :
    ∃ s, (connectedBlockIter sampleBitcoin ⟨true, true⟩ (fullConnectedBlock sampleBitcoin)
        (getBlockFrom sampleChain) 2).Reachable emptyCache s ∧
      Pipeline.Complete (connectedBlockIter sampleBitcoin ⟨true, true⟩
        (fullConnectedBlock sampleBitcoin) (getBlockFrom sampleChain) 2) s ∧
      s.emitted.map some = (List.range s.emitted.length).map
        (expectedBlock (fullConnectedBlock sampleBitcoin) sampleBitcoin sampleChain) := by
  obtain ⟨s, hr, hC, -⟩ := Pipeline.sequential_run (connectedBlockIter sampleBitcoin ⟨true, true⟩
    (fullConnectedBlock sampleBitcoin) (getBlockFrom sampleChain) 2) emptyCache
  have hcodec : DecodesOutputs sampleBitcoin sampleChain := by
    unfold DecodesOutputs
    decide
  exact ⟨s, hr, hC, (onDisk_iterator_delivers sampleBitcoin ⟨true, true⟩ _ _ sampleChain
    getBlockFrom_eq hcodec sampleChain_valid hr).1.emitted⟩

end Outline

end OnDisk

end BitcoinExplorer
