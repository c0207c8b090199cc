import BitcoinExplorer.Iter.InMem
import BitcoinExplorer.Iter.OnDisk
import BitcoinExplorer.Lib.Schedules

/-!
# The two caches, block by block, on any list of blocks

Nothing is assumed of the blocks here, as the code checks nothing. Run height by height, both caches
follow a ledger: the database reads all outpoints of a block before it deletes any, so a block
connects when they are all there (`connectBatch`); the in-memory cache takes them one by one, so
they must also be distinct (`connectOnce`).

* `OnDisk.sequential_eq`, `InMem.sequential_eq`: each implementation emits what its ledger function
  says.
* **`caches_agree_iff`**: they emit the same blocks exactly when no block that is reached with all
  its outpoints there names one of them twice.
-/

namespace BitcoinExplorer

open Rust Conc SpendMap

variable {Blk Tx Out : Type}

/-- Connect block after block against a ledger; a block fails when one of its outpoints is
missing. -/
def connectBatch (CB : ConnectedBlock Blk Tx Out) (rb : RustBitcoin) :
    Ledger → List Block → List Blk
  | _, [] => []
  | m, block :: blocks =>
    let m := putAll m (block.creates rb)
    match CB.connectWith rb m block with
    | some b => b :: connectBatch CB rb (eraseAll m block.spends) blocks
    | none => []

/-- The same, where a block also fails when it names an outpoint twice. -/
def connectOnce (CB : ConnectedBlock Blk Tx Out) (rb : RustBitcoin) : Ledger → List Block → List Blk
  | _, [] => []
  | m, block :: blocks =>
    let m := putAll m (block.creates rb)
    if block.spends.Nodup then
      match CB.connectWith rb m block with
      | some b => b :: connectOnce CB rb (eraseAll m block.spends) blocks
      | none => []
    else []

/-- Each block up to the first with a missing outpoint, that one excluded, names its outpoints
once. -/
def NoRepeat (rb : RustBitcoin) : Ledger → List Block → Prop
  | _, [] => True
  | m, block :: blocks =>
    let m := putAll m (block.creates rb)
    (∀ o ∈ block.spends, (m o).isSome = true) →
      block.spends.Nodup ∧ NoRepeat rb (eraseAll m block.spends) blocks

instance decidableNoRepeat (rb : RustBitcoin) :
    ∀ (m : Ledger) (blocks : List Block), Decidable (NoRepeat rb m blocks)
  | _, [] => .isTrue trivial
  | m, block :: blocks =>
    have := decidableNoRepeat rb (eraseAll (putAll m (block.creates rb)) block.spends) blocks
    inferInstanceAs (Decidable ((∀ o ∈ block.spends, _) → _ ∧ _))

variable {CB : ConnectedBlock Blk Tx Out} {rb : RustBitcoin} {tgt : Target} {chain : List Block}
  {getBlock : Nat → Outcome Error Block}

/-- **The two ledger functions agree** exactly when no reached block repeats an outpoint. -/
theorem connectBatch_eq_iff : ∀ {blocks : List Block} {m : Ledger},
    connectBatch CB rb m blocks = connectOnce CB rb m blocks ↔ NoRepeat rb m blocks
  | [], m => by
    unfold connectBatch connectOnce NoRepeat
    exact iff_of_true rfl trivial
  | block :: blocks, m => by
    unfold connectBatch connectOnce NoRepeat
    dsimp only
    cases hb : CB.connectWith rb (putAll m (block.creates rb)) block with
    | none =>
      have hmiss : ¬ ∀ o ∈ block.spends, (putAll m (block.creates rb) o).isSome = true := by
        rw [← ConnectedBlock.connectWith_isSome, hb]
        exact Bool.false_ne_true
      refine iff_of_true ?_ fun hall => absurd hall hmiss
      exact (ite_self []).symm
    | some b =>
      have hall := ConnectedBlock.connectWith_isSome.mp (Option.isSome_iff_exists.mpr ⟨b, hb⟩)
      dsimp only
      constructor
      · intro heq _
        split at heq
        · rename_i hnd
          exact ⟨hnd, connectBatch_eq_iff.mp (List.cons.inj heq).2⟩
        · exact absurd heq (by simp)
      · intro hrep
        obtain ⟨hnd, hrest⟩ := hrep hall
        rw [if_pos hnd, connectBatch_eq_iff.mpr hrest]

/-! ## The on-disk implementation -/

namespace OnDisk

/-- Writing a block puts its outputs. -/
theorem readCache_putAll (hcodec : DecodesOutputs rb chain) {block : Block} (hblk : block ∈ chain)
    (db : rocksDB.State) :
    readCache rb tgt (putAll db (newOutputs rb tgt block)) =
      putAll (readCache rb tgt db) (block.creates rb) := by
  funext o
  unfold readCache
  rw [newOutputs_eq]
  refine putAll_map outpointKey_injective ?_ (fun _ => rfl) o
  rintro ⟨o', out⟩ he
  obtain ⟨tx, htx, -, hget⟩ := Block.mem_creates.mp he
  exact hcodec tx (mem_transactions.mpr ⟨block, hblk, htx⟩) out (List.mem_of_getElem? hget)

/-- Deleting the keys of a block erases its outpoints. -/
theorem readCache_eraseAll (block : Block) (db : rocksDB.State) :
    readCache rb tgt (eraseAll db (outpointKeys tgt block)) =
      eraseAll (readCache rb tgt db) block.spends := by
  funext o
  unfold readCache eraseAll
  simp only [outpointKeys_eq, List.mem_map_of_injective outpointKey_injective]
  split <;> rfl

/-- **The on-disk implementation, height by height**, emits what `connectBatch` says. -/
theorem sequential_eq (hcodec : DecodesOutputs rb chain) {endHeight : Nat} :
    ∀ {blocks : List Block} {h : Nat} {db : rocksDB.State}, (∀ block ∈ blocks, block ∈ chain) →
    (∀ i block, blocks[i]? = some block → getBlock (h + i) = .ok block) →
    (connectedBlockIter rb tgt CB getBlock endHeight).sequential blocks.length h db =
      connectBatch CB rb (readCache rb tgt db) blocks
  | [], _, _, _, _ => rfl
  | block :: blocks, h, db, hmem, hget => by
    have hblk := hmem block List.mem_cons_self
    have h1 : (updateUnspentCache rb tgt getBlock h).run db = _ :=
      updateUnspentCache_run (hget 0 block rfl) db
    have h2 : (connectOutpoints rb tgt CB block).run (putAll db (newOutputs rb tgt block)) = _ :=
      connectOutpoints_run CB block _
    rw [readCache_putAll hcodec hblk] at h2
    unfold connectBatch
    dsimp only
    cases hb : CB.connectWith rb (putAll (readCache rb tgt db) (block.creates rb)) block with
    | none =>
      rw [hb] at h2
      exact Pipeline.sequential_of_failed (P := connectedBlockIter rb tgt CB getBlock endHeight)
        h1 h2 rfl
    | some b =>
      rw [hb] at h2
      refine (Pipeline.sequential_of_ok (P := connectedBlockIter rb tgt CB getBlock endHeight)
        h1 h2).trans ?_
      rw [sequential_eq hcodec (fun b' hb' => hmem b' (List.mem_cons_of_mem _ hb'))
        (fun i b' hi => by rw [Nat.add_assoc, Nat.add_comm 1 i]; exact hget (i + 1) b' hi),
        readCache_eraseAll, readCache_putAll hcodec hblk]

end OnDisk

/-! ## The in-memory implementation -/

namespace InMem

theorem createdBy_putAll : ∀ {txs : List Transaction} {m : Ledger}, CreatedBy rb chain m →
    (∀ tx ∈ txs, tx ∈ transactions chain) → CreatedBy rb chain (putAll m (txs.flatMap (creates rb)))
  | [], _, hm, _ => hm
  | tx :: txs, m, hm, hmem => by
    rw [List.flatMap_cons, putAll_append]
    exact createdBy_putAll (hm.put (hmem tx List.mem_cons_self))
      fun tx' ht' => hmem tx' (List.mem_cons_of_mem _ ht')

theorem createdBy_eraseAll {m : Ledger} (hm : CreatedBy rb chain m) (os : List OutPoint) :
    CreatedBy rb chain (eraseAll m os) := by
  intro o out hget
  unfold eraseAll at hget
  split at hget
  · exact absurd hget (by simp)
  · exact hm o out hget

/-- **The in-memory implementation, height by height**, emits what `connectOnce` says. -/
theorem sequential_eq (hb : TxidBinds rb chain) {endHeight : Nat} :
    ∀ {blocks : List Block} {h : Nat} {m : Ledger} {cache : Cache Out}, Holds CB.tx m cache →
    CreatedBy rb chain m → (∀ block ∈ blocks, block ∈ chain) →
    (∀ i block, blocks[i]? = some block → getBlock (h + i) = .ok block) →
    (connectedBlockIter rb tgt CB getBlock endHeight).sequential blocks.length h cache =
      connectOnce CB rb m blocks
  | [], _, _, _, _, _, _, _ => rfl
  | block :: blocks, h, m, cache, hholds, hm, hmem, hget => by
    have hblk := hmem block List.mem_cons_self
    obtain ⟨cache₁, h1, hholds₁⟩ :=
      updateUnspentCache_run hb (hget 0 block rfl) hblk hholds hm
    have hm₁ : CreatedBy rb chain (putAll m (block.creates rb)) :=
      createdBy_putAll hm fun tx htx => mem_transactions.mpr ⟨block, hblk, htx⟩
    obtain ⟨hok, herr⟩ := connectOutpoints_run hholds₁ block
    unfold connectOnce
    dsimp only
    by_cases hnd : block.spends.Nodup
    · rw [if_pos hnd]
      cases hc : CB.connectWith rb (putAll m (block.creates rb)) block with
      | none =>
        obtain ⟨cache₂, h2⟩ := herr (Or.inr hc)
        exact Pipeline.sequential_of_failed (P := connectedBlockIter rb tgt CB getBlock endHeight)
          h1 h2 rfl
      | some b =>
        obtain ⟨cache₂, h2, hholds₂⟩ := hok hnd b hc
        refine (Pipeline.sequential_of_ok (P := connectedBlockIter rb tgt CB getBlock endHeight)
          h1 h2).trans ?_
        rw [sequential_eq hb hholds₂ (createdBy_eraseAll hm₁ _)
          (fun b' hb' => hmem b' (List.mem_cons_of_mem _ hb'))
          (fun i b' hi => by rw [Nat.add_assoc, Nat.add_comm 1 i]; exact hget (i + 1) b' hi)]
    · rw [if_neg hnd]
      obtain ⟨cache₂, h2⟩ := herr (Or.inl hnd)
      exact Pipeline.sequential_of_failed (P := connectedBlockIter rb tgt CB getBlock endHeight)
        h1 h2 rfl

end InMem

/-- **The two caches emit the same blocks exactly when no reached block repeats an outpoint.** For
every list of blocks, processed height by height from an empty cache up to the first failure. -/
theorem caches_agree_iff (rb : RustBitcoin) (tgt : Target) (CB : ConnectedBlock Blk Tx Out)
    (getBlock : Nat → Outcome Error Block) (blocks : List Block)
    (hget : ∀ h block, blocks[h]? = some block → getBlock h = .ok block)
    (hcodec : OnDisk.DecodesOutputs rb blocks) (hb : TxidBinds rb blocks) :
    (OnDisk.connectedBlockIter rb tgt CB getBlock blocks.length).sequential blocks.length 0
        OnDisk.emptyCache =
      (InMem.connectedBlockIter rb tgt CB getBlock blocks.length).sequential blocks.length 0
        InMem.emptyCache ↔
      NoRepeat rb (fun _ => none) blocks := by
  have hget' : ∀ i block, blocks[i]? = some block → getBlock (0 + i) = .ok block := by
    intro i block hi
    rw [Nat.zero_add]
    exact hget i block hi
  rw [OnDisk.sequential_eq hcodec (fun _ h => h) hget',
    InMem.sequential_eq hb (InMem.holds_emptyCache CB.tx) (fun _ _ h => absurd h (by simp))
      (fun _ h => h) hget']
  exact connectBatch_eq_iff

/-- The two caches agree on the sample chain. -/
theorem caches_agree_sampleChain :
    (OnDisk.connectedBlockIter sampleBitcoin ⟨true, true⟩ (fullConnectedBlock sampleBitcoin)
        (getBlockFrom sampleChain) 2).sequential 2 0 OnDisk.emptyCache =
      (InMem.connectedBlockIter sampleBitcoin ⟨true, true⟩ (fullConnectedBlock sampleBitcoin)
        (getBlockFrom sampleChain) 2).sequential 2 0 InMem.emptyCache := by
  have hcodec : OnDisk.DecodesOutputs sampleBitcoin sampleChain := by
    unfold OnDisk.DecodesOutputs
    decide
  exact (caches_agree_iff sampleBitcoin ⟨true, true⟩ _ _ sampleChain getBlockFrom_eq hcodec
    (txidBinds_of_nodup sampleChain_valid.txids)).mpr (by decide)

/-- A coinbase, and a block whose one transaction names its output twice. -/
def repeatedOutPoint : List Block :=
  [⟨sampleHeader 0, [sampleCoinbase]⟩,
    ⟨sampleHeader 1, [sampleSpend [sampleOutPoint, sampleOutPoint] 100]⟩]

/-- On a block that names an unspent outpoint twice the two caches differ: the database emits it
with the output twice, the in-memory cache stops. -/
theorem caches_differ_on_repeatedOutPoint :
    ((OnDisk.connectedBlockIter sampleBitcoin ⟨true, true⟩ (fullConnectedBlock sampleBitcoin)
        (getBlockFrom repeatedOutPoint) 2).sequential 2 0 OnDisk.emptyCache).length = 2 ∧
      ((InMem.connectedBlockIter sampleBitcoin ⟨true, true⟩ (fullConnectedBlock sampleBitcoin)
        (getBlockFrom repeatedOutPoint) 2).sequential 2 0 InMem.emptyCache).length = 1 := by
  have hcodec : OnDisk.DecodesOutputs sampleBitcoin repeatedOutPoint := by
    unfold OnDisk.DecodesOutputs
    decide
  have hbinds : TxidBinds sampleBitcoin repeatedOutPoint := by
    unfold TxidBinds
    decide
  have hget : ∀ i block, repeatedOutPoint[i]? = some block →
      getBlockFrom repeatedOutPoint (0 + i) = .ok block := by
    intro i block hi
    rw [Nat.zero_add]
    exact getBlockFrom_eq i block hi
  constructor
  · refine (congrArg List.length (OnDisk.sequential_eq hcodec (fun _ h => h) hget)).trans ?_
    decide
  · refine (congrArg List.length (InMem.sequential_eq hbinds (InMem.holds_emptyCache _)
      (fun _ _ h => absurd h (by simp)) (fun _ h => h) hget)).trans ?_
    decide

end BitcoinExplorer
