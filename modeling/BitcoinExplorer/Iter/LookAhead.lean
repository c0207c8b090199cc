import BitcoinExplorer.Iter.Agreement
import BitcoinExplorer.Iter.InMemRuns

/-!
# Stage-1 look-ahead and repeated txids

`Bip30` chains may repeat a txid once all outputs of its earlier occurrence are spent. The strictly
sequential schedule respects that order; a schedule in which stage 1 runs ahead inserts the later
occurrence while the earlier one is still being spent, and `extend` replaces its entry. That does no
harm as long as each outpoint is spent by one input of the chain, and it does when an outpoint is
spent once under either occurrence.

* **`lookAhead_harmless`**: with each outpoint spent once, every schedule emits what the sequential
  one does; on chains the sequential schedule connects in full, only then.
* **`lookAhead_changes_output`**: two complete runs over one `Bip30` chain that emit different
  blocks.
-/

namespace BitcoinExplorer

open Rust Conc SpendMap

variable {Blk Tx Out : Type} {CB : ConnectedBlock Blk Tx Out} {rb : RustBitcoin} {tgt : Target}
  {chain : List Block} {getBlock : Nat → Outcome Error Block}

/-- Each transaction spends outputs that are unspent when its turn comes, once each, and creates its
own where no output of an earlier occurrence of its txid is left. -/
def Bip30 (rb : RustBitcoin) : Ledger → List Transaction → Prop
  | _, [] => True
  | m, tx :: txs =>
    match takeAll m (spends tx.input) with
    | none => False
    | some (_, m') =>
      (∀ e ∈ creates rb tx, m' e.1 = none) ∧ Bip30 rb (putAll m' (creates rb tx)) txs

instance decidableBip30 (rb : RustBitcoin) :
    ∀ (m : Ledger) (txs : List Transaction), Decidable (Bip30 rb m txs)
  | _, [] => .isTrue trivial
  | m, tx :: txs => by
    unfold Bip30
    exact match takeAll m (spends tx.input) with
      | none => .isFalse id
      | some (_, m') =>
        have := decidableBip30 rb (putAll m' (creates rb tx)) txs
        inferInstanceAs (Decidable (_ ∧ _))

/-- Inputs of a `Bip30` chain name outputs that were there at the start or that an earlier
transaction created. -/
theorem Bip30.inputs : ∀ {pre : List Transaction} {m : Ledger} {tx : Transaction}
    {post : List Transaction}, Bip30 rb m (pre ++ tx :: post) → ∀ o ∈ spends tx.input,
    (m o).isSome = true ∨ ∃ tx' ∈ pre, ∃ out, (o, out) ∈ creates rb tx'
  | [], m, tx, post, h, o, ho => by
    rw [List.nil_append, Bip30] at h
    split at h
    · exact h.elim
    · rename_i vs m' htake
      obtain ⟨-, hmap, -⟩ := takeAll_eq_some.mp htake
      have : m o ∈ vs.map some := hmap ▸ List.mem_map_of_mem ho
      obtain ⟨v, -, hv⟩ := List.mem_map.mp this
      exact Or.inl (by rw [← hv]; rfl)
  | tx₀ :: pre, m, tx, post, h, o, ho => by
    rw [List.cons_append, Bip30] at h
    split at h
    · exact h.elim
    · rename_i vs m' htake
      obtain ⟨-, -, rfl⟩ := takeAll_eq_some.mp htake
      rcases Bip30.inputs h.2 o ho with hsome | ⟨tx', htx', hout⟩
      · by_cases hcr : ∃ out, (o, out) ∈ creates rb tx₀
        · exact Or.inr ⟨tx₀, List.mem_cons_self, hcr⟩
        · rw [putAll_of_not_mem fun out hout => hcr ⟨out, hout⟩, eraseAll] at hsome
          split at hsome
          · exact absurd hsome (by simp)
          · exact Or.inl hsome
      · exact Or.inr ⟨tx', List.mem_cons_of_mem _ htx', hout⟩

/-- A `Bip30` chain that spends each outpoint once is connectable. -/
theorem Bip30.connectable (h : Bip30 rb (fun _ => none) (transactions chain))
    (hb : TxidBinds rb chain) (hnd : (chainSpends chain).Nodup) : Connectable rb chain where
  binds := hb
  named := named_of_inputs fun pre tx post hsplit o ho => by
    rcases Bip30.inputs (hsplit ▸ h) o ho with hsome | hcr
    · exact absurd hsome (by simp)
    · exact hcr
  spentOnce := hnd

/-! ## The schedule that looks ahead to the end -/

namespace InMem

/-- Stage 1 over all blocks: the cache then holds all their outputs. -/
theorem stage1Seq_eq (hb : TxidBinds rb chain) {endHeight : Nat} : ∀ {blocks : List Block} {h : Nat}
    {m : Ledger} {cache : Cache Out}, Holds CB.tx m cache → CreatedBy rb chain m →
    (∀ block ∈ blocks, block ∈ chain) →
    (∀ i block, blocks[i]? = some block → getBlock (h + i) = .ok block) →
    ∃ m' cache', (connectedBlockIter rb tgt CB getBlock endHeight).stage1Seq blocks.length h cache =
      some (blocks, cache') ∧ Holds CB.tx m' cache'
  | [], _, m, cache, hholds, _, _, _ => ⟨m, cache, rfl, hholds⟩
  | block :: blocks, h, m, cache, hholds, hm, hmem, hget => by
    have hblk := hmem block List.mem_cons_self
    obtain ⟨cache₁, h1, hholds₁⟩ :=
      updateUnspentCache_run hb (hget 0 block rfl) hblk hholds hm
    obtain ⟨m', cache', hseq, hholds'⟩ := stage1Seq_eq hb (h := h + 1) hholds₁
      (createdBy_putAll hm fun tx htx => mem_transactions.mpr ⟨block, hblk, htx⟩)
      (fun b' hb' => hmem b' (List.mem_cons_of_mem _ hb'))
      (fun i b' hi => by rw [Nat.add_assoc, Nat.add_comm 1 i]; exact hget (i + 1) b' hi)
    refine ⟨m', cache', ?_, hholds'⟩
    have h1' : ((connectedBlockIter rb tgt CB getBlock endHeight).stage1 h).run cache =
        (.ok block, cache₁) := h1
    rw [List.length_cons, Pipeline.stage1Seq, h1']
    dsimp only
    rw [hseq]
    rfl

/-- If stage 2 then connects all blocks, they spend distinct outpoints: what was taken stays
taken. -/
theorem nodup_of_stage2Seq {endHeight : Nat} : ∀ {blocks : List Block} {m : Ledger}
    {cache : Cache Out}, Holds CB.tx m cache →
    ((connectedBlockIter rb tgt CB getBlock endHeight).stage2Seq blocks cache).length =
      blocks.length →
    ∃ vs m', takeAll m (chainSpends blocks) = some (vs, m')
  | [], m, _, _, _ => ⟨[], m, rfl⟩
  | block :: blocks, m, cache, hholds, hlen => by
    obtain ⟨hok, herr⟩ := connectOutpoints_run hholds block
    have hfail : ∀ cache', (connectOutpoints rb tgt CB block).run cache ≠ (.err (), cache') := by
      intro cache' h2
      have h2' : ((connectedBlockIter rb tgt CB getBlock endHeight).stage2 block).run cache =
          (.err (), cache') := h2
      rw [Pipeline.stage2Seq, h2'] at hlen
      exact absurd hlen (by simp)
    have hnd : block.spends.Nodup := by
      by_contra hnd
      obtain ⟨cache', h2⟩ := herr (Or.inl hnd)
      exact hfail cache' h2
    cases hc : CB.connectWith rb m block with
    | none =>
      obtain ⟨cache', h2⟩ := herr (Or.inr hc)
      exact absurd h2 (hfail cache')
    | some b =>
      obtain ⟨cache', h2, hholds'⟩ := hok hnd b hc
      have h2' : ((connectedBlockIter rb tgt CB getBlock endHeight).stage2 block).run cache =
          (.ok b, cache') := h2
      rw [Pipeline.stage2Seq, h2'] at hlen
      obtain ⟨vs', m', htake'⟩ := nodup_of_stage2Seq hholds' (Nat.succ.inj hlen)
      have hall := ConnectedBlock.connectWith_isSome.mp (Option.isSome_iff_exists.mpr ⟨b, hc⟩)
      obtain ⟨vs, hvs⟩ := exists_map_some hall
      refine ⟨vs ++ vs', m', ?_⟩
      rw [chainSpends, List.flatMap_cons, takeAll_append, takeAll_eq_some.mpr ⟨hnd, hvs, rfl⟩,
        Option.bind_some]
      dsimp only
      rw [← chainSpends, htake']
      rfl

/-- Looking ahead to the end is a complete run; if it connects every block, each outpoint is spent
once. -/
theorem exists_lookAhead (hget : ∀ h block, chain[h]? = some block → getBlock h = .ok block)
    (hb : TxidBinds rb chain) :
    ∃ s, (connectedBlockIter rb tgt CB getBlock chain.length).Reachable emptyCache s ∧
      (connectedBlockIter rb tgt CB getBlock chain.length).Complete s ∧
      (s.emitted.length = chain.length → (chainSpends chain).Nodup) := by
  obtain ⟨m', cache', hseq, hholds⟩ := stage1Seq_eq hb (h := 0)
    (holds_emptyCache CB.tx) (fun _ _ h => absurd h (by simp)) (fun _ h => h)
    (fun i block hi => by rw [Nat.zero_add]; exact hget i block hi)
  obtain ⟨s, hr, hC, he⟩ :=
    Pipeline.lookAhead_run (connectedBlockIter rb tgt CB getBlock chain.length) hseq
  refine ⟨s, hr, hC, fun hlen => ?_⟩
  obtain ⟨vs, m'', htake⟩ := nodup_of_stage2Seq hholds (he ▸ hlen)
  exact (takeAll_eq_some.mp htake).1

end InMem

/-- **Look-ahead is harmless when no outpoint is spent twice.** On a `Bip30` chain that spends each
outpoint once, every run emits a front part of what the sequential schedule emits, and a complete
run all of it. On a chain that the sequential schedule connects in full this is needed: when every
complete run emits the same, each outpoint is spent once. -/
theorem lookAhead_harmless (rb : RustBitcoin) (tgt : Target) (CB : ConnectedBlock Blk Tx Out)
    (getBlock : Nat → Outcome Error Block) (chain : List Block)
    (hget : ∀ h block, chain[h]? = some block → getBlock h = .ok block)
    (hb : TxidBinds rb chain) (h30 : Bip30 rb (fun _ => none) (transactions chain)) :
    ((chainSpends chain).Nodup → ∀ s,
      (InMem.connectedBlockIter rb tgt CB getBlock chain.length).Reachable InMem.emptyCache s →
      s.emitted = ((InMem.connectedBlockIter rb tgt CB getBlock chain.length).sequential
          chain.length 0 InMem.emptyCache).take s.emitted.length ∧
        ((InMem.connectedBlockIter rb tgt CB getBlock chain.length).Complete s →
          s.emitted = (InMem.connectedBlockIter rb tgt CB getBlock chain.length).sequential
            chain.length 0 InMem.emptyCache)) ∧
    (((InMem.connectedBlockIter rb tgt CB getBlock chain.length).sequential chain.length 0
        InMem.emptyCache).length = chain.length →
      (∀ s, (InMem.connectedBlockIter rb tgt CB getBlock chain.length).Reachable
          InMem.emptyCache s →
        (InMem.connectedBlockIter rb tgt CB getBlock chain.length).Complete s →
        s.emitted = (InMem.connectedBlockIter rb tgt CB getBlock chain.length).sequential
          chain.length 0 InMem.emptyCache) →
      (chainSpends chain).Nodup) := by
  constructor
  · intro hnd s hr
    have hall : ∀ s, (InMem.connectedBlockIter rb tgt CB getBlock chain.length).Reachable
        InMem.emptyCache s → (InMem.connectedBlockIter rb tgt CB getBlock chain.length).Delivers
          (expectedBlock CB rb chain) s := fun s hr =>
      InMem.delivers_of_connectable (h30.connectable hb hnd) hget hr
    exact ⟨Pipeline.emitted_eq_take hall hr, Pipeline.emitted_eq_sequential hall hr⟩
  · intro hfull hsame
    obtain ⟨s, hr, hC, hnd⟩ := InMem.exists_lookAhead hget hb
    exact hnd (by rw [hsame s hr hC, hfull])

/-- A coinbase whose output is spent, the same coinbase again, and its output spent again. -/
def repeatedTxid : List Block :=
  [⟨sampleHeader 0, [sampleCoinbase]⟩, ⟨sampleHeader 1, [sampleSpend [sampleOutPoint] 50]⟩,
    ⟨sampleHeader 2, [sampleCoinbase]⟩, ⟨sampleHeader 3, [sampleSpend [sampleOutPoint] 49]⟩]

/-- Up to the last spend, the txid is repeated and nothing is spent twice: looking ahead to the end
emits what the sequential schedule emits. -/
theorem lookAhead_repeatedTxid :
    ¬ ((transactions (repeatedTxid.take 3)).map sampleBitcoin.computeTxid).Nodup ∧
      ∃ s, (InMem.connectedBlockIter sampleBitcoin ⟨true, true⟩ (fullConnectedBlock sampleBitcoin)
          (getBlockFrom (repeatedTxid.take 3)) 3).Reachable InMem.emptyCache s ∧
        s.emitted = (InMem.connectedBlockIter sampleBitcoin ⟨true, true⟩
          (fullConnectedBlock sampleBitcoin) (getBlockFrom (repeatedTxid.take 3)) 3).sequential 3 0
          InMem.emptyCache := by
  have hbinds : TxidBinds sampleBitcoin (repeatedTxid.take 3) := by
    unfold TxidBinds
    decide
  obtain ⟨s, hr, hC, -⟩ := InMem.exists_lookAhead getBlockFrom_eq hbinds
  exact ⟨by decide, s, hr, ((lookAhead_harmless sampleBitcoin ⟨true, true⟩
    (fullConnectedBlock sampleBitcoin) (getBlockFrom (repeatedTxid.take 3)) (repeatedTxid.take 3)
    getBlockFrom_eq hbinds (by decide)).1 (by decide) s hr).2 hC⟩

/-- **The output depends on the look-ahead**: two complete runs over a `Bip30` chain emit different
blocks. The sequential one connects all four; after looking ahead to the end, the first spend
empties the cell of the second occurrence and the second spend fails. -/
theorem lookAhead_changes_output :
    TxidBinds sampleBitcoin repeatedTxid ∧
      Bip30 sampleBitcoin (fun _ => none) (transactions repeatedTxid) ∧
      ∃ s s', (InMem.connectedBlockIter sampleBitcoin ⟨true, true⟩
          (fullConnectedBlock sampleBitcoin)
          (getBlockFrom repeatedTxid) 4).Reachable InMem.emptyCache s ∧
        (InMem.connectedBlockIter sampleBitcoin ⟨true, true⟩ (fullConnectedBlock sampleBitcoin)
          (getBlockFrom repeatedTxid) 4).Reachable InMem.emptyCache s' ∧
        (InMem.connectedBlockIter sampleBitcoin ⟨true, true⟩ (fullConnectedBlock sampleBitcoin)
          (getBlockFrom repeatedTxid) 4).Complete s ∧
        (InMem.connectedBlockIter sampleBitcoin ⟨true, true⟩ (fullConnectedBlock sampleBitcoin)
          (getBlockFrom repeatedTxid) 4).Complete s' ∧ s.emitted ≠ s'.emitted := by
  have hbinds : TxidBinds sampleBitcoin repeatedTxid := by
    unfold TxidBinds
    decide
  refine ⟨hbinds, by decide, ?_⟩
  obtain ⟨s, hr, hC, he⟩ := Pipeline.sequential_run (InMem.connectedBlockIter sampleBitcoin
    ⟨true, true⟩ (fullConnectedBlock sampleBitcoin) (getBlockFrom repeatedTxid) 4) InMem.emptyCache
  obtain ⟨s', hr', hC', hnd⟩ := InMem.exists_lookAhead getBlockFrom_eq hbinds
  have hlen : s.emitted.length = 4 := by
    rw [he]
    refine (congrArg List.length (InMem.sequential_eq hbinds (InMem.holds_emptyCache _)
      (fun _ _ h => absurd h (by simp)) (fun _ h => h) (fun i block hi => ?_))).trans ?_
    · rw [Nat.zero_add]
      exact getBlockFrom_eq i block hi
    · decide
  refine ⟨s, s', hr, hr', hC, hC', fun heq => ?_⟩
  exact absurd (hnd (heq ▸ hlen)) (by decide)

end BitcoinExplorer
