import BitcoinExplorer.Parser.BlockIndex
import Mathlib.Data.List.Perm.Basic

/-!
# What the best chain depends on

The entries of a database come in the order of their keys, and a database also holds blocks off the
best chain and headers without a block. `load_block_index` sees none of this.

* **`loadBlockIndex_insensitive`**: adding stale or invalid entries, and reordering all of them,
  does not change the best chain.
-/

namespace BitcoinExplorer

open Rust Backtrace

variable {rb : RustBitcoin} {tgt : Target}

/-- The entries hold these records, in this order. -/
def DecodesTo (rb : RustBitcoin) (tgt : Target) : Entries → List BlockIndexRecord → Prop :=
  List.Forall₂ fun e r => isBlockIndexRecord e.1 = true ∧ BlockIndexRecord.decode rb tgt e.2 = .ok r

/-- The scan keeps the valid ones. -/
theorem DecodesTo.validRecords {entries : Entries} {records : List BlockIndexRecord}
    (h : DecodesTo rb tgt entries records) :
    validRecords rb tgt entries = .ok (records.filter BlockIndexRecord.isValid) := by
  induction h with
  | nil => rfl
  | @cons e r entries records he _ ih =>
    rw [BitcoinExplorer.validRecords, if_pos he.1, he.2, Outcome.ok_bind, ih, Outcome.ok_bind,
      List.filter_cons]

/-- Entries under other keys are passed over. -/
theorem validRecords_filter (rb : RustBitcoin) (tgt : Target) (entries : Entries) :
    validRecords rb tgt (entries.filter fun e => isBlockIndexRecord e.1) =
      validRecords rb tgt entries := by
  induction entries with
  | nil => rfl
  | cons e entries ih =>
    obtain ⟨k, v⟩ := e
    by_cases hk : isBlockIndexRecord k = true
    · rw [List.filter_cons_of_pos (by exact hk), validRecords, validRecords, if_pos hk, if_pos hk,
        ih]
    · rw [List.filter_cons_of_neg (by exact hk), ih]
      conv_rhs => rw [validRecords, if_neg hk]

/-- Each record is decoded from some entry. -/
theorem DecodesTo.exists_of_mem {entries : Entries} {records : List BlockIndexRecord}
    (h : DecodesTo rb tgt entries records) {r : BlockIndexRecord} (hr : r ∈ records) :
    ∃ e ∈ entries, isBlockIndexRecord e.1 = true ∧ BlockIndexRecord.decode rb tgt e.2 = .ok r := by
  induction h with
  | nil => exact absurd hr List.not_mem_nil
  | @cons e r' entries records he _ ih =>
    rcases List.mem_cons.mp hr with rfl | hr
    · exact ⟨e, List.mem_cons_self, he⟩
    · obtain ⟨e', hmem, he'⟩ := ih hr
      exact ⟨e', List.mem_cons_of_mem _ hmem, he'⟩

theorem DecodesTo.append {entries entries' : Entries} {records records' : List BlockIndexRecord}
    (h : DecodesTo rb tgt entries records) (h' : DecodesTo rb tgt entries' records') :
    DecodesTo rb tgt (entries ++ entries') (records ++ records') :=
  List.rel_append h h'

/-- Entries in another order hold the records in another order. -/
theorem DecodesTo.perm {entries entries' : Entries} {records : List BlockIndexRecord}
    (h : DecodesTo rb tgt entries records) (hperm : entries'.Perm entries) :
    ∃ records', DecodesTo rb tgt entries' records' ∧ records'.Perm records :=
  List.perm_comp_forall₂ hperm h

/-- The chain below a greatest height that only one record has is found among further records, in
any order, that are below it. -/
theorem Ancestry.mono {valid valid' v : List BlockIndexRecord} (h : Ancestry rb valid v)
    (hd : (valid'.map fun r => rb.blockHash r.blockHeader).Nodup) (hsub : valid ⊆ valid')
    {t : BlockIndexRecord} (ht : t ∈ valid)
    (hmax : ∀ r ∈ valid', r ≠ t → r.nHeight < t.nHeight) : Ancestry rb valid' v := by
  obtain ⟨t', htip, hlen, hend⟩ := h.ends
  have htip' := tip_of_unique (L := recordLinks rb) ht fun r hr => hmax r (hsub hr)
  obtain rfl : t' = t := Option.some.inj (htip.symm.trans htip')
  exact ⟨h.chain.mono fun k r => store_mono hd hsub, t', tip_of_unique (hsub ht) hmax, hlen, hend⟩

/-- **Stale and invalid entries and the order of the entries do not matter.** When one valid record
has the greatest height and the best chain is not empty, further entries with new hashes that are
invalid or below that height leave it as it is, in any order of all entries. -/
theorem loadBlockIndex_insensitive (rb : RustBitcoin) (tgt : Target) (D E entries : Entries)
    (recordsD recordsE v : List BlockIndexRecord) (hD : DecodesTo rb tgt D recordsD)
    (hE : DecodesTo rb tgt E recordsE)
    (hhashes : ((recordsD ++ recordsE).map fun r => rb.blockHash r.blockHeader).Nodup)
    (hunique : ∃ t ∈ recordsD, t.isValid = true ∧
      ∀ r ∈ recordsD, r.isValid = true → r ≠ t → r.nHeight < t.nHeight)
    (hload : loadBlockIndex rb tgt (some D) = .ok v) (hne : v ≠ [])
    (hstale : ∀ r ∈ recordsE, r.isValid = false ∨ r.nHeight < (v.length : Int) - 1)
    (hperm : entries.Perm (D ++ E)) : loadBlockIndex rb tgt (some entries) = .ok v := by
  obtain ⟨t, htD, htvalid, hmaxD⟩ := hunique
  obtain ⟨records, hrecords, hpermR⟩ := (hD.append hE).perm hperm
  have htmem : t ∈ recordsD.filter BlockIndexRecord.isValid := List.mem_filter.mpr ⟨htD, htvalid⟩
  have htip : tip (recordLinks rb) (recordsD.filter BlockIndexRecord.isValid) = some t :=
    tip_of_unique htmem fun r hr => hmaxD r (List.mem_filter.mp hr).1 (List.mem_filter.mp hr).2
  -- the chain of `D`
  obtain ⟨e, he, -, hdecode⟩ := hD.exists_of_mem htD
  obtain ⟨hge, hlt⟩ := nHeight_bounds hdecode
  rw [loadBlockIndex_eq, hD.validRecords, Outcome.ok_bind] at hload
  have h0 : 0 ≤ t.nHeight := by
    by_contra hneg
    exact hne (bestChain_of_neg htip (by omega) hge hload).2
  have hchain := (bestChain_eq_ok htip h0 hlt).mp hload
  obtain ⟨t', ht', hlen, -⟩ := hchain.ends
  obtain rfl := Option.some.inj (htip.symm.trans ht')
  -- the same chain among all records
  have hmem : ∀ r, r ∈ records ↔ r ∈ recordsD ∨ r ∈ recordsE := fun r => by
    rw [hpermR.mem_iff, List.mem_append]
  have hsub : recordsD.filter BlockIndexRecord.isValid ⊆
      records.filter BlockIndexRecord.isValid := by
    intro r hr
    obtain ⟨hrD, hvalid⟩ := List.mem_filter.mp hr
    exact List.mem_filter.mpr ⟨(hmem r).mpr (Or.inl hrD), hvalid⟩
  have hmax : ∀ r ∈ records.filter BlockIndexRecord.isValid, r ≠ t → r.nHeight < t.nHeight := by
    intro r hr hrt
    obtain ⟨hr, hvalid⟩ := List.mem_filter.mp hr
    rcases (hmem r).mp hr with hrD | hrE
    · exact hmaxD r hrD hvalid hrt
    · rcases hstale r hrE with hinvalid | hlow
      · rw [hvalid] at hinvalid
        cases hinvalid
      · omega
  have hd : ((records.filter BlockIndexRecord.isValid).map
      fun r => rb.blockHash r.blockHeader).Nodup :=
    ((hpermR.map _).nodup_iff.mpr hhashes).sublist (List.filter_sublist.map _)
  rw [loadBlockIndex_eq, hrecords.validRecords, Outcome.ok_bind]
  exact (bestChain_eq_ok (tip_of_unique (hsub htmem) hmax) h0 hlt).mpr
    (hchain.mono hd hsub htmem hmax)

/-! ## A fork -/

/-- A header on top of another that says nothing else. -/
def headerOn (prevBlockhash : BlockHash) : BlockHeader where
  version := 1
  prevBlockhash
  merkleRoot := 0
  time := 0
  bits := 0
  nonce := 0

def forkBitcoin : RustBitcoin :=
  (RustBitcoin.ofTables []
    ((headerOn block1Header.prevBlockhash,
      0x9e7b70cb859cd630156adfe40dfb706f75ed32a36fac5eb086ef8d953e19d137) ::
    (headerOn block2Header.prevBlockhash,
      0x0a1ce1ba1b268f6169d690d09ce2c8a05ada8f79b2328650344fb4d27551388a) ::
    mainnetHashes)).withLegacyCodec

/-- A block beside block 1, and a header beside block 2 without its block (status 2). -/
def forkEntries : Entries :=
  [([0x62, 3], [1, 1, 13, 1, 0, 0x85, 0x40] ++ encodeHeader (headerOn block1Header.prevBlockhash)),
    ([0x62, 4], [1, 2, 2, 0] ++ encodeHeader (headerOn block2Header.prevBlockhash))]

/-- The fork does not show, with its header first and its block last. -/
theorem loadBlockIndex_fork :
    loadBlockIndex forkBitcoin ⟨true, true⟩
      (some (forkEntries.drop 1 ++ mainnetEntries.reverse ++ forkEntries.take 1)) =
        .ok mainnetRecords :=
  loadBlockIndex_insensitive forkBitcoin ⟨true, true⟩ mainnetEntries forkEntries _
    [⟨1, 1, 13, 1, 0, 301, 0xffffffff, block1Header⟩,
      ⟨1, 2, 13, 1, 0, 524, 0xffffffff, block2Header⟩,
      ⟨1, 0, 13, 1, 0, 8, 0xffffffff, genesisHeader⟩]
    [⟨1, 1, 13, 1, 0, 832, 0xffffffff, headerOn block1Header.prevBlockhash⟩,
      ⟨1, 2, 2, 0, -1, 0xffffffff, 0xffffffff, headerOn block2Header.prevBlockhash⟩]
    mainnetRecords
    (.cons ⟨rfl, by decide +kernel⟩ (.cons ⟨rfl, by decide +kernel⟩
      (.cons ⟨rfl, by decide +kernel⟩ .nil)))
    (.cons ⟨rfl, by decide +kernel⟩ (.cons ⟨rfl, by decide +kernel⟩ .nil))
    (by decide +kernel)
    ⟨⟨1, 2, 13, 1, 0, 524, 0xffffffff, block2Header⟩, by decide +kernel, by decide +kernel,
      by decide +kernel⟩
    (by decide +kernel) (by decide) (by decide +kernel) (by decide +kernel)

end BitcoinExplorer
