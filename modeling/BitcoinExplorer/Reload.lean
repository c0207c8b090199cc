import BitcoinExplorer.Api
import BitcoinExplorer.Parser.BestChain

/-!
# Opening the database again

A `BitcoinDB` keeps the best chain of the moment it was opened. Between two openings the node adds
blocks to its index, and may change to another branch.

* **`loadBlockIndex_reorg`**: a branch that outgrows the best chain replaces exactly the blocks
  above the block it forks from; one more block on top is the case of an empty replacement.
* **`reopened_share_prefix`**: any two openings agree up to some height, and above it none of the
  blocks of one is known to the other.
-/

namespace BitcoinExplorer

open Rust Backtrace

variable {rb : RustBitcoin} {tgt : Target}

/-- **A reorganisation replaces the blocks above the fork.** When a database with best chain `v`
gets a branch of new valid blocks, linked from block `fork` of the chain on, that ends above the
chain, then the best chain is `v` up to the fork, followed by the branch, whatever the order of the
entries and whatever entries of other kinds are among them. -/
theorem loadBlockIndex_reorg (rb : RustBitcoin) (tgt : Target) (D E entries : Entries)
    (recordsD branch v : List BlockIndexRecord)
    (hD : DecodesTo rb tgt (D.filter fun e => isBlockIndexRecord e.1) recordsD)
    (hE : DecodesTo rb tgt (E.filter fun e => isBlockIndexRecord e.1) branch)
    (hhashes : ((recordsD ++ branch).map fun r => rb.blockHash r.blockHeader).Nodup)
    (hload : loadBlockIndex rb tgt (some D) = .ok v) (fork : Nat) (r : BlockIndexRecord)
    (hfork : v[fork]? = some r) (hvalid : ∀ s ∈ branch, s.isValid = true)
    (hlinked : (r :: branch).IsChain
      fun s s' => s'.blockHeader.prevBlockhash = rb.blockHash s.blockHeader)
    (hheights : ∀ (i : Nat) s, branch[i]? = some s → s.nHeight = ((fork + 1 + i : Nat) : Int))
    (houtgrows : v.length < fork + 1 + branch.length) (hperm : entries.Perm (D ++ E)) :
    loadBlockIndex rb tgt (some entries) = .ok (v.take (fork + 1) ++ branch) := by
  obtain ⟨valid, hvalidD, hchain, hlength⟩ := loadBlockIndex_eq_ok hload
  rw [← validRecords_filter, hD.validRecords] at hvalidD
  obtain rfl : recordsD.filter BlockIndexRecord.isValid = valid := Outcome.ok.inj hvalidD
  have hforklt : fork < v.length := (List.getElem?_eq_some_iff.mp hfork).1
  -- the records of all entries
  have hpermB := hperm.filter fun e => isBlockIndexRecord e.1
  rw [List.filter_append] at hpermB
  obtain ⟨records, hrecords, hpermR⟩ := (hD.append hE).perm hpermB
  have hmem : ∀ s, s ∈ records ↔ s ∈ recordsD ∨ s ∈ branch := fun s => by
    rw [hpermR.mem_iff, List.mem_append]
  have hd : ((records.filter BlockIndexRecord.isValid).map
      fun s => rb.blockHash s.blockHeader).Nodup :=
    ((hpermR.map _).nodup_iff.mpr hhashes).sublist (List.filter_sublist.map _)
  -- the last block of the branch is above every other one
  have hbranch : branch ≠ [] := by
    rintro rfl
    rw [List.length_nil] at houtgrows
    omega
  have htopmem := List.getLast_mem hbranch
  have htopget : branch[branch.length - 1]? = some (branch.getLast hbranch) := by
    rw [← List.getLast?_eq_getElem?, List.getLast?_eq_some_getLast hbranch]
  have hpos := List.length_pos_of_ne_nil hbranch
  have htop : (branch.getLast hbranch).nHeight = fork + branch.length := by
    rw [hheights _ _ htopget]
    omega
  have htopvalid : branch.getLast hbranch ∈ records.filter BlockIndexRecord.isValid :=
    List.mem_filter.mpr ⟨(hmem _).mpr (Or.inr htopmem), hvalid _ htopmem⟩
  have hmax : ∀ s ∈ records.filter BlockIndexRecord.isValid, s ≠ branch.getLast hbranch →
      s.nHeight < (branch.getLast hbranch).nHeight := by
    intro s hs hne
    obtain ⟨hs, hsvalid⟩ := List.mem_filter.mp hs
    rw [htop]
    rcases (hmem s).mp hs with hsD | hsE
    · rcases hlength with ⟨-, rfl⟩ | ⟨t, ht, hlen⟩
      · cases hfork
      · have hle : s.nHeight ≤ t.nHeight :=
          (tip_eq_some ht).2 s (List.mem_filter.mpr ⟨hsD, hsvalid⟩)
        omega
    · obtain ⟨i, hi⟩ := List.getElem?_of_mem hsE
      have hlt := (List.getElem?_eq_some_iff.mp hi).1
      have hlast : i ≠ branch.length - 1 := by
        rintro rfl
        exact hne (Option.some.inj (hi.symm.trans htopget))
      rw [hheights i s hi]
      omega
  have htip := tip_of_unique (L := recordLinks rb) htopvalid hmax
  obtain ⟨e, -, -, hdecode⟩ := hE.exists_of_mem htopmem
  rw [loadBlockIndex_eq, ← validRecords_filter, hrecords.validRecords, Outcome.ok_bind]
  refine (bestChain_eq_ok htip (by omega) (nHeight_bounds hdecode).2).mpr ⟨?_, _, htip, ?_, ?_⟩
  · refine hchain.branch hfork hlinked hheights fun s hs => (store_eq_some hd).mpr ⟨?_, rfl⟩
    rcases List.mem_append.mp hs with hs | hs
    · have hsD := mem_of_store (hchain.stored s (List.mem_of_mem_take hs))
      obtain ⟨hsD, hsvalid⟩ := List.mem_filter.mp hsD
      exact List.mem_filter.mpr ⟨(hmem s).mpr (Or.inl hsD), hsvalid⟩
    · exact List.mem_filter.mpr ⟨(hmem s).mpr (Or.inr hs), hvalid s hs⟩
  · rw [List.length_append, List.length_take, htop]
    omega
  · intro s hs
    rw [List.getLast?_append_of_ne_nil _ hbranch, List.getLast?_eq_some_getLast hbranch] at hs
    rw [← Option.some.inj hs]

/-- Two blocks on top of the genesis block, beside block 1. -/
def branchHeaders : BlockHeader × BlockHeader :=
  (headerOn block1Header.prevBlockhash,
    headerOn 0x9e7b70cb859cd630156adfe40dfb706f75ed32a36fac5eb086ef8d953e19d137)

def branchBitcoin : RustBitcoin :=
  (RustBitcoin.ofTables []
    ((branchHeaders.1, branchHeaders.2.prevBlockhash) ::
    (branchHeaders.2, 0x129181136c1996ab26ab606f76521425f09abf09b7858f2e049f979b8c9c893d) ::
    mainnetHashes)).withLegacyCodec

/-- The genesis block and block 1, beside the number of the last block file. -/
def twoEntries : Entries := [mainnetEntries[0], ([0x6c], [0]), mainnetEntries[2]]

def branchEntries : Entries :=
  [([0x62, 3], [1, 1, 13, 1, 0, 0x85, 0x40] ++ encodeHeader branchHeaders.1),
    ([0x62, 4], [1, 2, 13, 1, 0, 0x87, 0x4c] ++ encodeHeader branchHeaders.2)]

def branchRecords : List BlockIndexRecord :=
  [⟨1, 1, 13, 1, 0, 832, 0xffffffff, branchHeaders.1⟩,
    ⟨1, 2, 13, 1, 0, 1100, 0xffffffff, branchHeaders.2⟩]

/-- The branch takes the place of block 1. -/
theorem loadBlockIndex_branch :
    loadBlockIndex branchBitcoin ⟨true, true⟩ (some (branchEntries ++ twoEntries)) =
      .ok (mainnetRecords.take 1 ++ branchRecords) :=
  loadBlockIndex_reorg branchBitcoin ⟨true, true⟩ twoEntries branchEntries
    (branchEntries ++ twoEntries)
    [⟨1, 1, 13, 1, 0, 301, 0xffffffff, block1Header⟩,
      ⟨1, 0, 13, 1, 0, 8, 0xffffffff, genesisHeader⟩]
    branchRecords (mainnetRecords.take 2)
    (.cons ⟨rfl, by decide +kernel⟩ (.cons ⟨rfl, by decide +kernel⟩ .nil))
    (.cons ⟨rfl, by decide +kernel⟩ (.cons ⟨rfl, by decide +kernel⟩ .nil))
    (by decide +kernel) (by decide +kernel) 0 ⟨1, 0, 13, 1, 0, 8, 0xffffffff, genesisHeader⟩ rfl
    (by decide) (by decide +kernel)
    (fun i s hs => by
      match i, hs with
      | 0, hs => rw [← Option.some.inj hs]; rfl
      | 1, hs => rw [← Option.some.inj hs]; rfl)
    (by decide) List.perm_append_comm

/-! ## Any two openings -/

/-- The records of an index are a chain of valid records of the database. -/
theorem BlockIndex.new_chain {entries : Entries} {index : BlockIndex}
    (h : BlockIndex.new rb tgt (some entries) = .ok index) :
    (∃ m, Chain (recordLinks rb) m index.records) ∧
      ∀ r ∈ index.records, ValidRecord rb tgt entries r := by
  obtain ⟨records, hload, h⟩ := Outcome.bind_eq_ok.mp h
  obtain rfl := Outcome.ok.inj h
  obtain ⟨valid, hvalid, hchain, -⟩ := loadBlockIndex_eq_ok hload
  exact ⟨⟨_, hchain⟩, fun r hr =>
    (mem_validRecords hvalid r).mp (mem_of_store (hchain.stored r hr))⟩

/-- The hash of no record has no height. -/
theorem BitcoinDB.getHeightFromHash_of_absent {entries : Option Entries} {db : BitcoinDB}
    (hnew : BlockIndex.new rb tgt entries = .ok db.blockIndex) {hash : BlockHash}
    (habsent : ∀ r ∈ db.blockIndex.records, rb.blockHash r.blockHeader ≠ hash) :
    db.getHeightFromHash hash = .err (.blockHashNotFound hash) := by
  cases hlookup : db.blockIndex.hashToHeight hash with
  | none =>
    rw [BitcoinDB.getHeightFromHash, hlookup]
    rfl
  | some n =>
    obtain ⟨r, hr, hkey, -⟩ := (BitcoinDB.hashToHeight_eq_some hnew).mp hlookup
    exact absurd hkey (habsent r hr)

/-- **Two openings agree up to a height and share no block above it**, when they are of one block
tree: what a hash says of a block, its header and its height, is the same in both databases. -/
theorem reopened_share_prefix (rb : RustBitcoin) (tgt : Target) (entries entries' : Entries)
    (db db' : BitcoinDB) (hnew : BlockIndex.new rb tgt (some entries) = .ok db.blockIndex)
    (hnew' : BlockIndex.new rb tgt (some entries') = .ok db'.blockIndex)
    (hsame : ∀ r r', ValidRecord rb tgt entries r → ValidRecord rb tgt entries' r' →
      rb.blockHash r.blockHeader = rb.blockHash r'.blockHeader →
      r.blockHeader = r'.blockHeader ∧ r.nHeight = r'.nHeight) :
    ∃ n, (∀ h < n, ∃ hash, db.getHashFromHeight rb h = .ok hash ∧
        db'.getHashFromHeight rb h = .ok hash) ∧
      (∀ h hash, n ≤ h → db.getHashFromHeight rb h = .ok hash →
        db'.getHeightFromHash hash = .err (.blockHashNotFound hash)) ∧
      ∀ h hash, n ≤ h → db'.getHashFromHeight rb h = .ok hash →
        db.getHeightFromHash hash = .err (.blockHashNotFound hash) := by
  obtain ⟨⟨m, hchain⟩, hvalid⟩ := BlockIndex.new_chain hnew
  obtain ⟨⟨m', hchain'⟩, hvalid'⟩ := BlockIndex.new_chain hnew'
  obtain ⟨n, hshared, honly⟩ := hchain.common hchain' fun r hr r' hr' hkey =>
    (hsame r r' (hvalid r hr) (hvalid' r' hr') hkey).imp_left (congrArg BlockHeader.prevBlockhash)
  refine ⟨n, fun h hn => ?_, fun h hash hn hhash => ?_, fun h hash hn hhash => ?_⟩
  · obtain ⟨r, r', hr, hr', hkey⟩ := hshared h hn
    exact ⟨_, BitcoinDB.getHashFromHeight_eq_ok.mpr ⟨r, hr, rfl⟩,
      BitcoinDB.getHashFromHeight_eq_ok.mpr ⟨r', hr', hkey.symm⟩⟩
  · obtain ⟨r, hr, rfl⟩ := BitcoinDB.getHashFromHeight_eq_ok.mp hhash
    refine BitcoinDB.getHeightFromHash_of_absent hnew' fun r' hmem hkey => ?_
    obtain ⟨j, hj⟩ := List.getElem?_of_mem hmem
    exact absurd (honly h j r r' hr hj hkey.symm) (Nat.not_lt.mpr hn)
  · obtain ⟨r', hr', rfl⟩ := BitcoinDB.getHashFromHeight_eq_ok.mp hhash
    refine BitcoinDB.getHeightFromHash_of_absent hnew fun r hmem hkey => ?_
    obtain ⟨i, hi⟩ := List.getElem?_of_mem hmem
    -- both records of the block stand at its height
    have hrank := (hsame r r' (hvalid r hmem) (hvalid' r' (List.mem_of_getElem? hr')) hkey).2
    rw [show r.nHeight = i from hchain.rank i r hi,
      show r'.nHeight = h from hchain'.rank h r' hr'] at hrank
    have := honly i h r r' hi hr' hkey
    omega

/-- The branch's database with these records on its best chain. -/
def branchDb (records : List BlockIndexRecord) : BitcoinDB :=
  ⟨⟨fun _ => none, none⟩, ⟨records, reverseIndex branchBitcoin records⟩, none⟩

/-- Block 1, which the branch replaced, is gone. -/
theorem reopened_branch :
    (branchDb (mainnetRecords.take 1 ++ branchRecords)).getHeightFromHash
        block2Header.prevBlockhash =
      .err (.blockHashNotFound block2Header.prevBlockhash) := by
  have hvalid : validRecords branchBitcoin ⟨true, true⟩ twoEntries =
      .ok (mainnetRecords.take 2).reverse := by decide +kernel
  have hvalid' : validRecords branchBitcoin ⟨true, true⟩ (branchEntries ++ twoEntries) =
      .ok (branchRecords ++ (mainnetRecords.take 2).reverse) := by decide +kernel
  have hsame : ∀ r ∈ (mainnetRecords.take 2).reverse,
      ∀ r' ∈ branchRecords ++ (mainnetRecords.take 2).reverse,
        branchBitcoin.blockHash r.blockHeader = branchBitcoin.blockHash r'.blockHeader →
          r.blockHeader = r'.blockHeader ∧ r.nHeight = r'.nHeight := by decide +kernel
  obtain ⟨n, hshared, hgone, -⟩ := reopened_share_prefix branchBitcoin ⟨true, true⟩ twoEntries
    (branchEntries ++ twoEntries) (branchDb (mainnetRecords.take 2))
    (branchDb (mainnetRecords.take 1 ++ branchRecords))
    (BlockIndex.new_of_load (by decide +kernel)) (BlockIndex.new_of_load (by decide +kernel))
    (fun r r' hr hr' =>
      hsame r ((mem_validRecords hvalid r).mpr hr) r' ((mem_validRecords hvalid' r').mpr hr'))
  refine hgone 1 _ (Nat.le_of_not_lt fun hn => ?_) (by decide)
  obtain ⟨hash, hhash, hhash'⟩ := hshared 1 hn
  rw [← hhash'] at hhash
  exact absurd hhash (by decide)

end BitcoinExplorer
