import BitcoinExplorer.CoreData
import BitcoinExplorer.Iter.AnyEnd
import BitcoinExplorer.Lib.ParMap

/-!
# `src/iter/block_iter.rs`, and the iterators of `BitcoinDB`

`BlockIter` calls `get_block` on each of a list of heights, on several threads and with the results
put back in order; an error or a panic of a call ends the iterator. `iter_heights` passes the
heights on, `block_iter` those of a range, and `connected_block_iter` the end height.

* **`iterHeights_delivers`**: on any database and under every schedule, the blocks of the requested
  heights come out in order up to the first height whose block cannot be read.
* **`BlockIter.fromRange_delivers`**: where the blocks of a chain can be read, a range delivers
  exactly those of its heights that the chain has.
-/

namespace BitcoinExplorer

open Rust Conc

variable {B : Type}

/-- The call of a worker thread: `db.get_block::<B>(h).map_err(|_| ())`. -/
def BlockIter.fetch (getBlock : Nat → Outcome Error B) (height : Nat) : Outcome Unit B :=
  (getBlock height).mapErr fun _ => ()

/-- `BlockIter::new`. -/
def BlockIter.new (getBlock : Nat → Outcome Error B) (heights : List Nat) :
    Pipeline (calls (fetch getBlock)) Unit B B :=
  .parMap (fetch getBlock) heights

/-- `BlockIter::from_range`. -/
def BlockIter.fromRange (getBlock : Nat → Outcome Error B) (start stop : Nat) :
    Pipeline (calls (fetch getBlock)) Unit B B :=
  if stop ≤ start then new getBlock [] else new getBlock (List.range' start (stop - start))

namespace BitcoinDB

section

variable (rb : RustBitcoin) (tgt : Target) (disk : Disk) (self : BitcoinDB) (into : Block → B)

/-- `block_iter`. -/
def blockIter (start stop : Nat) :
    Pipeline (calls (BlockIter.fetch (self.getBlock rb tgt disk into))) Unit B B :=
  BlockIter.fromRange (self.getBlock rb tgt disk into) start stop

/-- `iter_heights`. -/
def iterHeights (heights : List Nat) :
    Pipeline (calls (BlockIter.fetch (self.getBlock rb tgt disk into))) Unit B B :=
  BlockIter.new (self.getBlock rb tgt disk into) heights

variable {Blk Tx Out : Type} (CB : ConnectedBlock Blk Tx Out)

/-- `connected_block_iter`, with the feature `on-disk-utxo`. -/
def connectedBlockIterOnDisk (stop : Nat) : Pipeline OnDisk.rocksDB Unit Block Blk :=
  OnDisk.connectedBlockIter rb tgt CB (self.getBlock rb tgt disk id) stop

/-- `connected_block_iter`, without it. -/
def connectedBlockIterInMem (stop : Nat) : Pipeline (InMem.mutexes tgt Out) Unit Block Blk :=
  InMem.connectedBlockIter rb tgt CB (self.getBlock rb tgt disk id) stop

end

end BitcoinDB

variable {getBlock : Nat → Outcome Error B}

theorem BlockIter.fetch_isOk (h : Nat) : (fetch getBlock h).isOk = (getBlock h).isOk := by
  unfold fetch
  cases getBlock h <;> rfl

/-- An empty range is no heights, so `block_iter` is `iter_heights` on its range. -/
theorem BlockIter.fromRange_eq (start stop : Nat) :
    fromRange getBlock start stop = new getBlock (List.range' start (stop - start)) := by
  unfold fromRange
  split
  · rename_i hle
    rw [Nat.sub_eq_zero_of_le hle]
    rfl
  · rfl

/-- **`BlockIter` delivers the readable heights up to the first that is not.** -/
theorem BlockIter.delivers (getBlock : Nat → Outcome Error B) (heights : List Nat)
    {s : Config (calls (fetch getBlock)) Unit B B} (hr : (new getBlock heights).Reachable () s) :
    ∃ n, (∀ i, i < n → ∃ h, heights[i]? = some h ∧ (getBlock h).isOk = true) ∧
      (n = heights.length ∨ ∃ h, heights[n]? = some h ∧ (getBlock h).isOk = false) ∧
      (new getBlock heights).DeliversUpTo n
        (fun i => heights[i]?.bind fun h => (getBlock h).toOption) s := by
  have hcall : ∀ {h b}, fetch getBlock h = .ok b → getBlock h = .ok b := fun hb =>
    Outcome.mapErr_eq_ok.mp hb
  refine ⟨_, fun i hi => ?_, ?_, (Pipeline.parMap_delivers _ heights hr).congr fun i hi => ?_⟩
  · obtain ⟨h, b, hh, hb, -⟩ := getElem?_okPrefix hi
    exact ⟨h, hh, Outcome.isOk_iff.mpr ⟨b, hcall hb⟩⟩
  · refine (okPrefix_ends heights).imp_right ?_
    rintro ⟨h, hh, hfail⟩
    exact ⟨h, hh, fetch_isOk h ▸ hfail⟩
  · obtain ⟨h, b, hh, hb, hget⟩ := getElem?_okPrefix hi
    rw [hget, hh, Option.bind_some, hcall hb]
    rfl

/-- **`iter_heights` delivers the longest readable front part of its heights.** On any database, in
any format and under every schedule: the consumer sees `get_block` of each height, in the order
given, up to the first height whose block cannot be read; it ends there or after the last height,
and no schedule gets stuck or goes on forever before. -/
theorem iterHeights_delivers (rb : RustBitcoin) (tgt : Target) (disk : Disk) (db : BitcoinDB)
    (into : Block → B) (heights : List Nat)
    {s : Config (calls (BlockIter.fetch (db.getBlock rb tgt disk into))) Unit B B}
    (hr : (db.iterHeights rb tgt disk into heights).Reachable () s) :
    ∃ n, (∀ i, i < n → ∃ h, heights[i]? = some h ∧ (db.getBlock rb tgt disk into h).isOk = true) ∧
      (n = heights.length ∨
        ∃ h, heights[n]? = some h ∧ (db.getBlock rb tgt disk into h).isOk = false) ∧
      (db.iterHeights rb tgt disk into heights).DeliversUpTo n
        (fun i => heights[i]?.bind fun h => (db.getBlock rb tgt disk into h).toOption) s :=
  BlockIter.delivers _ heights hr

/-- Three heights, the second of which no block has: one block comes out. -/
theorem iterHeights_storedDb :
    ∃ s, (storedDb.iterHeights storedBitcoin ⟨true, true⟩ storedDisk id [2, 7, 0]).Reachable () s ∧
      ∃ n, (∀ i, i < n → ∃ h, [2, 7, 0][i]? = some h ∧
          (storedDb.getBlock storedBitcoin ⟨true, true⟩ storedDisk id h).isOk = true) ∧
        (n = 3 ∨ ∃ h, [2, 7, 0][n]? = some h ∧
          (storedDb.getBlock storedBitcoin ⟨true, true⟩ storedDisk id h).isOk = false) ∧
        s.emitted.length = n := by
  obtain ⟨s, hr, hC, -⟩ := Pipeline.sequential_run
    (storedDb.iterHeights storedBitcoin ⟨true, true⟩ storedDisk id [2, 7, 0]) ()
  obtain ⟨n, hok, hend, hd⟩ := iterHeights_delivers storedBitcoin ⟨true, true⟩ storedDisk storedDb
    id [2, 7, 0] hr
  refine ⟨s, hr, n, hok, hend, hd.length_of_complete ?_ hC⟩
  rcases hend with rfl | ⟨h, hh, -⟩
  · exact le_rfl
  · exact (List.getElem?_eq_some_iff.mp hh).1.le

/-- **A range delivers the blocks of the chain in it**, where these can be read and no others. -/
theorem BlockIter.fromRange_delivers {chain : List B}
    (hget : ∀ h b, chain[h]? = some b → getBlock h = .ok b)
    (hpast : ∀ h, chain.length ≤ h → (getBlock h).isOk = false) (start stop : Nat)
    {s : Config (calls (fetch getBlock)) Unit B B}
    (hr : (fromRange getBlock start stop).Reachable () s) :
    (fromRange getBlock start stop).DeliversUpTo (min stop chain.length - start)
      (fun i => chain[start + i]?) s := by
  rw [fromRange_eq] at hr ⊢
  -- a height is readable exactly when it is one of the chain
  have hok : ∀ h, (getBlock h).isOk = true ↔ h < chain.length := by
    intro h
    constructor
    · intro hok
      by_contra hge
      rw [hpast h (by omega)] at hok
      cases hok
    · intro hlt
      rw [hget h _ (List.getElem?_eq_getElem hlt)]
      rfl
  have hheight : ∀ i h, (List.range' start (stop - start))[i]? = some h →
      i < stop - start ∧ h = start + i := by
    intro i h hh
    obtain ⟨hi, he⟩ := List.getElem?_eq_some_iff.mp hh
    rw [List.length_range'] at hi
    rw [List.getElem_range', Nat.one_mul] at he
    exact ⟨hi, he.symm⟩
  obtain ⟨n, hpre, hend, hd⟩ := BlockIter.delivers _ _ hr
  have hbelow : ∀ i, i < n → i < stop - start ∧ start + i < chain.length := by
    intro i hi
    obtain ⟨h, hh, hisok⟩ := hpre i hi
    obtain ⟨hlt, rfl⟩ := hheight i h hh
    exact ⟨hlt, (hok _).mp hisok⟩
  have hn : n = min stop chain.length - start := by
    refine Nat.le_antisymm ?_ ?_
    · rcases Nat.eq_zero_or_pos n with hz | hpos
      · omega
      · have := hbelow (n - 1) (by omega)
        omega
    · rcases hend with hn | ⟨h, hh, hfail⟩
      · rw [hn, List.length_range']
        omega
      · obtain ⟨hlt, rfl⟩ := hheight n h hh
        have hge : ¬ start + n < chain.length := fun hlt => by
          rw [(hok _).mpr hlt] at hfail
          cases hfail
        omega
  rw [← hn]
  refine hd.congr fun i hi => ?_
  obtain ⟨h, hh, -⟩ := hpre i hi
  obtain ⟨-, rfl⟩ := hheight i h hh
  have hlt := List.getElem?_eq_getElem (hbelow i hi).2
  rw [hh, Option.bind_some, hget _ _ hlt, hlt]
  rfl

end BitcoinExplorer
