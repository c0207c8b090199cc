import BitcoinExplorer.Lib.Outcome
import Mathlib.Algebra.Order.Ring.Nat
import Mathlib.Algebra.Ring.Nat
import Mathlib.Data.List.Count

/-!
# `src/iter/util.rs`: `VecMap`

A slice of optional values with a count of those still present. `VecMap.Wf` says that the count is
right; `from_vec` establishes it for a slice without empty slots and `remove` keeps it, which is why
`size -= 1` cannot underflow and `is_empty` means that every slot is empty (`remove_spec`,
`isEmpty_iff`).

* `removeAll_excess`: over a run of removals, from any slice, the count stays off by what it was
  off by at the start.
* **`countsExactly_iff`**: the count is exact over every run exactly when no slot was empty.
-/

namespace BitcoinExplorer

open Rust

/-- `VecMap`. -/
structure VecMap (α : Type) where
  size : UInt32
  inner : List (Option α)
  deriving DecidableEq, Repr

namespace VecMap

variable {α : Type}

/-- `VecMap::from_vec`; the cast to `u32` wraps. -/
def fromVec (slice : List (Option α)) : VecMap α :=
  { size := UInt32.ofNat slice.length, inner := slice }

/-- `VecMap::is_empty`. -/
def isEmpty (v : VecMap α) : Bool := v.size == 0

/-- `VecMap::remove`. -/
def remove (tgt : Target) (v : VecMap α) (index : Nat) : Outcome Empty (Option α × VecMap α) :=
  if index ≥ v.inner.length then .ok (none, v)
  else
    match v.inner[index]?.join with
    | none => .ok (none, v)
    | some element => do
      let size ← .overflowing tgt (v.size ≠ 0) (v.size - 1) (v.size - 1)
      return (some element, { size, inner := v.inner.set index none })

/-- What slot `n` holds; nothing past the end. -/
def slot (v : VecMap α) (n : Nat) : Option α := v.inner[n]?.join

/-- The count is the number of slots still filled. -/
def Wf (v : VecMap α) : Prop := v.size.toNat = v.inner.countP Option.isSome

theorem wf_fromVec {slice : List (Option α)} (hsome : ∀ x ∈ slice, x.isSome = true)
    (hlen : slice.length < 2 ^ 32) : (fromVec slice).Wf := by
  unfold Wf fromVec
  rw [List.countP_eq_length.mpr hsome, UInt32.toNat_ofNat_of_lt' hlen]

theorem slot_fromVec (slice : List (Option α)) (n : Nat) :
    (fromVec slice).slot n = slice[n]?.join := rfl

/-- A counted map is empty exactly when no slot is filled. -/
theorem isEmpty_iff {v : VecMap α} (hv : v.Wf) : v.isEmpty = true ↔ ∀ n, v.slot n = none := by
  unfold isEmpty
  rw [beq_iff_eq, ← UInt32.toNat_inj, hv, UInt32.toNat_zero, List.countP_eq_zero]
  constructor
  · intro h n
    unfold slot
    cases hn : v.inner[n]? with
    | none => rfl
    | some x => simpa using h x (List.mem_of_getElem? hn)
  · intro h x hx
    obtain ⟨n, hn⟩ := List.getElem?_of_mem hx
    have := h n
    unfold slot at this
    rw [hn, Option.join_some] at this
    simp [this]

/-- Emptying a filled slot lowers the count by one. -/
theorem countP_set_none : ∀ {l : List (Option α)} {n : Nat} {x : α}, l[n]? = some (some x) →
    (l.set n none).countP Option.isSome + 1 = l.countP Option.isSome
  | [], n, x, h => absurd h (by simp)
  | y :: l, 0, x, h => by
    obtain rfl : y = some x := by simpa using h
    simp
  | y :: l, n + 1, x, h => by
    have ih := countP_set_none (l := l) (n := n) (x := x) (by simpa using h)
    rw [List.set_cons_succ, List.countP_cons, List.countP_cons, ← ih]
    omega

theorem slot_set_none (l : List (Option α)) (n m : Nat) :
    (l.set n none)[m]?.join = if m = n then none else l[m]?.join := by
  rw [List.getElem?_set]
  by_cases h : n = m
  · subst h
    rw [if_pos rfl, if_pos rfl]
    split <;> rfl
  · rw [if_neg h, if_neg (Ne.symm h)]

/-- `remove` returns the slot's value, empties the slot and leaves the others alone. `size -= 1`
does not underflow, and by how much the count exceeds the number of filled slots stays. -/
theorem remove_excess {v : VecMap α} {k : Nat}
    (hv : v.size.toNat = v.inner.countP Option.isSome + k) (tgt : Target) (index : Nat) :
    ∃ v', v.remove tgt index = .ok (v.slot index, v') ∧
      v'.size.toNat = v'.inner.countP Option.isSome + k ∧
      ∀ m, v'.slot m = if m = index then none else v.slot m := by
  unfold remove
  by_cases hlen : index ≥ v.inner.length
  · have hnone : v.slot index = none := by
      unfold slot
      rw [List.getElem?_eq_none hlen, Option.join_none]
    refine ⟨v, by rw [if_pos hlen, hnone], hv, fun m => ?_⟩
    split
    · rename_i he
      rw [he, hnone]
    · rfl
  · rw [if_neg hlen]
    cases hx : v.inner[index]?.join with
    | none =>
      refine ⟨v, by rw [slot, hx], hv, fun m => ?_⟩
      split
      · rename_i he
        rw [he, slot, hx]
      · rfl
    | some x =>
      have hget : v.inner[index]? = some (some x) := Option.join_eq_some_iff.mp hx
      have hcount := countP_set_none hget
      have hsize : v.size ≠ 0 := by
        intro h0
        rw [h0, UInt32.toNat_zero] at hv
        omega
      refine ⟨{ size := v.size - 1, inner := v.inner.set index none }, ?_, ?_, ?_⟩
      · dsimp only
        rw [Outcome.overflowing_of_fits hsize, slot, hx]
        rfl
      · have hle : (1 : UInt32) ≤ v.size := by
          rw [UInt32.le_iff_toNat_le, UInt32.toNat_one]
          omega
        rw [UInt32.toNat_sub_of_le _ _ hle, UInt32.toNat_one]
        dsimp only
        omega
      · exact fun m => slot_set_none _ _ _

/-- **`remove`** on a counted map: as `remove_excess`, and the count stays right. -/
theorem remove_spec {v : VecMap α} (hv : v.Wf) (tgt : Target) (index : Nat) :
    ∃ v', v.remove tgt index = .ok (v.slot index, v') ∧ v'.Wf ∧
      ∀ m, v'.slot m = if m = index then none else v.slot m :=
  remove_excess (k := 0) hv tgt index

/-! ## Runs of removals -/

/-- A run of `remove` calls: what each of them returned, and the map after the last. -/
def removeAll (tgt : Target) (v : VecMap α) : List Nat →
    Outcome Empty (List (Option α) × VecMap α)
  | [] => .ok ([], v)
  | index :: indices => do
    let (element, v) ← v.remove tgt index
    let (elements, v) ← v.removeAll tgt indices
    return (element :: elements, v)

/-- What a run returns when slot `n` holds `slots n` before it: an index gets its slot's value the
first time, and nothing from then on. -/
def removed (slots : Nat → Option α) : List Nat → List (Option α)
  | [] => []
  | index :: indices =>
    slots index :: removed (fun m => if m = index then none else slots m) indices

theorem length_removed : ∀ (indices : List Nat) (slots : Nat → Option α),
    (removed slots indices).length = indices.length
  | [], _ => rfl
  | _ :: indices, _ => congrArg (· + 1) (length_removed indices _)

/-- Call `k` of a run gets its slot's first value, unless an earlier call had the same index. -/
theorem getElem?_removed : ∀ {indices : List Nat} {slots : Nat → Option α} {k index : Nat},
    indices[k]? = some index →
    (removed slots indices)[k]? =
      some (if index ∈ indices.take k then none else slots index)
  | [], _, _, _, h => by simp at h
  | i :: indices, slots, 0, index, h => by
    obtain rfl : i = index := by simpa using h
    simp [removed]
  | i :: indices, slots, k + 1, index, h => by
    have ih : (removed (fun m => if m = i then none else slots m) indices)[k]? =
        some (if index ∈ indices.take k then none else if index = i then none else slots index) :=
      getElem?_removed (by simpa using h)
    rw [removed, List.getElem?_cons_succ, ih, List.take_succ_cons]
    by_cases hi : index = i <;> simp [hi]

/-- **A run of removals** never underflows the count, empties the slots asked for and leaves the
others alone; what the count is off by at its start, it is off by at its end. -/
theorem removeAll_excess (tgt : Target) {k : Nat} : ∀ {v : VecMap α} (indices : List Nat),
    v.size.toNat = v.inner.countP Option.isSome + k →
    ∃ v', v.removeAll tgt indices = .ok (removed v.slot indices, v') ∧
      v'.size.toNat = v'.inner.countP Option.isSome + k ∧
      ∀ m, v'.slot m = if m ∈ indices then none else v.slot m
  | v, [], hv => ⟨v, rfl, hv, fun m => by simp⟩
  | v, index :: indices, hv => by
    obtain ⟨v₁, hrem, hv₁, hslot₁⟩ := remove_excess hv tgt index
    obtain ⟨v₂, hrun, hv₂, hslot₂⟩ := removeAll_excess tgt indices hv₁
    refine ⟨v₂, ?_, hv₂, fun m => ?_⟩
    · rw [removeAll, hrem, Outcome.ok_bind]
      dsimp only
      rw [hrun, Outcome.ok_bind, removed, ← funext hslot₁]
      rfl
    · rw [hslot₂, hslot₁]
      by_cases hm : m = index <;> simp [hm]

/-- The counter of a map built from `slice` is exact: over every run of removals from it, no
`size -= 1` underflows, each call returns the original element of its slot the first time and
nothing afterwards, the slots not asked for keep theirs, and at the end `size` is the number of
slots still filled and `is_empty` says that none is. -/
def CountsExactly (slice : List (Option α)) : Prop :=
  ∀ (tgt : Target) (indices : List Nat), ∃ elements v,
    (fromVec slice).removeAll tgt indices = .ok (elements, v) ∧
      elements.length = indices.length ∧
      (∀ k index, indices[k]? = some index →
        elements[k]? = some (if index ∈ indices.take k then none else slice[index]?.join)) ∧
      (∀ m, v.slot m = if m ∈ indices then none else slice[m]?.join) ∧
      v.size.toNat = v.inner.countP Option.isSome ∧
      (v.isEmpty = true ↔ ∀ m, v.slot m = none)

/-- **The counter is exact** over every run of removals exactly when `from_vec` is given no empty
slot: `from_vec` counts the slots, not the elements. -/
theorem countsExactly_iff (slice : List (Option α)) (hlen : slice.length < 2 ^ 32) :
    CountsExactly slice ↔ ∀ x ∈ slice, x.isSome = true := by
  constructor
  · intro h
    obtain ⟨elements, v, hrun, -, -, -, hsize, -⟩ := h ⟨true, true⟩ []
    obtain ⟨-, rfl⟩ : elements = [] ∧ fromVec slice = v := by simpa [removeAll, eq_comm] using hrun
    rw [fromVec, UInt32.toNat_ofNat_of_lt' hlen] at hsize
    exact List.countP_eq_length.mp hsize.symm
  · intro hsome tgt indices
    obtain ⟨v, hrun, hv, hslot⟩ := removeAll_excess (k := 0) tgt indices (wf_fromVec hsome hlen)
    exact ⟨_, v, hrun, length_removed _ _, fun k index hk => getElem?_removed hk, hslot, hv,
      isEmpty_iff hv⟩

theorem countsExactly_pair :
    [some 3, some 5].length < 2 ^ 32 ∧ CountsExactly [some 3, some 5] :=
  ⟨by decide, (countsExactly_iff [some 3, some 5] (by decide)).mpr (by decide)⟩

/-- A slice of one empty slot counts one element. -/
theorem countsExactly_fails_empty_slot :
    (fromVec [(none : Option Nat)]).isEmpty = false ∧
      (∀ m, (fromVec [(none : Option Nat)]).slot m = none) ∧
      ¬ CountsExactly [(none : Option Nat)] := by
  have hslot : ∀ m, (fromVec [(none : Option Nat)]).slot m = none := by
    rintro (- | m) <;> rfl
  refine ⟨rfl, hslot, fun h => ?_⟩
  obtain ⟨elements, v, hrun, -, -, -, -, hempty⟩ := h ⟨true, true⟩ []
  obtain ⟨-, rfl⟩ : elements = [] ∧ fromVec [none] = v := by simpa [removeAll, eq_comm] using hrun
  exact absurd (hempty.mpr hslot) (by decide)

end VecMap

end BitcoinExplorer
