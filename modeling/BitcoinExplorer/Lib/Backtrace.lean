import Mathlib.Data.List.Chain
import Mathlib.Data.List.Nodup
import Mathlib.Data.Nat.Find

/-!
# Walking back along links

A store holds records under their keys; each record names the key of its predecessor and has a rank.
`walk` follows the links from a key down to rank 0, takes every record it visits out of the store,
and gives up when a record is missing or has another rank than the one expected.

`Chain` says what such a walk finds, lowest rank first. `walk_eq_some` says that the walk succeeds
exactly when there is such a chain: since ranks strictly decrease, taking visited records out never
matters. `store` and `tip` are the store a list of records fills and the record a walk starts from.
-/

namespace Backtrace

/-- How records are linked. -/
structure Links (K R : Type) where
  key : R → K
  prev : R → K
  rank : R → Int

variable {K R : Type} {L : Links K R} {m : K → Option R} {v : List R}

/-- The store without a key. -/
def erase [DecidableEq K] (m : K → Option R) (k : K) : K → Option R := fun k' =>
  if k' = k then none else m k'

/-- Visit `n` records, the first under `k`, with ranks `n - 1` down to 0. -/
def walk [DecidableEq K] (L : Links K R) : Nat → K → (K → Option R) → Option (List R)
  | 0, _, _ => some []
  | n + 1, k, m =>
    match m k with
    | none => none
    | some r => if L.rank r = n then (walk L n (L.prev r) (erase m k)).map (r :: ·) else none

/-- Records are stored under their own keys. -/
def Keyed (L : Links K R) (m : K → Option R) : Prop := ∀ k r, m k = some r → L.key r = k

/-- Stored records, each linked to the one before it, with ranks 0, 1, …. -/
structure Chain (L : Links K R) (m : K → Option R) (v : List R) : Prop where
  rank : ∀ (i : Nat) r, v[i]? = some r → L.rank r = i
  linked : v.IsChain fun r r' => L.prev r' = L.key r
  stored : ∀ r ∈ v, m (L.key r) = some r

/-- The last record of a chain is stored under this key. -/
def EndsAt (L : Links K R) (v : List R) (k : K) : Prop := ∀ r ∈ v.getLast?, L.key r = k

theorem Chain.nil : Chain L m [] where
  rank _ _ h := absurd h (by simp)
  linked := List.IsChain.nil
  stored _ h := absurd h List.not_mem_nil

/-- One record on top of a chain. -/
theorem chain_concat {r : R} :
    Chain L m (v ++ [r]) ↔
      Chain L m v ∧ EndsAt L v (L.prev r) ∧ L.rank r = v.length ∧ m (L.key r) = some r := by
  constructor
  · intro h
    obtain ⟨hv, -, hlast⟩ := List.isChain_append.mp h.linked
    refine ⟨⟨fun i r' hi => ?_, hv, fun r' hr' => h.stored r' (List.mem_append_left _ hr')⟩,
      fun r' hr' => (hlast r' hr' r (by simp)).symm, h.rank v.length r (by simp),
      h.stored r (by simp)⟩
    refine h.rank i r' ?_
    rw [List.getElem?_append_left (List.getElem?_eq_some_iff.mp hi).1, hi]
  · rintro ⟨h, hend, hrank, hstored⟩
    refine ⟨fun i r' hi => ?_, List.isChain_append.mpr ⟨h.linked, List.isChain_singleton r, ?_⟩,
      fun r' hr' => ?_⟩
    · by_cases hlt : i < v.length
      · rw [List.getElem?_append_left hlt] at hi
        exact h.rank i r' hi
      · rw [List.getElem?_append_right (by omega), List.getElem?_singleton] at hi
        split at hi
        · cases hi
          rw [hrank]
          omega
        · cases hi
    · intro r' hr' r'' hr''
      obtain rfl : r = r'' := by simpa using hr''
      exact (hend r' hr').symm
    · rcases List.mem_append.mp hr' with hr' | hr'
      · exact h.stored r' hr'
      · rw [List.mem_singleton.mp hr']
        exact hstored

/-- A chain stays one when more is stored. -/
theorem Chain.mono {m' : K → Option R} (h : Chain L m v)
    (hm : ∀ k r, m k = some r → m' k = some r) : Chain L m' v :=
  ⟨h.rank, h.linked, fun r hr => hm _ r (h.stored r hr)⟩

/-- A branch on top of a front part of a chain. -/
theorem Chain.branch {m' : K → Option R} {b : List R} {r : R} {fork : Nat} (h : Chain L m v)
    (hr : v[fork]? = some r) (hlinked : (r :: b).IsChain fun r r' => L.prev r' = L.key r)
    (hrank : ∀ (i : Nat) s, b[i]? = some s → L.rank s = ((fork + 1 + i : Nat) : Int))
    (hstored : ∀ s ∈ v.take (fork + 1) ++ b, m' (L.key s) = some s) :
    Chain L m' (v.take (fork + 1) ++ b) where
  rank i s hs := by
    have hlen : (v.take (fork + 1)).length = fork + 1 := by
      rw [List.length_take]
      have := (List.getElem?_eq_some_iff.mp hr).1
      omega
    by_cases hlt : i < fork + 1
    · rw [List.getElem?_append_left (by omega), List.getElem?_take_of_lt hlt] at hs
      exact h.rank i s hs
    · rw [List.getElem?_append_right (by omega), hlen] at hs
      rw [hrank _ s hs]
      omega
  linked := by
    refine List.isChain_append.mpr ⟨h.linked.take _, ?_, ?_⟩
    · exact (List.isChain_cons.mp hlinked).2
    · intro s hs s' hs'
      have hlast : (v.take (fork + 1)).getLast? = some r := by
        rw [List.getLast?_take, if_neg (Nat.succ_ne_zero _), Nat.add_sub_cancel, hr, Option.some_or]
      obtain rfl : r = s := Option.some.inj (hlast.symm.trans hs)
      exact (List.isChain_cons.mp hlinked).1 s' hs'
  stored := hstored

/-- **Two chains share a front part and nothing else**, when records under one key have the same
predecessor and rank in both. -/
theorem Chain.common {m' : K → Option R} {v' : List R} (h : Chain L m v) (h' : Chain L m' v')
    (hsame : ∀ r ∈ v, ∀ r' ∈ v', L.key r = L.key r' →
      L.prev r = L.prev r' ∧ L.rank r = L.rank r') :
    ∃ n : Nat, (∀ i < n, ∃ r r', v[i]? = some r ∧ v'[i]? = some r' ∧ L.key r = L.key r') ∧
      ∀ (i j : Nat) r r', v[i]? = some r → v'[j]? = some r' → L.key r = L.key r' → i < n := by
  classical
  -- being shared passes down the chain
  have hdown : ∀ i : Nat, (∃ r r', v[i + 1]? = some r ∧ v'[i + 1]? = some r' ∧ L.key r = L.key r') →
      ∃ r r', v[i]? = some r ∧ v'[i]? = some r' ∧ L.key r = L.key r' := by
    rintro i ⟨r, r', hr, hr', hkey⟩
    obtain ⟨hlt, rfl⟩ := List.getElem?_eq_some_iff.mp hr
    obtain ⟨hlt', rfl⟩ := List.getElem?_eq_some_iff.mp hr'
    have hprev := (hsame _ (List.getElem_mem hlt) _ (List.getElem_mem hlt') hkey).1
    rw [List.isChain_iff_getElem.mp h.linked i hlt,
      List.isChain_iff_getElem.mp h'.linked i hlt'] at hprev
    exact ⟨_, _, List.getElem?_eq_getElem (by omega), List.getElem?_eq_getElem (by omega), hprev⟩
  have hends : ∃ i : Nat, ¬ ∃ r r', v[i]? = some r ∧ v'[i]? = some r' ∧ L.key r = L.key r' := by
    refine ⟨v.length, ?_⟩
    rintro ⟨r, -, hr, -⟩
    exact absurd (List.getElem?_eq_some_iff.mp hr).1 (Nat.lt_irrefl _)
  refine ⟨Nat.find hends, fun i hi => not_not.mp (Nat.find_min hends hi), ?_⟩
  intro i j r r' hr hr' hkey
  have hrank := (hsame r (List.mem_of_getElem? hr) r' (List.mem_of_getElem? hr') hkey).2
  rw [h.rank i r hr, h'.rank j r' hr'] at hrank
  obtain rfl : i = j := by omega
  by_contra hge
  refine Nat.find_spec hends (Nat.decreasingInduction (fun k _ => hdown k) ⟨r, r', hr, hr', hkey⟩
    (Nat.le_of_not_lt hge))

/-- A chain never visits a key twice. -/
theorem Chain.keys_nodup (h : Chain L m v) : (v.map L.key).Nodup := by
  rw [List.Nodup, List.pairwise_map, List.pairwise_iff_getElem]
  intro i j hi hj hlt he
  have hrecord : v[i] = v[j] := by
    have hi' := h.stored _ (List.getElem_mem hi)
    have hj' := h.stored _ (List.getElem_mem hj)
    rw [he, hj'] at hi'
    exact (Option.some.inj hi').symm
  have hri := h.rank i _ (List.getElem?_eq_getElem hi)
  have hrj := h.rank j _ (List.getElem?_eq_getElem hj)
  rw [hrecord, hrj] at hri
  omega

section

variable [DecidableEq K]

theorem erase_eq_some {k k' : K} {r : R} : erase m k k' = some r ↔ k' ≠ k ∧ m k' = some r := by
  unfold erase
  split <;> simp_all

theorem Keyed.erase (hm : Keyed L m) (k : K) : Keyed L (erase m k) := fun k' r h =>
  hm k' r (erase_eq_some.mp h).2

/-- A record of too high a rank can be taken out before a walk. -/
theorem chain_erase {k : K} {r : R} (hk : m k = some r)
    (hrank : (v.length : Int) ≤ L.rank r) : Chain L (erase m k) v ↔ Chain L m v := by
  constructor
  · exact fun h => ⟨h.rank, h.linked, fun r' hr' => (erase_eq_some.mp (h.stored r' hr')).2⟩
  · refine fun h => ⟨h.rank, h.linked, fun r' hr' => erase_eq_some.mpr ⟨?_, h.stored r' hr'⟩⟩
    intro he
    have hsame := h.stored r' hr'
    rw [he, hk] at hsame
    obtain ⟨i, hi⟩ := List.getElem?_of_mem hr'
    have hlt := (List.getElem?_eq_some_iff.mp hi).1
    have := h.rank i r' hi
    rw [← Option.some.inj hsame] at this
    omega

/-- **A walk succeeds exactly when the store holds a chain of that length that ends at the key**,
and it visits the chain from its end. -/
theorem walk_eq_some : ∀ {n : Nat} {k : K} {m : K → Option R} {l : List R}, Keyed L m →
    (walk L n k m = some l ↔ Chain L m l.reverse ∧ l.length = n ∧ EndsAt L l.reverse k) := by
  intro n
  induction n with
  | zero =>
    intro k m l hm
    rw [walk]
    constructor
    · intro h
      cases h
      exact ⟨Chain.nil, rfl, fun _ h => absurd h (by simp)⟩
    · rintro ⟨-, hlen, -⟩
      rw [List.eq_nil_of_length_eq_zero hlen]
  | succ n ih =>
    intro k m l hm
    rw [walk]
    constructor
    · intro h
      cases hk : m k with
      | none => simp only [hk, reduceCtorEq] at h
      | some r =>
        simp only [hk, Option.ite_none_right_eq_some, Option.map_eq_some_iff] at h
        obtain ⟨hrank, rest, hwalk, rfl⟩ := h
        obtain ⟨hchain, hlen, hend⟩ := (ih (hm.erase k)).mp hwalk
        have hlen' : rest.reverse.length = n := by rw [List.length_reverse, hlen]
        have hchain := (chain_erase hk (by omega)).mp hchain
        have hkey := hm k r hk
        rw [List.reverse_cons]
        refine ⟨chain_concat.mpr ⟨hchain, hend, by rw [hrank, hlen'], by rw [hkey, hk]⟩, by
          rw [List.length_cons, hlen], fun r' hr' => ?_⟩
        obtain rfl : r = r' := by simpa using hr'
        exact hkey
    · rintro ⟨hchain, hlen, hend⟩
      cases l with
      | nil => cases hlen
      | cons r rest =>
        rw [List.reverse_cons] at hchain hend
        obtain ⟨hchain, hprev, hrank, hstored⟩ := chain_concat.mp hchain
        rw [List.length_reverse] at hrank
        rw [List.length_cons, Nat.add_right_cancel_iff] at hlen
        have hkey : L.key r = k := hend r (by simp)
        rw [hkey] at hstored
        have hwalk := (ih (hm.erase k)).mpr
          ⟨(chain_erase hstored (by rw [List.length_reverse]; omega)).mpr hchain, hlen, hprev⟩
        simp only [hstored, hwalk, Option.map_some]
        rw [if_pos (by omega)]

/-! ## The store that a list of records fills -/

/-- The last record of the list under each key. -/
def store (L : Links K R) (rs : List R) : K → Option R := fun k =>
  rs.reverse.find? fun r => L.key r = k

omit [DecidableEq K] in
/-- The first record of the greatest rank. -/
def tip (L : Links K R) (rs : List R) : Option R :=
  rs.find? fun t => ∀ r ∈ rs, L.rank r ≤ L.rank t

theorem keyed_store (rs : List R) : Keyed L (store L rs) := fun k r h => by
  simpa using List.find?_some h

theorem mem_of_store {rs : List R} {k : K} {r : R} (h : store L rs k = some r) : r ∈ rs :=
  List.mem_reverse.mp (List.mem_of_find?_eq_some h)

/-- With distinct keys, the last element with a key is the only one. -/
theorem find?_reverse_eq_some {key : R → K} {rs : List R} (hd : (rs.map key).Nodup)
    {k : K} {r : R} :
    (rs.reverse.find? fun r => key r = k) = some r ↔ r ∈ rs ∧ key r = k := by
  constructor
  · exact fun h => ⟨List.mem_reverse.mp (List.mem_of_find?_eq_some h), by
      simpa using List.find?_some h⟩
  · rintro ⟨hr, rfl⟩
    cases hfind : rs.reverse.find? fun r' => key r' = key r with
    | none =>
      exact absurd (decide_eq_true rfl) (List.find?_eq_none.mp hfind r (List.mem_reverse.mpr hr))
    | some r' =>
      have hmem := List.mem_reverse.mp (List.mem_of_find?_eq_some hfind)
      have hkey : key r' = key r := by simpa using List.find?_some hfind
      rw [List.inj_on_of_nodup_map hd hmem hr hkey]

/-- With distinct keys, every record is found under its own. -/
theorem store_eq_some {rs : List R} (hd : (rs.map L.key).Nodup) {k : K} {r : R} :
    store L rs k = some r ↔ r ∈ rs ∧ L.key r = k :=
  find?_reverse_eq_some hd

/-- With distinct keys, more records store more. -/
theorem store_mono {rs rs' : List R} (hd : (rs'.map L.key).Nodup) (hsub : rs ⊆ rs') {k : K} {r : R}
    (h : store L rs k = some r) : store L rs' k = some r :=
  (store_eq_some hd).mpr ⟨hsub (mem_of_store h), keyed_store rs k r h⟩

/-- A further element is the last one with its key. -/
theorem find?_reverse_concat (key : R → K) (rs : List R) (r : R) (k : K) :
    ((rs ++ [r]).reverse.find? fun r => key r = k) =
      if k = key r then some r else rs.reverse.find? fun r => key r = k := by
  rw [List.reverse_append, List.reverse_singleton, List.singleton_append, List.find?_cons]
  by_cases h : k = key r
  · rw [if_pos h]
    simp [h]
  · rw [if_neg h]
    simp [Ne.symm h]

/-- A further record replaces the one under its key. -/
theorem store_concat (rs : List R) (r : R) :
    store L (rs ++ [r]) = fun k => if k = L.key r then some r else store L rs k :=
  funext (find?_reverse_concat L.key rs r)

/-- A map that is filled by one insertion for each element has the value of the last one with a
key. -/
theorem foldl_insert_eq {V : Type} (key : R → K) (val : R → V) (rs : List R) :
    rs.foldl (fun (m : K → Option V) r k => if k = key r then some (val r) else m k)
        (fun _ => none) =
      fun k => (rs.reverse.find? fun r => key r = k).map val := by
  induction rs using List.reverseRecOn with
  | nil => rfl
  | append_singleton rs r ih =>
    rw [List.foldl_concat, ih]
    funext k
    rw [find?_reverse_concat]
    by_cases h : k = key r
    · rw [if_pos h, if_pos h, Option.map_some]
    · rw [if_neg h, if_neg h]

omit [DecidableEq K] in
theorem tip_eq_some {rs : List R} {t : R} (h : tip L rs = some t) :
    t ∈ rs ∧ ∀ r ∈ rs, L.rank r ≤ L.rank t :=
  ⟨List.mem_of_find?_eq_some h, by simpa using List.find?_some h⟩

omit [DecidableEq K] in
/-- A further record of a greater rank is the tip. -/
theorem tip_concat_of_gt {rs : List R} {r : R} (h : ∀ r' ∈ rs, L.rank r' < L.rank r) :
    tip L (rs ++ [r]) = some r := by
  have hnone : rs.find? (fun t => ∀ r' ∈ rs ++ [r], L.rank r' ≤ L.rank t) = none := by
    refine List.find?_eq_none.mpr fun r' hr' hmax => ?_
    have hle := of_decide_eq_true hmax r (by simp)
    have hlt := h r' hr'
    omega
  have hmax : ∀ r' ∈ rs ++ [r], L.rank r' ≤ L.rank r := by
    intro r' hr'
    rcases List.mem_append.mp hr' with hr' | hr'
    · exact Int.le_of_lt (h r' hr')
    · exact Int.le_of_eq (congrArg L.rank (List.mem_singleton.mp hr'))
  rw [tip, List.find?_append, hnone, Option.none_or, List.find?_cons, decide_eq_true hmax]

omit [DecidableEq K] in
/-- A further record of no greater rank leaves the tip. -/
theorem tip_concat_of_le {rs : List R} {r t : R} (ht : tip L rs = some t)
    (h : L.rank r ≤ L.rank t) : tip L (rs ++ [r]) = some t := by
  obtain ⟨hmax, pre, post, hsplit, hpre⟩ := List.find?_eq_some_iff_append.mp ht
  refine List.find?_eq_some_iff_append.mpr ⟨decide_eq_true fun r' hr' => ?_, pre, post ++ [r], ?_,
    fun r' hr' => ?_⟩
  · rcases List.mem_append.mp hr' with hr' | hr'
    · exact of_decide_eq_true hmax r' hr'
    · rw [List.mem_singleton.mp hr']
      exact h
  · rw [hsplit, List.append_assoc, List.cons_append]
  · have hnot := hpre r' hr'
    simp only [Bool.not_eq_true', decide_eq_false_iff_not] at hnot ⊢
    exact fun hall => hnot fun r'' hr'' => hall r'' (List.mem_append_left _ hr'')

omit [DecidableEq K] in
/-- Any records at all have a tip. -/
theorem tip_eq_none {rs : List R} : tip L rs = none ↔ rs = [] := by
  refine ⟨fun h => ?_, fun h => by rw [h]; rfl⟩
  induction rs using List.reverseRecOn with
  | nil => rfl
  | append_singleton rs r ih =>
    cases ht : tip L rs with
    | none => rw [ih ht, tip_concat_of_gt (fun _ h => absurd h List.not_mem_nil)] at h; cases h
    | some t =>
      by_cases hle : L.rank r ≤ L.rank t
      · rw [tip_concat_of_le ht hle] at h
        cases h
      · rw [tip_concat_of_gt fun r' hr' => by have := (tip_eq_some ht).2 r' hr'; omega] at h
        cases h

omit [DecidableEq K] in
/-- The only record of the greatest rank is the tip, wherever it stands. -/
theorem tip_of_unique {rs : List R} {t : R} (ht : t ∈ rs)
    (hmax : ∀ r ∈ rs, r ≠ t → L.rank r < L.rank t) : tip L rs = some t := by
  cases htip : tip L rs with
  | none => exact absurd ht (tip_eq_none.mp htip ▸ List.not_mem_nil)
  | some t' =>
    obtain ⟨hmem, hall⟩ := tip_eq_some htip
    by_contra hne
    have hlt := hmax t' hmem fun he => hne (congrArg some he)
    have := hall t ht
    omega

omit [DecidableEq K] in
/-- A further record is the tip when its rank is greater than the greatest so far. -/
theorem tip_concat (rs : List R) (r : R) :
    tip L (rs ++ [r]) = match tip L rs with
      | some t => if L.rank r > L.rank t then some r else some t
      | none => some r := by
  cases ht : tip L rs with
  | none =>
    rw [tip_eq_none.mp ht]
    exact tip_concat_of_gt fun _ h => absurd h List.not_mem_nil
  | some t =>
    by_cases hgt : L.rank r > L.rank t
    · rw [tip_concat_of_gt fun r' hr' => by have := (tip_eq_some ht).2 r' hr'; omega]
      exact (if_pos hgt).symm
    · rw [tip_concat_of_le ht (by omega)]
      exact (if_neg hgt).symm

end

end Backtrace
