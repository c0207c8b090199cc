import BitcoinExplorer.Lib.Codec

/-!
# Byte strings read item by item

`d.items s` reads items off the front of `s` until nothing is left; an item that cannot be read ends
the list. What a decoder takes off is a word of the value it returns, whatever follows
(`run_eq_some_iff`), so a string whose items are all values is the concatenation of their words
(`items_eq_map_some`), of these words and of no others (`Advances.words_unique`).
-/

namespace ByteStream.Decoder

variable {α : Type}

/-- A run that succeeds has taken a word of the value off the front. -/
theorem run_eq_some_iff {d : Decoder α} {s rest : List UInt8} {a : α} :
    d.run s = some (a, rest) ↔ ∃ w, d.Inverts a w ∧ s = w ++ rest := by
  constructor
  · intro h
    induction d generalizing s with
    | done b =>
      obtain ⟨rfl, rfl⟩ := Prod.mk.inj (Option.some.inj h)
      exact ⟨[], inverts_done b, rfl⟩
    | fail => cases h
    | readExact n k ih =>
      rw [run] at h
      split at h
      · rename_i hn
        obtain ⟨w, hw, hrest⟩ := ih _ h
        refine ⟨s.take n ++ w, inverts_readExact (List.length_take_of_le hn) hw, ?_⟩
        rw [List.append_assoc, ← hrest, List.take_append_drop]
      · cases h
  · rintro ⟨w, hw, rfl⟩
    exact hw rest

/-- The words of a value are the strings read as that value and nothing else. -/
theorem inverts_iff_run {d : Decoder α} {w : List UInt8} {a : α} :
    d.Inverts a w ↔ d.run w = some (a, []) := by
  rw [run_eq_some_iff]
  constructor
  · intro h
    exact ⟨w, h, by rw [List.append_nil]⟩
  · rintro ⟨w', h, rfl⟩
    rwa [List.append_nil]

/-- Every word has at least one byte. -/
def Advances (d : Decoder α) : Prop := ∀ a, ¬ d.Inverts a []

/-- The items of a string of at most `fuel` bytes. -/
def itemsAux (d : Decoder α) : Nat → List UInt8 → List (Option α)
  | 0, _ => []
  | _ + 1, [] => []
  | fuel + 1, b :: s =>
    match d.run (b :: s) with
    | none => [none]
    | some (a, rest) => some a :: itemsAux d fuel rest

/-- The items of a string: values, or `none` as the last one where no item can be read. -/
def items (d : Decoder α) (s : List UInt8) : List (Option α) := d.itemsAux s.length s

theorem items_cons {d : Decoder α} {b : UInt8} {s rest : List UInt8} {a : α}
    (h : d.run (b :: s) = some (a, rest)) : (d.items (b :: s)).head? = some (some a) := by
  rw [items, List.length_cons, itemsAux, h, List.head?_cons]

theorem Advances.length_pos {d : Decoder α} (hd : d.Advances) {a : α} {w : List UInt8}
    (hw : d.Inverts a w) : 0 < w.length :=
  List.length_pos_iff.mpr fun hnil => hd a (hnil ▸ hw)

/-- The empty string has no item. -/
theorem Advances.nil_iff {d : Decoder α} (hd : d.Advances) (as : List α) :
    [] = as.map some ↔ ∃ words, List.Forall₂ d.Inverts as words ∧ [] = words.flatten := by
  cases as with
  | nil => exact ⟨fun _ => ⟨[], .nil, rfl⟩, fun _ => rfl⟩
  | cons a as =>
    constructor
    · intro h
      cases h
    · rintro ⟨words, hwords, hflat⟩
      cases hwords with
      | cons hw hws =>
        have hlen := congrArg List.length hflat
        have hpos := hd.length_pos hw
        rw [List.length_nil, List.flatten_cons, List.length_append] at hlen
        omega

theorem itemsAux_eq_map_some {d : Decoder α} (hd : d.Advances) {fuel : Nat} {s : List UInt8}
    (hs : s.length ≤ fuel) (as : List α) :
    d.itemsAux fuel s = as.map some ↔
      ∃ words, List.Forall₂ d.Inverts as words ∧ s = words.flatten := by
  induction fuel generalizing s as with
  | zero =>
    obtain rfl := List.eq_nil_of_length_eq_zero (Nat.le_zero.mp hs)
    exact hd.nil_iff as
  | succ fuel ih =>
    cases s with
    | nil => exact hd.nil_iff as
    | cons b s =>
      constructor
      · intro h
        rw [itemsAux] at h
        split at h
        · cases as with
          | nil => cases h
          | cons a as => cases h
        · rename_i a rest hrun
          cases as with
          | nil => cases h
          | cons a' as =>
            obtain ⟨ha, hrest⟩ := List.cons.inj h
            obtain rfl := Option.some.inj ha
            obtain ⟨w, hw, hsplit⟩ := run_eq_some_iff.mp hrun
            have hlen := congrArg List.length hsplit
            have hpos := hd.length_pos hw
            rw [List.length_append] at hlen
            obtain ⟨words, hwords, hflat⟩ := (ih (by omega) as).mp hrest
            exact ⟨w :: words, .cons hw hwords, by rw [hsplit, hflat, List.flatten_cons]⟩
      · rintro ⟨words, hwords, hflat⟩
        cases hwords with
        | nil => cases hflat
        | @cons a w as words hw hwords =>
          have hlen := congrArg List.length hflat
          have hpos := hd.length_pos hw
          rw [List.flatten_cons, List.length_append] at hlen
          have hrun : d.run (b :: s) = some (a, words.flatten) := by
            rw [hflat]
            exact hw _
          rw [itemsAux, hrun, List.map_cons]
          dsimp only
          rw [(ih (by omega) as).mpr ⟨words, hwords, rfl⟩]

/-- A string is the concatenation of the words of values in one way only. -/
theorem Advances.words_unique {d : Decoder α} (hd : d.Advances) {as bs : List α}
    {us vs : List (List UInt8)} (hu : List.Forall₂ d.Inverts as us)
    (hv : List.Forall₂ d.Inverts bs vs) (h : us.flatten = vs.flatten) : as = bs ∧ us = vs := by
  induction hu generalizing bs vs with
  | nil =>
    obtain rfl := List.map_eq_nil_iff.mp ((hd.nil_iff bs).mpr ⟨vs, hv, h⟩).symm
    cases hv
    exact ⟨rfl, rfl⟩
  | @cons a u as us hu hus ih =>
    cases hv with
    | nil =>
      have hnil := (hd.nil_iff (a :: as)).mpr ⟨u :: us, .cons hu hus, h.symm⟩
      cases hnil
    | @cons b v bs vs hv hvs =>
      rw [List.flatten_cons, List.flatten_cons] at h
      -- the first word is what a run takes off the string
      obtain ⟨rfl, hrest⟩ := Prod.mk.inj (Option.some.inj
        ((hu us.flatten).symm.trans ((congrArg d.run h).trans (hv vs.flatten))))
      obtain ⟨rfl, rfl⟩ := ih hvs hrest
      exact ⟨rfl, by rw [List.append_cancel_right h]⟩

/-- **A string whose items are all values is the concatenation of their words.** -/
theorem items_eq_map_some {d : Decoder α} (hd : d.Advances) {s : List UInt8} {as : List α} :
    d.items s = as.map some ↔ ∃ words, List.Forall₂ d.Inverts as words ∧ s = words.flatten :=
  itemsAux_eq_map_some hd (Nat.le_refl _) as

end ByteStream.Decoder
