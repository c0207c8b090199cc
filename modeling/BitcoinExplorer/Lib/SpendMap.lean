import Mathlib.Data.List.Nodup
import Mathlib.Logic.Function.Basic

/-!
# Partial maps whose entries are put once and taken once

A partial map from keys to values as a function, with three operations: put a list of entries
(a later entry replaces an earlier one), erase a list of keys, and take a list of keys one by one,
each of which must be present when its turn comes.

* `putAll_of_mem`, `putAll_of_not_mem`: lookup after a put.
* **`takeAll_eq_some`**: taking keys one by one succeeds exactly when they are distinct and all
  present at the start, and leaves the map with them erased.
-/

namespace SpendMap

variable {K V : Type} [DecidableEq K]

/-- Put the entries, in order. -/
def putAll (m : K → Option V) (entries : List (K × V)) : K → Option V :=
  entries.foldl (fun m e => Function.update m e.1 (some e.2)) m

/-- Erase the keys. -/
def eraseAll (m : K → Option V) (ks : List K) : K → Option V :=
  fun k => if k ∈ ks then none else m k

/-- Take the keys one by one: their values and the map left. -/
def takeAll (m : K → Option V) : List K → Option (List V × (K → Option V))
  | [] => some ([], m)
  | k :: ks =>
    (m k).bind fun v => (takeAll (Function.update m k none) ks).map fun p => (v :: p.1, p.2)

@[simp] theorem putAll_nil (m : K → Option V) : putAll m [] = m := rfl

theorem putAll_cons (m : K → Option V) (e : K × V) (es : List (K × V)) :
    putAll m (e :: es) = putAll (Function.update m e.1 (some e.2)) es := rfl

theorem putAll_append (m : K → Option V) (es es' : List (K × V)) :
    putAll m (es ++ es') = putAll (putAll m es) es' :=
  List.foldl_append

/-- A put leaves the other keys alone. -/
theorem putAll_of_not_mem {es : List (K × V)} {k : K} (h : ∀ v, (k, v) ∉ es)
    (m : K → Option V) : putAll m es k = m k := by
  induction es generalizing m with
  | nil => rfl
  | cons e es ih =>
    rw [putAll_cons, ih fun v hv => h v (List.mem_cons_of_mem _ hv)]
    refine Function.update_of_ne ?_ _ _
    rintro rfl
    exact h e.2 List.mem_cons_self

/-- A put key has the value of its entries, when they agree. -/
theorem putAll_of_mem {es : List (K × V)} {k : K} {v : V} (hmem : (k, v) ∈ es)
    (h : ∀ v', (k, v') ∈ es → v' = v) (m : K → Option V) : putAll m es k = some v := by
  induction es generalizing m with
  | nil => exact absurd hmem List.not_mem_nil
  | cons e es ih =>
    rw [putAll_cons]
    by_cases hk : ∃ v', (k, v') ∈ es
    · obtain ⟨v', hv'⟩ := hk
      obtain rfl := h v' (List.mem_cons_of_mem _ hv')
      exact ih hv' (fun w hw => h w (List.mem_cons_of_mem _ hw)) _
    · rw [putAll_of_not_mem (fun w hw => hk ⟨w, hw⟩)]
      rcases List.mem_cons.mp hmem with rfl | hmem
      · exact Function.update_self _ _ _
      · exact absurd ⟨v, hmem⟩ hk

/-- A value found after a put is one of the entries' or was there before. -/
theorem mem_of_putAll {es : List (K × V)} {m : K → Option V} {k : K} {v : V}
    (h : putAll m es k = some v) : (k, v) ∈ es ∨ m k = some v := by
  induction es generalizing m with
  | nil => exact Or.inr h
  | cons e es ih =>
    rw [putAll_cons] at h
    rcases ih h with hmem | hold
    · exact Or.inl (List.mem_cons_of_mem _ hmem)
    · by_cases hk : k = e.1
      · rw [hk, Function.update_self] at hold
        obtain rfl := Option.some.inj hold
        exact Or.inl (hk ▸ List.mem_cons_self)
      · rw [Function.update_of_ne hk] at hold
        exact Or.inr hold

/-- A put under an injective renaming of the keys, where `enc` encodes what `dec` decodes, puts the
decoded values. -/
theorem putAll_map {K' V' : Type} [DecidableEq K'] {κ : K → K'} (hκ : Function.Injective κ)
    {enc : V → V'} {dec : V' → Option V} : ∀ {es : List (K × V)},
    (∀ e ∈ es, dec (enc e.2) = some e.2) → ∀ {m : K → Option V} {db : K' → Option V'},
    (∀ k, (db (κ k)).bind dec = m k) →
      ∀ k, (putAll db (es.map fun e => (κ e.1, enc e.2)) (κ k)).bind dec = putAll m es k
  | [], _, _, _, h => h
  | e :: es, hdec, m, db, h => by
    rw [List.map_cons, putAll_cons]
    refine putAll_map (m := Function.update m e.1 (some e.2)) hκ
      (fun e' he' => hdec e' (List.mem_cons_of_mem _ he')) fun k => ?_
    dsimp only
    by_cases hk : k = e.1
    · rw [hk, Function.update_self, Function.update_self]
      exact hdec e List.mem_cons_self
    · rw [Function.update_of_ne hk, Function.update_of_ne fun he => hk (hκ he)]
      exact h k

@[simp] theorem eraseAll_nil (m : K → Option V) : eraseAll m [] = m := by
  funext k
  simp [eraseAll]

theorem eraseAll_cons (m : K → Option V) (k : K) (ks : List K) :
    eraseAll m (k :: ks) = eraseAll (Function.update m k none) ks := by
  funext k'
  unfold eraseAll
  by_cases hk : k' = k
  · subst hk
    simp
  · simp [hk]

/-- **Taking keys one by one** succeeds exactly when they are distinct and all present. -/
theorem takeAll_eq_some {ks : List K} : ∀ {m m' : K → Option V} {vs : List V},
    takeAll m ks = some (vs, m') ↔ ks.Nodup ∧ ks.map m = vs.map some ∧ m' = eraseAll m ks := by
  induction ks with
  | nil =>
    intro m m' vs
    rw [takeAll, Option.some.injEq, Prod.mk.injEq, eraseAll_nil]
    constructor
    · rintro ⟨rfl, rfl⟩
      exact ⟨List.nodup_nil, rfl, rfl⟩
    · rintro ⟨-, h, rfl⟩
      exact ⟨(List.map_eq_nil_iff.mp h.symm).symm, rfl⟩
  | cons k ks ih =>
    intro m m' vs
    -- the other keys are looked up in a map that differs from `m` at `k` only
    have hmap : ks.Nodup → ∀ ws : List V, ks.map (Function.update m k none) = ws.map some ↔
        k ∉ ks ∧ ks.map m = ws.map some := by
      intro _ ws
      by_cases hk : k ∈ ks
      · refine iff_of_false (fun h => ?_) fun h => h.1 hk
        have : none ∈ ws.map some :=
          h ▸ List.mem_map.mpr ⟨k, hk, Function.update_self k none m⟩
        simp at this
      · have : ks.map (Function.update m k none) = ks.map m :=
          List.map_congr_left fun k' hk' => Function.update_of_ne (ne_of_mem_of_not_mem hk' hk) _ _
        rw [this]
        exact ⟨fun h => ⟨hk, h⟩, fun h => h.2⟩
    rw [takeAll, Option.bind_eq_some_iff, eraseAll_cons, List.nodup_cons, List.map_cons]
    constructor
    · rintro ⟨v, hv, h⟩
      obtain ⟨⟨ws, m₁⟩, htake, he⟩ := Option.map_eq_some_iff.mp h
      obtain ⟨rfl, rfl⟩ := Prod.mk.inj he
      obtain ⟨hnd, hws, rfl⟩ := ih.mp htake
      obtain ⟨hk, hm⟩ := (hmap hnd ws).mp hws
      exact ⟨⟨hk, hnd⟩, by rw [hv, hm, List.map_cons], rfl⟩
    · rintro ⟨⟨hk, hnd⟩, hvs, rfl⟩
      cases vs with
      | nil => exact absurd hvs (by simp)
      | cons v ws =>
        rw [List.map_cons, List.cons.injEq] at hvs
        refine ⟨v, hvs.1, ?_⟩
        rw [ih.mpr ⟨hnd, (hmap hnd ws).mpr ⟨hk, hvs.2⟩, rfl⟩, Option.map_some]

/-- Taking one list of keys after another. -/
theorem takeAll_append (m : K → Option V) (ks ks' : List K) :
    takeAll m (ks ++ ks') = (takeAll m ks).bind fun p =>
      (takeAll p.2 ks').map fun q => (p.1 ++ q.1, q.2) := by
  induction ks generalizing m with
  | nil =>
    rw [List.nil_append, takeAll, Option.bind_some]
    exact Option.map_id'.symm
  | cons k ks ih =>
    rw [List.cons_append, takeAll, takeAll]
    cases m k with
    | none => rfl
    | some v =>
      simp only [Option.bind_some, ih]
      cases takeAll (Function.update m k none) ks with
      | none => rfl
      | some p => simp [Option.map_map, Function.comp_def]

/-- The keys taken after a first one are untouched by it. -/
theorem takeAll_update_of_mem {m m' : K → Option V} {k k' : K} {ks : List K} {vs : List V}
    (h : takeAll (Function.update m k none) ks = some (vs, m')) (hk : k' ∈ ks) :
    Function.update m k none k' = m k' := by
  obtain ⟨-, hmap, -⟩ := takeAll_eq_some.mp h
  refine Function.update_of_ne ?_ _ _
  rintro rfl
  have : none ∈ vs.map some := hmap ▸ List.mem_map.mpr ⟨k', hk, Function.update_self k' none m⟩
  simp at this

/-- The keys taken after a list of others are untouched by those. -/
theorem takeAll_takeAll_of_mem {m m₁ m₂ : K → Option V} {ks ks' : List K} {vs vs' : List V}
    (h : takeAll m ks = some (vs, m₁)) (h' : takeAll m₁ ks' = some (vs', m₂)) {k : K}
    (hk : k ∈ ks') : m₁ k = m k := by
  obtain ⟨-, -, rfl⟩ := takeAll_eq_some.mp h
  obtain ⟨-, hmap, -⟩ := takeAll_eq_some.mp h'
  refine if_neg fun hks => ?_
  have : none ∈ vs'.map some := hmap ▸ List.mem_map.mpr ⟨k, hk, if_pos hks⟩
  simp at this

omit [DecidableEq K] in
/-- Keys that are all present have values. -/
theorem exists_map_some {m : K → Option V} : ∀ {ks : List K},
    (∀ k ∈ ks, (m k).isSome = true) → ∃ vs : List V, ks.map m = vs.map some
  | [], _ => ⟨[], rfl⟩
  | k :: ks, h => by
    obtain ⟨v, hv⟩ := Option.isSome_iff_exists.mp (h k List.mem_cons_self)
    obtain ⟨vs, hvs⟩ := exists_map_some fun k' hk' => h k' (List.mem_cons_of_mem _ hk')
    exact ⟨v :: vs, by rw [List.map_cons, List.map_cons, hv, hvs]⟩

end SpendMap
