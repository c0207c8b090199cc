import BitcoinExplorer.Lib.Outline
import BitcoinExplorer.Lib.Schedules
import Mathlib.Data.DFinsupp.WellFounded
import Mathlib.Order.Fin.Basic

/-!
# Every schedule of a pipeline ends, and what it delivers

Each task's program is a well-founded tree and each step of a scheduler shortens one of them, hands
one task on, or takes one result.

* **`Reachable.terminates`**: no schedule goes on forever; with `progress`, every one comes to the
  consumer's end (`Reachable.ends`).
* `Delivers`: the consumer has seen exactly the expected results so far, has not been stopped, and
  some step is enabled until it has seen them all.
* `Outline.Succeeds.delivers`: a proof outline whose tasks only return `Ok` delivers.
* `emitted_eq_take`: if every schedule delivers, each emits a front part of what the sequential one
  emits.
-/

namespace Conc

open Rust

variable {M : Machine} {ε α β γ : Type}

namespace Prog

/-- What is left of a program after one operation. -/
def Next (q p : Prog M α) : Prop := ∃ o k r, p = op o k ∧ q = k r

theorem wellFounded_next : WellFounded (Next (M := M) (α := α)) := by
  refine ⟨fun p => ?_⟩
  induction p with
  | ret a =>
    refine ⟨_, ?_⟩
    rintro q ⟨o, k, r, h, -⟩
    exact Prog.noConfusion rfl rfl (heq_of_eq h)
  | op o k ih =>
    refine ⟨_, ?_⟩
    rintro q ⟨o', k', r, h, rfl⟩
    cases h
    exact ih r

/-- The same in stage 2, where a task not yet handed on has everything still to do. -/
def NextHanded : Option (Prog M α) → Option (Prog M α) → Prop
  | some q, some p => Next q p
  | some _, none => True
  | none, _ => False

theorem wellFounded_nextHanded : WellFounded (NextHanded (M := M) (α := α)) := by
  have hsome : ∀ p : Prog M α, Acc NextHanded (some p) := by
    intro p
    induction p using wellFounded_next.induction with
    | _ p ih =>
      refine ⟨_, ?_⟩
      rintro (_ | q) h
      · exact h.elim
      · exact ih q h
  refine ⟨?_⟩
  rintro (_ | p)
  · refine ⟨_, ?_⟩
    rintro (_ | q) h
    · exact h.elim
    · exact hsome q
  · exact hsome p

end Prog

namespace Pipeline

variable (P : Pipeline M ε β γ)

/-- What is left of a run: the tasks' programs in stage 1 and in stage 2, the results not yet taken,
and whether the consumer is still running. -/
def remaining (s : Config M ε β γ) :
    (Fin P.len → Prog M (Outcome ε β)) × (Fin P.len → Option (Prog M (Outcome ε γ))) × Nat × Nat :=
  (fun h => s.work1 h, fun h => s.work2 h, P.len - s.emitted.length, if s.stopped then 0 else 1)

/-- A run has less left: in stage 1, else in stage 2, else at the consumer. -/
def Less : (Fin P.len → Prog M (Outcome ε β)) × (Fin P.len → Option (Prog M (Outcome ε γ))) ×
      Nat × Nat →
    (Fin P.len → Prog M (Outcome ε β)) × (Fin P.len → Option (Prog M (Outcome ε γ))) ×
      Nat × Nat → Prop :=
  Prod.Lex (Pi.Lex (· < ·) fun {_} => Prog.Next)
    (Prod.Lex (Pi.Lex (· < ·) fun {_} => Prog.NextHanded) (Prod.Lex (· < ·) (· < ·)))

theorem wellFounded_less : WellFounded P.Less :=
  WellFounded.prod_lex (Pi.Lex.wellFounded _ fun _ => Prog.wellFounded_next)
    (WellFounded.prod_lex (Pi.Lex.wellFounded _ fun _ => Prog.wellFounded_nextHanded)
      (WellFounded.prod_lex Nat.lt_wfRel.wf Nat.lt_wfRel.wf))

variable {P}

/-- Changing one component to a smaller one makes a lexicographically smaller family. -/
theorem lex_update {n : Nat} {δ : Type} {r : δ → δ → Prop} (f : Nat → δ) (i : Fin n) {y : δ}
    (h : r y (f i)) :
    Pi.Lex (· < ·) (fun {_ : Fin n} => r) (fun j : Fin n => Function.update f i.val y j)
      fun j => f j := by
  refine ⟨i, fun j hj => ?_, ?_⟩
  · exact Function.update_of_ne (by simpa using (Fin.lt_def.mp hj).ne) _ _
  · simpa only [Function.update_self] using h

/-- Every step leaves less. -/
theorem less_of_act {s s' : Config M ε β γ} {a : Action} (hw : Wf P s)
    (h : P.act s a = some s') : P.Less (P.remaining s') (P.remaining s) := by
  obtain ⟨j, o, k, -, hj, hwj, rfl⟩ | ⟨j, b, -, hj, -, hn, -, rfl⟩ | ⟨j, o, k, -, hwj, rfl⟩ |
    ⟨c, -, hwc, -, rfl⟩ | ⟨-, hs, -, rfl⟩ := act_cases h
  · exact Prod.Lex.left _ _ (lex_update s.work1 ⟨j, hj⟩ ⟨o, k, _, hwj, rfl⟩)
  · refine Prod.Lex.right _ (Prod.Lex.left _ _ (lex_update s.work2 ⟨j, hj⟩ ?_))
    dsimp only
    rw [hn]
    trivial
  · have hj := (hw.handed j _ hwj).1
    refine Prod.Lex.right _ (Prod.Lex.left _ _ (lex_update s.work2 ⟨j, hj⟩ ?_))
    dsimp only
    rw [hwj]
    exact ⟨o, k, _, rfl, rfl⟩
  · have hlt := (hw.handed _ _ hwc).1
    refine Prod.Lex.right _ (Prod.Lex.right _ (Prod.Lex.left _ _ ?_))
    dsimp only
    rw [List.length_append, List.length_singleton]
    omega
  · refine Prod.Lex.right _ (Prod.Lex.right _ (Prod.Lex.right _ ?_))
    simp [hs]

/-- **No schedule goes on forever.** -/
theorem Reachable.terminates {σ : M.State} {s : Config M ε β γ} (h : P.Reachable σ s) :
    Acc (fun t s => ∃ a, P.act s a = some t) s := by
  -- induction on what is left; a step keeps the bookkeeping that bounds it
  generalize hm : P.remaining s = m
  induction m using P.wellFounded_less.induction generalizing s with
  | _ m ih =>
    refine ⟨_, ?_⟩
    rintro t ⟨a, ha⟩
    exact ih _ (hm ▸ less_of_act h.wf ha) (.step a h ha) rfl

/-- Whatever the scheduler does, the run comes to its end. -/
structure Ends (P : Pipeline M ε β γ) (s : Config M ε β γ) : Prop where
  enabled : P.Complete s ∨ ∃ a t, P.act s a = some t
  finite : Acc (fun t s => ∃ a, P.act s a = some t) s

theorem Reachable.ends {σ : M.State} {s : Config M ε β γ} (h : P.Reachable σ s) : P.Ends s where
  enabled := by
    by_cases hs : s.stopped = true
    · exact Or.inl (Or.inl hs)
    · rcases Nat.lt_or_eq_of_le h.wf.emitted_le with hlt | hlen
      · exact Or.inr (progress (by simpa using hs) hlt)
      · exact Or.inl (Or.inr hlen)
  finite := h.terminates

/-! ## Delivery -/

/-- A configuration on its way to the expected results: no task has failed, the consumer has seen
the first results and no others, and every schedule from here reaches the last one. -/
structure Delivers (P : Pipeline M ε β γ) (expected : Nat → Option γ) (s : Config M ε β γ) :
    Prop where
  stage1 : ∀ h r, h < P.len → s.work1 h = .ret r → r.isOk = true
  stage2 : ∀ h r, s.work2 h = some (.ret r) → ∃ c, expected h = some c ∧ r = .ok c
  running : s.stopped = false
  emitted_le : s.emitted.length ≤ P.len
  emitted : s.emitted.map some = (List.range s.emitted.length).map expected
  enabled : s.emitted.length < P.len → ∃ a t, P.act s a = some t
  ends : Acc (fun t s => ∃ a, P.act s a = some t) s

end Pipeline

/-- **An outline whose tasks only return `Ok` delivers.** -/
theorem Outline.Succeeds.delivers {P : Pipeline M ε β γ} {G : Type} {O : Outline P G}
    {expected : Nat → Option γ} (hO : O.Succeeds expected) {σ : M.State} {s : Config M ε β γ}
    (hr : P.Reachable σ s) {g : G} (hh : O.Holds g s) : P.Delivers expected s where
  stage1 h _ hlt hw := hO.ok1 hlt (hw ▸ hh.task1 h hlt)
  stage2 _ _ hw := hO.result hh hw
  running := hO.not_stopped hr.wf hh
  emitted_le := hr.wf.emitted_le
  emitted := hO.emitted_eq hr.wf hh
  enabled := Pipeline.progress (hO.not_stopped hr.wf hh)
  ends := hr.terminates

namespace Pipeline

section

variable {P : Pipeline M ε β γ} {σ : M.State} {expected : Nat → Option γ}

/-- A consumer that is at its end has every result. -/
theorem Delivers.length_of_complete {s : Config M ε β γ} (hd : P.Delivers expected s)
    (hC : P.Complete s) : s.emitted.length = P.len := by
  rcases hC with hs | hl
  · rw [hd.running] at hs
    exact absurd hs Bool.false_ne_true
  · exact hl

/-- When every schedule delivers, so does the sequential one. -/
theorem sequential_eq (hall : ∀ s, P.Reachable σ s → P.Delivers expected s) :
    (P.sequential P.len 0 σ).map some = (List.range P.len).map expected := by
  obtain ⟨s, hr, hC, he⟩ := P.sequential_run σ
  have hd := hall s hr
  rw [← he, hd.emitted, hd.length_of_complete hC]

/-- One after the other, task `h` gives the expected result `h`. -/
theorem sequential_getElem? (hall : ∀ s, P.Reachable σ s → P.Delivers expected s) {h : Nat}
    (hlt : h < P.len) : (P.sequential (h + 1) 0 σ)[h]? = expected h := by
  have hseq : ((P.sequential P.len 0 σ).map some)[h]? = ((List.range P.len).map expected)[h]? := by
    rw [sequential_eq hall]
  rw [List.getElem?_map, List.getElem?_map, List.getElem?_range hlt, Option.map_some] at hseq
  obtain ⟨c, hc, he⟩ := Option.map_eq_some_iff.mp hseq
  rw [sequential_take (Nat.succ_le_of_lt hlt),
    List.getElem?_take_of_lt (Nat.lt_succ_self h), hc, he]

/-- **When every schedule delivers, each emits a front part of what the sequential one emits**, and
a complete one all of it. -/
theorem emitted_eq_take (hall : ∀ s, P.Reachable σ s → P.Delivers expected s)
    {s : Config M ε β γ} (hr : P.Reachable σ s) :
    s.emitted = (P.sequential P.len 0 σ).take s.emitted.length := by
  have hd := hall s hr
  apply List.map_injective_iff.mpr (Option.some_injective γ)
  rw [List.map_take, sequential_eq hall, ← List.map_take, List.take_range,
    Nat.min_eq_left hd.emitted_le]
  exact hd.emitted

theorem emitted_eq_sequential (hall : ∀ s, P.Reachable σ s → P.Delivers expected s)
    {s : Config M ε β γ} (hr : P.Reachable σ s) (hC : P.Complete s) :
    s.emitted = P.sequential P.len 0 σ := by
  have hseq := congrArg List.length (sequential_eq hall)
  rw [List.length_map, List.length_map, List.length_range] at hseq
  rw [emitted_eq_take hall hr, (hall s hr).length_of_complete hC]
  exact List.take_of_length_le hseq.le

end

/-- Of two lists that each begin the same sequence of results, one begins the other. -/
theorem prefix_or_prefix {expected : Nat → Option γ} {l l' : List γ}
    (h : ∀ i c, l[i]? = some c → expected i = some c)
    (h' : ∀ i c, l'[i]? = some c → expected i = some c) : l <+: l' ∨ l' <+: l := by
  have key : ∀ {k k' : List γ}, (∀ i c, k[i]? = some c → expected i = some c) →
      (∀ i c, k'[i]? = some c → expected i = some c) → k.length ≤ k'.length → k <+: k' := by
    intro k k' hk hk' hle
    rw [List.prefix_iff_getElem?]
    intro i hi
    have hi' : i < k'.length := by omega
    have he := hk i k[i] (List.getElem?_eq_getElem hi)
    rw [hk' i k'[i] (List.getElem?_eq_getElem hi')] at he
    rw [List.getElem?_eq_getElem hi', he]
  rcases Nat.le_total l.length l'.length with hle | hle
  · exact Or.inl (key h h' hle)
  · exact Or.inr (key h' h hle)

end Pipeline

end Conc
