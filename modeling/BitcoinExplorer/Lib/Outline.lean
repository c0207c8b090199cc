import BitcoinExplorer.Lib.Pipeline

/-!
# Proof outlines for pipelines

An outline relates the shared state and what each task has still to do to a ghost state that the
code does not have. It is checked operation by operation: each re-establishes its own task's
assertion and leaves the others'.

* **`Outline.sound`**: an outline holds in every reachable configuration.
* `Outline.Succeeds.emitted_eq`: an outline whose tasks only return `Ok` makes the consumer see
  exactly the expected results.
-/

open Rust

namespace Conc

variable {M : Machine} {ε β γ : Type}

/-- A proof outline: with ghost state of type `G`, an assertion on the shared state and one on
each task's remaining program in either stage. Every operation of a task re-establishes its own
assertions for some new ghost state and leaves those of all other tasks intact; a task handed to
stage 2 starts with its stage-2 assertion. -/
structure Outline (P : Pipeline M ε β γ) (G : Type) where
  shared : G → M.State → Prop
  task1 : G → Nat → Prog M (Outcome ε β) → Prop
  task2 : G → Nat → Option (Prog M (Outcome ε γ)) → Prop
  step1 : ∀ {g σ h o k}, h < P.len → shared g σ → task1 g h (.op o k) →
    ∃ g', shared g' (M.exec o σ).2 ∧ task1 g' h (k (M.exec o σ).1) ∧
      (∀ j p, j ≠ h → task1 g j p → task1 g' j p) ∧ ∀ j p, task2 g j p → task2 g' j p
  hand : ∀ {g h b}, h < P.len → (∀ j, j ≤ h → ∃ b', task1 g j (.ret (.ok b'))) →
    task1 g h (.ret (.ok b)) → task2 g h none → task2 g h (some (P.stage2 b))
  step2 : ∀ {g σ h o k}, shared g σ → task2 g h (some (.op o k)) →
    ∃ g', shared g' (M.exec o σ).2 ∧ task2 g' h (some (k (M.exec o σ).1)) ∧
      (∀ j p, task1 g j p → task1 g' j p) ∧ ∀ j p, j ≠ h → task2 g j p → task2 g' j p

namespace Outline

variable {P : Pipeline M ε β γ} {G : Type} (O : Outline P G)

/-- The assertions hold in a configuration for the ghost state `g`. -/
structure Holds (g : G) (s : Config M ε β γ) : Prop where
  shared : O.shared g s.shared
  task1 : ∀ h, h < P.len → O.task1 g h (s.work1 h)
  task2 : ∀ h, O.task2 g h (s.work2 h)

variable {O}

theorem holds_step {g : G} {s s' : Config M ε β γ} {a : Action}
    (hh : O.Holds g s) (h : P.act s a = some s') : ∃ g', O.Holds g' s' := by
  obtain ⟨j, o, k, -, hj, hwj, rfl⟩ | ⟨j, b, -, hj, hwj, hn, hpre, rfl⟩ | ⟨j, o, k, -, hwj, rfl⟩ |
    ⟨c, -, hwc, hs, rfl⟩ | ⟨-, hs, hf, rfl⟩ := Pipeline.act_cases h
  · obtain ⟨g', hs, ht, h1, h2⟩ := O.step1 hj hh.shared (hwj ▸ hh.task1 j hj)
    refine ⟨g', hs, fun i hi => ?_, fun i => h2 i _ (hh.task2 i)⟩
    by_cases hij : i = j
    · subst hij
      simpa only [Function.update_self] using ht
    · simpa only [Function.update_of_ne hij] using h1 i _ hij (hh.task1 i hi)
  · refine ⟨g, hh.shared, hh.task1, fun i => ?_⟩
    by_cases hij : i = j
    · subst hij
      have hall : ∀ l, l ≤ i → ∃ b', O.task1 g l (.ret (.ok b')) := by
        intro l hl
        rcases Nat.lt_or_eq_of_le hl with hl | rfl
        · obtain ⟨b', hb'⟩ := Prog.isOk_iff.mp (hpre l hl)
          exact ⟨b', hb' ▸ hh.task1 l (by omega)⟩
        · exact ⟨b, hwj ▸ hh.task1 l hj⟩
      simpa only [Function.update_self] using
        O.hand hj hall (hwj ▸ hh.task1 i hj) (hn ▸ hh.task2 i)
    · simpa only [Function.update_of_ne hij] using hh.task2 i
  · obtain ⟨g', hs, ht, h1, h2⟩ := O.step2 hh.shared (hwj ▸ hh.task2 j)
    refine ⟨g', hs, fun i hi => h1 i _ (hh.task1 i hi), fun i => ?_⟩
    by_cases hij : i = j
    · subst hij
      simpa only [Function.update_self] using ht
    · simpa only [Function.update_of_ne hij] using h2 i _ hij (hh.task2 i)
  · exact ⟨g, hh.shared, hh.task1, hh.task2⟩
  · exact ⟨g, hh.shared, hh.task1, hh.task2⟩

/-- **A proof outline holds in every reachable configuration.** -/
theorem sound {g₀ : G} {σ : M.State} (h0 : O.Holds g₀ (P.init σ)) {s : Config M ε β γ}
    (h : P.Reachable σ s) : ∃ g, O.Holds g s := by
  induction h with
  | init => exact ⟨g₀, h0⟩
  | step a _ ha ih =>
    obtain ⟨g, hg⟩ := ih
    exact holds_step hg ha

/-- The outline's tasks only ever return `Ok`, in stage 2 with the expected result. -/
structure Succeeds (O : Outline P G) (expected : Nat → Option γ) : Prop where
  ok1 : ∀ {g h r}, h < P.len → O.task1 g h (.ret r) → r.isOk = true
  ok2 : ∀ {g h r}, O.task2 g h (some (.ret r)) → ∃ c, expected h = some c ∧ r = .ok c

variable {expected : Nat → Option γ}

/-- Every stage-2 result is the expected one. -/
theorem Succeeds.result (hO : O.Succeeds expected) {g : G} {s : Config M ε β γ}
    (hh : O.Holds g s) {h : Nat} {r : Outcome ε γ} (hr : s.work2 h = some (.ret r)) :
    ∃ c, expected h = some c ∧ r = .ok c :=
  hO.ok2 (hr ▸ hh.task2 h)

/-- The consumer never stops early. -/
theorem Succeeds.not_stopped (hO : O.Succeeds expected) {g : G} {s : Config M ε β γ}
    (hw : Pipeline.Wf P s) (hh : O.Holds g s) : s.stopped = false := by
  by_contra hs
  obtain ⟨hlt, hf⟩ := Pipeline.failed_iff.mp (hw.stopped (by simpa using hs))
  rcases hf with ⟨p, hp, hfp⟩ | ⟨j, hj, hfj⟩
  · obtain ⟨r, rfl, hr⟩ := Prog.hasFailed_iff.mp hfp
    obtain ⟨c, -, rfl⟩ := hO.result hh hp
    exact Bool.false_ne_true hr.symm
  · obtain ⟨r, hwj, hr⟩ := Prog.hasFailed_iff.mp hfj
    have := hO.ok1 (by omega) (hwj ▸ hh.task1 j (by omega))
    rw [hr] at this
    exact Bool.false_ne_true this

/-- **What the consumer has taken is the expected results, in order.** -/
theorem Succeeds.emitted_eq (hO : O.Succeeds expected) {g : G} {s : Config M ε β γ}
    (hw : Pipeline.Wf P s) (hh : O.Holds g s) :
    s.emitted.map some = (List.range s.emitted.length).map expected := by
  apply List.ext_getElem
  · simp
  · intro i h1 h2
    simp only [List.length_map] at h1
    have := hw.emitted i s.emitted[i] (List.getElem?_eq_getElem h1)
    obtain ⟨c, hc, he⟩ := hO.result hh this
    simp only [List.getElem_map, List.getElem_range, hc]
    rw [Outcome.ok.inj he]

/-- With every result taken, every task has returned `Ok` in both stages. -/
theorem all_done {g : G} {s : Config M ε β γ} (hw : Pipeline.Wf P s) (hh : O.Holds g s)
    (hl : s.emitted.length = P.len) {h : Nat} (hlt : h < P.len) :
    (∃ b, O.task1 g h (.ret (.ok b))) ∧ ∃ c, O.task2 g h (some (.ret (.ok c))) := by
  have h2 := hw.emitted h _ (List.getElem?_eq_getElem (by omega))
  obtain ⟨b, hb⟩ := Prog.isOk_iff.mp ((hw.handed h _ h2).2 h (le_refl h))
  exact ⟨⟨b, hb ▸ hh.task1 h hlt⟩, ⟨_, h2 ▸ hh.task2 h⟩⟩

end Outline

end Conc
