import BitcoinExplorer.Lib.Delivery

/-!
# Pipelines with more tasks than can succeed

A pipeline whose tasks from `n` on fail in stage 1 without an operation, as those for heights past
the last block do. Such a pipeline runs as the one cut off at `n` tasks runs, except that its
consumer is stopped after the last result instead of finding no task left.

* `Reachable.cutoff`: the configurations it reaches, in terms of those of the pipeline cut off.
* **`delivers_cutoff`**: when the pipeline cut off delivers under every schedule, the whole one
  delivers the same results and stops after them.
-/

namespace Conc

open Rust

variable {M : Machine} {ε β γ : Type}

namespace Pipeline

/-- The first `n` tasks only. -/
def cutoff (P : Pipeline M ε β γ) (n : Nat) : Pipeline M ε β γ := { P with len := n }

/-- Stage 1 of the tasks from `n` on is a failure. -/
def FailsFrom (P : Pipeline M ε β γ) (n : Nat) : Prop :=
  ∀ h, n ≤ h → h < P.len → ∃ r, P.stage1 h = .ret r ∧ r.isOk = false

/-- A configuration on its way to the first `n` expected results: the consumer has seen the first
ones and no others, it is only ever stopped after the last, and every schedule from here reaches
it. -/
structure DeliversUpTo (P : Pipeline M ε β γ) (n : Nat) (expected : Nat → Option γ)
    (s : Config M ε β γ) : Prop where
  emitted_le : s.emitted.length ≤ n
  emitted : s.emitted.map some = (List.range s.emitted.length).map expected
  stopped : s.stopped = true → s.emitted.length = n
  enabled : s.stopped = false → s.emitted.length < P.len → ∃ a t, P.act s a = some t
  ends : Acc (fun t s => ∃ a, P.act s a = some t) s

variable {P : Pipeline M ε β γ} {n : Nat} {σ : M.State}

/-- A consumer that is at its end has seen the `n` results. -/
theorem DeliversUpTo.length_of_complete {expected : Nat → Option γ} {s : Config M ε β γ}
    (hd : P.DeliversUpTo n expected s) (hle : n ≤ P.len) (hC : P.Complete s) :
    s.emitted.length = n := by
  rcases hC with hs | hl
  · exact hd.stopped hs
  · exact Nat.le_antisymm hd.emitted_le (hl ▸ hle)

theorem DeliversUpTo.congr {expected expected' : Nat → Option γ} {s : Config M ε β γ}
    (hd : P.DeliversUpTo n expected s) (h : ∀ i, i < n → expected i = expected' i) :
    P.DeliversUpTo n expected' s where
  emitted_le := hd.emitted_le
  emitted := hd.emitted.trans <| List.map_congr_left fun i hi =>
    h i (lt_of_lt_of_le (List.mem_range.mp hi) hd.emitted_le)
  stopped := hd.stopped
  enabled := hd.enabled
  ends := hd.ends

/-- The task of a step of stage 1, or one handed on, comes before those that fail. -/
theorem FailsFrom.lt (hP : P.FailsFrom n) {s : Config M ε β γ}
    (hwork : ∀ h, n ≤ h → s.work1 h = P.stage1 h) {j : Nat} (hj : j < P.len)
    (hne : ∀ r : Outcome ε β, s.work1 j = .ret r → r.isOk = true) : j < n := by
  by_contra hge
  obtain ⟨r, hr, hfail⟩ := hP j (by omega) hj
  have hok := hne r ((hwork j (by omega)).trans hr)
  rw [hfail] at hok
  cases hok

/-- **What the whole pipeline reaches**, the pipeline cut off reaches too, up to the stop after the
last of its results. -/
theorem Reachable.cutoff (hP : P.FailsFrom n) {s : Config M ε β γ} (hr : P.Reachable σ s) :
    ∃ t, (P.cutoff n).Reachable σ t ∧ (∀ h, n ≤ h → t.work1 h = P.stage1 h) ∧
      (s = t ∨ (s = { t with stopped := true } ∧ t.stopped = false ∧ t.emitted.length = n)) := by
  induction hr with
  | init => exact ⟨_, .init, fun _ _ => rfl, Or.inl rfl⟩
  | @step s s' a _ ha ih =>
    obtain ⟨t, hrt, hwork, hst⟩ := ih
    -- the fields a step reads, but for `stopped`, are those of `t`
    have hw1 : s.work1 = t.work1 := by rcases hst with rfl | ⟨rfl, -⟩ <;> rfl
    have hw2 : s.work2 = t.work2 := by rcases hst with rfl | ⟨rfl, -⟩ <;> rfl
    obtain ⟨j, o, k, rfl, hj, hwj, rfl⟩ | ⟨j, b, rfl, hj, hwj, hn, hpre, rfl⟩ |
      ⟨j, o, k, rfl, hwj, rfl⟩ | ⟨c, rfl, hwc, hs, rfl⟩ | ⟨rfl, hs, hf, rfl⟩ := act_cases ha
    · rw [hw1] at hwj
      have hlt : j < n := hP.lt hwork hj fun r hr => by rw [hwj] at hr; cases hr
      have hact : (P.cutoff n).act t (.step1 j) = some { t with
          shared := (M.exec o t.shared).2
          work1 := Function.update t.work1 j (k (M.exec o t.shared).1) } := by
        simp only [act, hwj]
        exact if_pos hlt
      refine ⟨_, .step _ hrt hact, fun h hh => ?_, ?_⟩
      · exact (Function.update_of_ne (by omega) _ _).trans (hwork h hh)
      · rcases hst with rfl | ⟨rfl, hrest⟩
        · exact Or.inl rfl
        · exact Or.inr ⟨rfl, hrest⟩
    · rw [hw1] at hwj hpre
      rw [hw2] at hn
      have hlt : j < n := hP.lt hwork hj fun r hr => by
        rw [hwj] at hr
        cases hr
        rfl
      have hact : (P.cutoff n).act t (.hand j) =
          some { t with work2 := Function.update t.work2 j (some (P.stage2 b)) } := by
        simp only [act, hwj, hn]
        exact if_pos ⟨hlt, hpre⟩
      refine ⟨_, .step _ hrt hact, hwork, ?_⟩
      rcases hst with rfl | ⟨rfl, hrest⟩
      · exact Or.inl rfl
      · exact Or.inr ⟨rfl, hrest⟩
    · rw [hw2] at hwj
      have hact : (P.cutoff n).act t (.step2 j) = some { t with
          shared := (M.exec o t.shared).2
          work2 := Function.update t.work2 j (some (k (M.exec o t.shared).1)) } := by
        simp only [act, hwj]
      refine ⟨_, .step _ hrt hact, hwork, ?_⟩
      rcases hst with rfl | ⟨rfl, hrest⟩
      · exact Or.inl rfl
      · exact Or.inr ⟨rfl, hrest⟩
    · rcases hst with rfl | ⟨rfl, -⟩
      · have hact : (P.cutoff n).act s .emit = some { s with emitted := s.emitted ++ [c] } := by
          simp [act, hwc, hs]
        exact ⟨_, .step .emit hrt hact, hwork, Or.inl rfl⟩
      · cases hs
    · rcases hst with rfl | ⟨rfl, -⟩
      · by_cases hfc : (P.cutoff n).failed s = true
        · exact ⟨_, .step .stop hrt (if_pos ⟨hs, hfc⟩), hwork, Or.inl rfl⟩
        · -- the failure is that of task `n`
          refine ⟨s, hrt, hwork, Or.inr ⟨rfl, hs, Nat.le_antisymm hrt.wf.emitted_le ?_⟩⟩
          by_contra hlt
          exact hfc (failed_iff.mpr ⟨Nat.lt_of_not_le hlt, (failed_iff.mp hf).2⟩)
      · cases hs

/-- **The results of the pipeline cut off, and the stop after them.** -/
theorem delivers_cutoff (hP : P.FailsFrom n) {expected : Nat → Option γ}
    (hall : ∀ t, (P.cutoff n).Reachable σ t → (P.cutoff n).Delivers expected t)
    {s : Config M ε β γ} (hr : P.Reachable σ s) : P.DeliversUpTo n expected s := by
  obtain ⟨t, hrt, -, hst⟩ := hr.cutoff hP
  have hd := hall t hrt
  have he : s.emitted = t.emitted := by rcases hst with rfl | ⟨rfl, -⟩ <;> rfl
  refine ⟨he ▸ hd.emitted_le, he ▸ hd.emitted, ?_, progress, hr.terminates⟩
  · intro hs
    rcases hst with rfl | ⟨rfl, -, hl⟩
    · rw [hd.running] at hs
      cases hs
    · exact hl

end Pipeline

end Conc
