import BitcoinExplorer.Lib.Outcome
import BitcoinExplorer.Lib.Prog
import Mathlib.Data.List.Range
import Mathlib.Logic.Function.Basic

/-!
# Two-stage ordered pipelines

Tasks `0 … len - 1` go through two stages of worker threads over one shared machine. Stage 1 runs
`stage1 h` for every `h`, in any order and interleaving. Stage 2 receives the result of task `h`
once stage 1 has returned `Ok` for all of `0 … h`, and runs `stage2` on it, again interleaved with
everything else. A consumer takes the stage-2 results in task order and stops at the first task
that did not succeed in either stage. `Action` names the steps a scheduler can choose and `act`
performs one; nothing bounds how far stage 1 runs ahead.

* `Reachable.inv`: an invariant of every step holds in every reachable configuration.
* `act_cases`: what one step can do, said once.
* `progress`: no schedule gets stuck before the consumer has stopped or has every result.
-/

open Rust

namespace Conc

variable {M : Machine} {ε β γ : Type}

namespace Prog

/-- The program has returned `Ok`. -/
def isOk : Prog M (Outcome ε α) → Bool
  | ret r => r.isOk
  | op _ _ => false

/-- The program has returned something else than `Ok`. -/
def hasFailed : Prog M (Outcome ε α) → Bool
  | ret r => !r.isOk
  | op _ _ => false

theorem isOk_iff {p : Prog M (Outcome ε α)} : p.isOk = true ↔ ∃ a, p = ret (.ok a) := by
  cases p with
  | ret r => simp [isOk, Outcome.isOk_iff]
  | op o k => simp [isOk]

theorem hasFailed_iff {p : Prog M (Outcome ε α)} :
    p.hasFailed = true ↔ ∃ r, p = ret r ∧ r.isOk = false := by
  cases p with
  | ret r => simp [hasFailed]
  | op o k => simp [hasFailed]

end Prog

/-- The two stages and the number of tasks. -/
structure Pipeline (M : Machine) (ε β γ : Type) where
  len : Nat
  stage1 : Nat → Prog M (Outcome ε β)
  stage2 : β → Prog M (Outcome ε γ)

/-- A configuration: the shared state, what each task has left to do in either stage (`none`: not
handed to stage 2), and the consumer's side. -/
structure Config (M : Machine) (ε β γ : Type) where
  shared : M.State
  work1 : Nat → Prog M (Outcome ε β)
  work2 : Nat → Option (Prog M (Outcome ε γ))
  emitted : List γ
  stopped : Bool

/-- The choices of a scheduler. -/
inductive Action where
  /-- Stage 1 performs the next operation of a task. -/
  | step1 (h : Nat)
  /-- A task's stage-1 result is handed to stage 2. -/
  | hand (h : Nat)
  /-- Stage 2 performs the next operation of a task. -/
  | step2 (h : Nat)
  /-- The consumer takes the next result. -/
  | emit
  /-- The consumer meets a failed task and stops. -/
  | stop
  deriving Repr, DecidableEq

namespace Pipeline

variable (P : Pipeline M ε β γ)

/-- Before the first step. -/
def init (σ : M.State) : Config M ε β γ :=
  { shared := σ, work1 := P.stage1, work2 := fun _ => none, emitted := [], stopped := false }

/-- The next task to be consumed failed in stage 2, or stage 1 failed at it or before it. -/
def failed (s : Config M ε β γ) : Bool :=
  decide (s.emitted.length < P.len) &&
    ((s.work2 s.emitted.length).any Prog.hasFailed ||
      (List.range (s.emitted.length + 1)).any fun j => (s.work1 j).hasFailed)

/-- Perform an action, if it is enabled. -/
def act (s : Config M ε β γ) : Action → Option (Config M ε β γ)
  | .step1 h =>
    match s.work1 h with
    | .op o k =>
      if h < P.len then
        some { s with
          shared := (M.exec o s.shared).2
          work1 := Function.update s.work1 h (k (M.exec o s.shared).1) }
      else none
    | .ret _ => none
  | .hand h =>
    match s.work1 h, s.work2 h with
    | .ret (.ok b), none =>
      if h < P.len ∧ ∀ j, j < h → (s.work1 j).isOk = true then
        some { s with work2 := Function.update s.work2 h (some (P.stage2 b)) }
      else none
    | _, _ => none
  | .step2 h =>
    match s.work2 h with
    | some (.op o k) =>
      some { s with
        shared := (M.exec o s.shared).2
        work2 := Function.update s.work2 h (some (k (M.exec o s.shared).1)) }
    | _ => none
  | .emit =>
    match s.work2 s.emitted.length with
    | some (.ret (.ok c)) =>
      if s.stopped then none else some { s with emitted := s.emitted ++ [c] }
    | _ => none
  | .stop => if s.stopped = false ∧ P.failed s = true then some { s with stopped := true } else none

/-- Perform a list of actions, each of them enabled. -/
def acts (s : Config M ε β γ) : List Action → Option (Config M ε β γ)
  | [] => some s
  | a :: as => (P.act s a).bind fun s' => acts s' as

/-- The configurations some schedule reaches from shared state `σ`. -/
inductive Reachable (σ : M.State) : Config M ε β γ → Prop
  | init : Reachable σ (P.init σ)
  | step {s s' : Config M ε β γ} (a : Action) :
      Reachable σ s → P.act s a = some s' → Reachable σ s'

variable {P}

/-- What one step can do. -/
theorem act_cases {s s' : Config M ε β γ} {a : Action} (h : P.act s a = some s') :
    (∃ j o k, a = .step1 j ∧ j < P.len ∧ s.work1 j = .op o k ∧
      s' = { s with
        shared := (M.exec o s.shared).2
        work1 := Function.update s.work1 j (k (M.exec o s.shared).1) }) ∨
    (∃ j b, a = .hand j ∧ j < P.len ∧ s.work1 j = .ret (.ok b) ∧ s.work2 j = none ∧
      (∀ i, i < j → (s.work1 i).isOk = true) ∧
      s' = { s with work2 := Function.update s.work2 j (some (P.stage2 b)) }) ∨
    (∃ j o k, a = .step2 j ∧ s.work2 j = some (.op o k) ∧
      s' = { s with
        shared := (M.exec o s.shared).2
        work2 := Function.update s.work2 j (some (k (M.exec o s.shared).1)) }) ∨
    (∃ c, a = .emit ∧ s.work2 s.emitted.length = some (.ret (.ok c)) ∧ s.stopped = false ∧
      s' = { s with emitted := s.emitted ++ [c] }) ∨
    (a = .stop ∧ s.stopped = false ∧ P.failed s = true ∧ s' = { s with stopped := true }) := by
  cases a with
  | step1 j =>
    left
    simp only [act] at h
    split at h
    · rename_i o k hw
      split at h
      · rename_i hj
        exact ⟨j, o, k, rfl, hj, hw, (Option.some.inj h).symm⟩
      · exact absurd h (by simp)
    · exact absurd h (by simp)
  | hand j =>
    right; left
    simp only [act] at h
    split at h
    · rename_i b hw hn
      split at h
      · rename_i hj
        exact ⟨j, b, rfl, hj.1, hw, hn, hj.2, (Option.some.inj h).symm⟩
      · exact absurd h (by simp)
    · exact absurd h (by simp)
  | step2 j =>
    right; right; left
    simp only [act] at h
    split at h
    · rename_i o k hw
      exact ⟨j, o, k, rfl, hw, (Option.some.inj h).symm⟩
    · exact absurd h (by simp)
  | emit =>
    right; right; right; left
    simp only [act] at h
    split at h
    · rename_i c hw
      split at h
      · exact absurd h (by simp)
      · rename_i hs
        exact ⟨c, rfl, hw, by simpa using hs, (Option.some.inj h).symm⟩
    · exact absurd h (by simp)
  | stop =>
    right; right; right; right
    simp only [act] at h
    split at h
    · rename_i hs
      exact ⟨rfl, hs.1, hs.2, (Option.some.inj h).symm⟩
    · exact absurd h (by simp)

/-- **Invariant rule.** -/
theorem Reachable.inv {σ : M.State} {I : Config M ε β γ → Prop} (h0 : I (P.init σ))
    (hstep : ∀ s a s', I s → P.act s a = some s' → I s') {s : Config M ε β γ}
    (h : P.Reachable σ s) : I s := by
  induction h with
  | init => exact h0
  | step a _ ha ih => exact hstep _ a _ ih ha

theorem Reachable.acts {σ : M.State} : ∀ {as : List Action} {s s' : Config M ε β γ},
    P.Reachable σ s → P.acts s as = some s' → P.Reachable σ s'
  | [], _, _, h, he => by
    obtain rfl := Option.some.inj he
    exact h
  | a :: as, s, s', h, he => by
    obtain ⟨s₁, ha, hr⟩ := Option.bind_eq_some_iff.mp he
    exact Reachable.acts (.step a h ha) hr

/-! ## What every reachable configuration satisfies -/

/-- The bookkeeping of the two stages and the consumer. -/
structure Wf (P : Pipeline M ε β γ) (s : Config M ε β γ) : Prop where
  handed : ∀ h p, s.work2 h = some p → h < P.len ∧ ∀ j, j ≤ h → (s.work1 j).isOk = true
  emitted : ∀ i c, s.emitted[i]? = some c → s.work2 i = some (.ret (.ok c))
  stopped : s.stopped = true → P.failed s = true

/-- A task in stage 2 has left stage 1, so no stage-1 step touches it. -/
theorem Wf.ne_of_handed {s : Config M ε β γ} (hw : Wf P s) {h j : Nat}
    {p : Prog M (Outcome ε γ)} {o : M.Op} {k : M.Res o → Prog M (Outcome ε β)}
    (hp : s.work2 h = some p) (hj : s.work1 j = .op o k) : ¬ j ≤ h := by
  intro hle
  have := (hw.handed h p hp).2 j hle
  rw [hj] at this
  exact Bool.false_ne_true this

theorem failed_iff {s : Config M ε β γ} : P.failed s = true ↔
    s.emitted.length < P.len ∧
      ((∃ p, s.work2 s.emitted.length = some p ∧ p.hasFailed = true) ∨
        ∃ j, j ≤ s.emitted.length ∧ (s.work1 j).hasFailed = true) := by
  simp only [failed, Bool.and_eq_true, decide_eq_true_eq, Bool.or_eq_true, Option.any_eq_true,
    List.any_eq_true, List.mem_range, Nat.lt_succ_iff]

/-- A failed task stays failed: a program that has returned performs no operation. -/
theorem hasFailed_update {f : Nat → Prog M (Outcome ε β)} {h j : Nat} {o : M.Op}
    {k : M.Res o → Prog M (Outcome ε β)} {q : Prog M (Outcome ε β)} (hj : f j = .op o k)
    (hf : (f h).hasFailed = true) : (Function.update f j q h).hasFailed = true := by
  by_cases he : h = j
  · subst he
    rw [hj] at hf
    exact absurd hf Bool.false_ne_true
  · rwa [Function.update_of_ne he]

theorem wf_init (σ : M.State) : Wf P (P.init σ) where
  handed := fun _ _ h => absurd h (by simp [init])
  emitted := fun _ _ h => absurd h (by simp [init])
  stopped := fun h => absurd h (by simp [init])

theorem wf_step {s s' : Config M ε β γ} {a : Action} (hw : Wf P s) (h : P.act s a = some s') :
    Wf P s' := by
  obtain ⟨j, o, k, -, hj, hwj, rfl⟩ | ⟨j, b, -, hj, hwj, hn, hpre, rfl⟩ | ⟨j, o, k, -, hwj, rfl⟩ |
    ⟨c, -, hwc, hs, rfl⟩ | ⟨-, hs, hf, rfl⟩ := act_cases h
  · refine ⟨fun i p hp => ⟨(hw.handed i p hp).1, fun l hl => ?_⟩, hw.emitted, fun hs => ?_⟩
    · have hne : l ≠ j := fun he => hw.ne_of_handed hp hwj (he ▸ hl)
      show (Function.update s.work1 j _ l).isOk = true
      rw [Function.update_of_ne hne]
      exact (hw.handed i p hp).2 l hl
    · obtain ⟨hlt, hf⟩ := failed_iff.mp (hw.stopped hs)
      refine failed_iff.mpr ⟨hlt, hf.imp id ?_⟩
      rintro ⟨i, hi, hfi⟩
      exact ⟨i, hi, hasFailed_update hwj hfi⟩
  · refine ⟨fun i p hp => ?_, fun i c hc => ?_, fun hs => ?_⟩
    · by_cases hi : i = j
      · subst hi
        refine ⟨hj, fun l hl => ?_⟩
        rcases Nat.lt_or_eq_of_le hl with hl | rfl
        · exact hpre l hl
        · exact Prog.isOk_iff.mpr ⟨b, hwj⟩
      · have hp' : s.work2 i = some p := by rw [← hp]; exact (Function.update_of_ne hi _ _).symm
        exact hw.handed i p hp'
    · have hi := hw.emitted i c hc
      have hne : i ≠ j := fun he => by rw [he, hn] at hi; exact absurd hi (by simp)
      exact (Function.update_of_ne hne _ _).trans hi
    · obtain ⟨hlt, hf⟩ := failed_iff.mp (hw.stopped hs)
      refine failed_iff.mpr ⟨hlt, hf.imp ?_ id⟩
      rintro ⟨p, hp, hfp⟩
      have hne : s.emitted.length ≠ j := fun he => by rw [he, hn] at hp; exact absurd hp (by simp)
      exact ⟨p, (Function.update_of_ne hne _ _).trans hp, hfp⟩
  · refine ⟨fun i p hp => ?_, fun i c hc => ?_, fun hs => ?_⟩
    · by_cases hi : i = j
      · exact hi ▸ hw.handed j _ hwj
      · have hp' : s.work2 i = some p := by rw [← hp]; exact (Function.update_of_ne hi _ _).symm
        exact hw.handed i p hp'
    · have hi := hw.emitted i c hc
      have hne : i ≠ j := fun he => by rw [he, hwj] at hi; exact absurd hi (by simp)
      exact (Function.update_of_ne hne _ _).trans hi
    · obtain ⟨hlt, hf⟩ := failed_iff.mp (hw.stopped hs)
      refine failed_iff.mpr ⟨hlt, hf.imp ?_ id⟩
      rintro ⟨p, hp, hfp⟩
      have hne : s.emitted.length ≠ j := fun he => by
        rw [he, hwj] at hp
        obtain rfl := Option.some.inj hp
        exact Bool.false_ne_true hfp
      exact ⟨p, (Function.update_of_ne hne _ _).trans hp, hfp⟩
  · refine ⟨hw.handed, fun i c' hc => ?_, fun hs' => absurd hs' (by simp [hs])⟩
    rcases Nat.lt_trichotomy i s.emitted.length with hi | rfl | hi
    · exact hw.emitted i c' (by rw [← hc]; exact (List.getElem?_append_left hi).symm)
    · rw [List.getElem?_concat_length] at hc
      rw [← Option.some.inj hc]
      exact hwc
    · rw [List.getElem?_eq_none (by simp; omega)] at hc
      exact absurd hc (by simp)
  · exact ⟨hw.handed, hw.emitted, fun _ => hf⟩

theorem Reachable.wf {σ : M.State} {s : Config M ε β γ} (h : P.Reachable σ s) : Wf P s :=
  h.inv (wf_init σ) fun _ _ _ hw ha => wf_step hw ha

/-- The consumer never takes more than `len` results. -/
theorem Wf.emitted_le {s : Config M ε β γ} (hw : Wf P s) : s.emitted.length ≤ P.len := by
  by_contra hlt
  have hl : P.len < s.emitted.length := by omega
  have := hw.emitted P.len s.emitted[P.len] (List.getElem?_eq_getElem hl)
  exact absurd (hw.handed _ _ this).1 (Nat.lt_irrefl _)

/-- **No schedule gets stuck**: until the consumer has stopped or has every result, some step is
enabled. -/
theorem progress {s : Config M ε β γ} (hs : s.stopped = false) (hl : s.emitted.length < P.len) :
    ∃ a s', P.act s a = some s' := by
  by_cases hf : P.failed s = true
  · exact ⟨.stop, _, if_pos ⟨hs, hf⟩⟩
  have hfail : ∀ j, j ≤ s.emitted.length → (s.work1 j).hasFailed = false := by
    intro j hj
    by_contra hc
    exact hf (failed_iff.mpr ⟨hl, Or.inr ⟨j, hj, by simpa using hc⟩⟩)
  by_cases hop : ∃ j, j ≤ s.emitted.length ∧ ∃ o k, s.work1 j = .op o k
  · obtain ⟨j, hj, o, k, hw⟩ := hop
    exact ⟨.step1 j, _, by simp only [act, hw]; exact if_pos (by omega)⟩
  have hok : ∀ j, j ≤ s.emitted.length → ∃ b, s.work1 j = .ret (.ok b) := by
    intro j hj
    cases hw : s.work1 j with
    | op o k => exact absurd ⟨j, hj, o, k, hw⟩ hop
    | ret r =>
      have hr := hfail j hj
      rw [hw] at hr
      obtain ⟨b, rfl⟩ := Outcome.isOk_iff.mp (by simpa [Prog.hasFailed] using hr)
      exact ⟨b, rfl⟩
  cases hw2 : s.work2 s.emitted.length with
  | none =>
    obtain ⟨b, hb⟩ := hok _ (le_refl _)
    refine ⟨.hand s.emitted.length,
      { s with work2 := Function.update s.work2 s.emitted.length (some (P.stage2 b)) }, ?_⟩
    simp only [act, hb, hw2]
    exact if_pos ⟨hl, fun j hj => Prog.isOk_iff.mpr (hok j (by omega))⟩
  | some p =>
    cases p with
    | op o k => exact ⟨.step2 s.emitted.length, _, by simp only [act, hw2]; rfl⟩
    | ret r =>
      by_cases hr : r.isOk = true
      · obtain ⟨c, rfl⟩ := Outcome.isOk_iff.mp hr
        refine ⟨.emit, { s with emitted := s.emitted ++ [c] }, ?_⟩
        simp [act, hw2, hs]
      · refine absurd (failed_iff.mpr ⟨hl, Or.inl ⟨_, hw2, ?_⟩⟩) hf
        simpa [Prog.hasFailed] using hr

end Pipeline

end Conc
