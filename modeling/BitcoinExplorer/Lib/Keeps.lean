import BitcoinExplorer.Lib.Outline
import Mathlib.Order.Basic
import Mathlib.Order.Monotone.Defs

/-!
# Programs that keep a shared invariant

A way to reason about each program of a pipeline alone. A *world* records what the run has settled
for good, such as which key a cell was made for; worlds only grow, so what a program has learnt from
one stays true whatever the others do. `I w σ` relates a world to the shared state.

* `Prog.Keeps`: from every state that `I` allows, whatever ran in between, each operation of the
  program keeps `I`, and the result satisfies a postcondition.
* `Prog.Keeps.bind`, `Prog.Keeps.andThen`: programs that keep the invariant compose.
* **`Pipeline.Kept.reachable`**: when the programs of both stages keep it, it holds in every
  reachable configuration, and so do the postconditions of what has been returned.
-/

open Rust

namespace Conc

/-- The world of an invariant on the state alone. -/
inductive NoGhost where
  | mk

instance : Preorder NoGhost where
  le _ _ := True
  le_refl _ := trivial
  le_trans _ _ _ _ _ := trivial

variable {M : Machine} {W : Type} [Preorder W] {ε α β γ : Type}

namespace Prog

/-- Every operation of the program keeps the invariant, and its result is as `Q` says. -/
def Keeps (I : W → M.State → Prop) (Q : W → α → Prop) : Prog M α → W → Prop
  | ret a, w => Q w a
  | op o k, w => ∀ w' σ, w ≤ w' → I w' σ →
    ∃ w'', w' ≤ w'' ∧ I w'' (M.exec o σ).2 ∧ Keeps I Q (k (M.exec o σ).1) w''

variable {I : W → M.State → Prop} {Q : W → α → Prop} {R : W → β → Prop} {w w' : W}

@[simp] theorem keeps_ret {a : α} : (ret a : Prog M α).Keeps I Q w ↔ Q w a := Iff.rfl

/-- What a program keeps it also keeps later. -/
theorem Keeps.later (hQ : ∀ a, Monotone fun w => Q w a) {p : Prog M α} (h : p.Keeps I Q w)
    (hle : w ≤ w') : p.Keeps I Q w' := by
  cases p with
  | ret a => exact hQ a hle h
  | op o k => exact fun w₁ σ hle₁ hI => h w₁ σ (hle.trans hle₁) hI

theorem Keeps.imp {Q' : W → α → Prop} {p : Prog M α} (h : p.Keeps I Q w)
    (himp : ∀ w', w ≤ w' → ∀ a, Q w' a → Q' w' a) : p.Keeps I Q' w := by
  induction p generalizing w with
  | ret a => exact himp w le_rfl a h
  | op o k ih =>
    intro w₁ σ hle hI
    obtain ⟨w₂, hle₂, hI₂, hk⟩ := h w₁ σ hle hI
    exact ⟨w₂, hle₂, hI₂, ih _ hk fun w₃ hle₃ => himp w₃ (hle.trans (hle₂.trans hle₃))⟩

/-- **Sequential composition**: the second part may use what the first one established. -/
theorem Keeps.bind {p : Prog M α} {f : α → Prog M β} (h : p.Keeps I Q w)
    (hf : ∀ w', w ≤ w' → ∀ a, Q w' a → (f a).Keeps I R w') : (p.bind f).Keeps I R w := by
  induction p generalizing w with
  | ret a => exact hf w le_rfl a h
  | op o k ih =>
    intro w₁ σ hle hI
    obtain ⟨w₂, hle₂, hI₂, hk⟩ := h w₁ σ hle hI
    exact ⟨w₂, hle₂, hI₂, ih _ hk fun w₃ hle₃ => hf w₃ (hle.trans (hle₂.trans hle₃))⟩

/-- Sequential composition under `?`: what is not `Ok` is passed on. -/
theorem Keeps.andThen {Q : W → Outcome ε α → Prop} {R : W → Outcome ε β → Prop}
    {p : Prog M (Outcome ε α)} {f : α → Prog M (Outcome ε β)} (h : p.Keeps I Q w)
    (hok : ∀ w', w ≤ w' → ∀ a, Q w' (.ok a) → (f a).Keeps I R w')
    (herr : ∀ w' e, Q w' (.err e) → R w' (.err e)) (hpanic : ∀ w', Q w' .panic → R w' .panic) :
    (p.andThen f).Keeps I R w := by
  refine h.bind fun w' hle r hr => ?_
  cases r with
  | ok a => exact hok w' hle a hr
  | err e => exact herr w' e hr
  | panic => exact hpanic w' hr

/-- Sequential composition under `?` of parts that do not panic. -/
theorem Keeps.andThen_safe {S : α → Prop} {T : β → Prop} {p : Prog M (Outcome ε α)}
    {f : α → Prog M (Outcome ε β)} (h : p.Keeps I (fun _ => Outcome.Safe S) w)
    (hf : ∀ w', w ≤ w' → ∀ a, S a → (f a).Keeps I (fun _ => Outcome.Safe T) w') :
    (p.andThen f).Keeps I (fun _ => Outcome.Safe T) w :=
  h.andThen (fun w' hle a ha => hf w' hle a ha) (fun _ _ _ => Outcome.safe_err)
    fun _ hpanic => absurd hpanic Outcome.not_safe_panic

end Prog

namespace Pipeline

variable {P : Pipeline M ε β γ} {I : W → M.State → Prop} {Q₁ : Nat → W → Outcome ε β → Prop}
  {Q₂ : Nat → W → Outcome ε γ → Prop}

/-- The programs of both stages keep the invariant; what a stage returns for a task is as its
postcondition says, and stays so. -/
structure Kept (P : Pipeline M ε β γ) (I : W → M.State → Prop) (Q₁ : Nat → W → Outcome ε β → Prop)
    (Q₂ : Nat → W → Outcome ε γ → Prop) : Prop where
  mono1 : ∀ h r, Monotone fun w => Q₁ h w r
  mono2 : ∀ h r, Monotone fun w => Q₂ h w r
  stage1 : ∀ h w, h < P.len → (P.stage1 h).Keeps I (Q₁ h) w
  stage2 : ∀ h w b, h < P.len → Q₁ h w (.ok b) → (P.stage2 b).Keeps I (Q₂ h) w

/-- Programs that keep an invariant are a proof outline, with the world for its ghost state. -/
def Kept.outline (hk : P.Kept I Q₁ Q₂) : Outline P W where
  shared := I
  task1 w h p := p.Keeps I (Q₁ h) w
  task2 w h p := ∀ q, p = some q → q.Keeps I (Q₂ h) w
  step1 := by
    intro w σ h o k _ hI hp
    obtain ⟨w', hle, hI', hk'⟩ := hp w σ le_rfl hI
    exact ⟨w', hI', hk', fun j _ _ hj => hj.later (hk.mono1 j) hle,
      fun j _ hj q hq => (hj q hq).later (hk.mono2 j) hle⟩
  hand := by
    intro w h b hlt _ hp _ q hq
    obtain rfl := Option.some.inj hq
    exact hk.stage2 h w b hlt hp
  step2 := by
    intro w σ h o k hI hp
    obtain ⟨w', hle, hI', hk'⟩ := hp _ rfl w σ le_rfl hI
    refine ⟨w', hI', fun q hq => Option.some.inj hq ▸ hk',
      fun j _ hj => hj.later (hk.mono1 j) hle,
      fun j _ _ hj q hq => (hj q hq).later (hk.mono2 j) hle⟩

/-- **A kept invariant holds in every reachable configuration**, and so do the postconditions of
everything that was returned. -/
theorem Kept.reachable (hk : P.Kept I Q₁ Q₂) {w : W} {σ : M.State} (h0 : I w σ)
    {s : Config M ε β γ} (hr : P.Reachable σ s) :
    ∃ w', I w' s.shared ∧ (∀ h r, h < P.len → s.work1 h = .ret r → Q₁ h w' r) ∧
      ∀ h r, s.work2 h = some (.ret r) → Q₂ h w' r := by
  have hinit : hk.outline.Holds w (P.init σ) :=
    ⟨h0, fun h hlt => hk.stage1 h w hlt, fun _ _ hq => nomatch hq⟩
  obtain ⟨w', hw⟩ := Outline.sound hinit hr
  refine ⟨w', hw.shared, fun h r hlt hret => ?_, fun h r hret => hw.task2 h _ hret⟩
  have htask : (s.work1 h).Keeps I (Q₁ h) w' := hw.task1 h hlt
  rwa [hret] at htask

/-- What the consumer has taken is as the postcondition of stage 2 says. -/
theorem Kept.emitted (hk : P.Kept I Q₁ Q₂) {w : W} {σ : M.State} (h0 : I w σ)
    {s : Config M ε β γ} (hr : P.Reachable σ s) {i : Nat} {c : γ} (hc : s.emitted[i]? = some c) :
    ∃ w', I w' s.shared ∧ Q₂ i w' (.ok c) := by
  obtain ⟨w', hI, -, h2⟩ := hk.reachable h0 hr
  exact ⟨w', hI, h2 i _ (hr.wf.emitted i c hc)⟩

end Pipeline

end Conc
