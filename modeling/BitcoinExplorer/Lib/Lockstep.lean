import BitcoinExplorer.Lib.Onto
import Mathlib.Data.Option.Defs

/-!
# Pipelines in lockstep

Two pipelines whose programs do the same operations up to a relation between their states, their
values and their results: one is the other with richer data. Under one and the same schedule they
then take the same steps, and what their consumers have seen stays related.

* `Prog.Sim`: two programs perform operations that keep the states related, and return related
  values; `Prog.Sim.bind` composes.
* `Prog.Same`: the stronger relation of programs with the same operations, whatever these respond;
  it carries over to any other execution of the operations (`Prog.Same.onto`).
* `Lockstep.onto`: a pipeline runs in lockstep with itself over another machine that responds alike.
* **`Lockstep.runFrom`**: a list of actions is enabled in both pipelines or in neither, and leads to
  related configurations.
-/

open Rust

namespace Rust

namespace Outcome

variable {ε α α' β β' : Type}

/-- Calls that return alike: related values, the same error, or a panic both. -/
inductive Rel (S : α → α' → Prop) : Outcome ε α → Outcome ε α' → Prop
  | ok {a : α} {a' : α'} (h : S a a') : Rel S (ok a) (ok a')
  | err (e : ε) : Rel S (err e) (err e)
  | panic : Rel S panic panic

theorem Rel.isOk {S : α → α' → Prop} {x : Outcome ε α} {x' : Outcome ε α'} (h : x.Rel S x') :
    x.isOk = x'.isOk := by
  cases h <;> rfl

theorem Rel.bind {S : α → α' → Prop} {T : β → β' → Prop} {x : Outcome ε α} {x' : Outcome ε α'}
    {f : α → Outcome ε β} {f' : α' → Outcome ε β'} (h : x.Rel S x')
    (hf : ∀ a a', S a a' → (f a).Rel T (f' a')) : (x >>= f).Rel T (x' >>= f') := by
  cases h with
  | ok h => exact hf _ _ h
  | err e => exact .err e
  | panic => exact .panic

theorem rel_refl {S : α → α → Prop} (hS : ∀ a, S a a) (x : Outcome ε α) : x.Rel S x := by
  cases x with
  | ok a => exact .ok (hS a)
  | err e => exact .err e
  | panic => exact .panic

/-- A call whose value is a function of the other's. -/
theorem rel_map {f : α → α'} {x : Outcome ε α} {x' : Outcome ε α'} :
    x.Rel (fun a a' => a' = f a) x' ↔ x' = f <$> x := by
  constructor
  · rintro (rfl | _ | _) <;> rfl
  · rintro rfl
    cases x with
    | ok a => exact .ok rfl
    | err e => exact .err e
    | panic => exact .panic

end Outcome

end Rust

namespace Conc

variable {M M' : Machine} {ε α α' β β' γ γ' : Type}

namespace Prog

/-- Operations that keep the states related, and related values returned. -/
inductive Sim (R : M.State → M'.State → Prop) (S : α → α' → Prop) : Prog M α → Prog M' α' → Prop
  | ret {a : α} {a' : α'} (h : S a a') : Sim R S (ret a) (ret a')
  | op {o : M.Op} {o' : M'.Op} {k : M.Res o → Prog M α} {k' : M'.Res o' → Prog M' α'}
    (hR : ∀ σ σ', R σ σ' → R (M.exec o σ).2 (M'.exec o' σ').2)
    (hk : ∀ σ σ', R σ σ' → Sim R S (k (M.exec o σ).1) (k' (M'.exec o' σ').1)) :
    Sim R S (op o k) (op o' k')

/-- The same operations, and related values returned whatever these respond. -/
inductive Same (S : α → α' → Prop) : Prog M α → Prog M α' → Prop
  | ret {a : α} {a' : α'} (h : S a a') : Same S (ret a) (ret a')
  | op (o : M.Op) {k : M.Res o → Prog M α} {k' : M.Res o → Prog M α'}
    (hk : ∀ r, Same S (k r) (k' r)) : Same S (op o k) (op o k')

variable {R : M.State → M'.State → Prop} {S : α → α' → Prop} {T : β → β' → Prop}

theorem Sim.bind {p : Prog M α} {p' : Prog M' α'} {f : α → Prog M β} {f' : α' → Prog M' β'}
    (h : p.Sim R S p') (hf : ∀ a a', S a a' → (f a).Sim R T (f' a')) :
    (p.bind f).Sim R T (p'.bind f') := by
  induction h with
  | ret h => exact hf _ _ h
  | op hR _ ih => exact .op hR ih

/-- Sequential composition under `?`. -/
theorem Sim.andThen {p : Prog M (Outcome ε α)} {p' : Prog M' (Outcome ε α')}
    {f : α → Prog M (Outcome ε β)} {f' : α' → Prog M' (Outcome ε β')}
    (h : p.Sim R (Outcome.Rel S) p')
    (hf : ∀ a a', S a a' → (f a).Sim R (Outcome.Rel T) (f' a')) :
    (p.andThen f).Sim R (Outcome.Rel T) (p'.andThen f') := by
  refine h.bind fun r r' hr => ?_
  cases hr with
  | ok h => exact hf _ _ h
  | err e => exact .ret (.err e)
  | panic => exact .ret .panic

theorem Same.refl {S : α → α → Prop} (hS : ∀ a, S a a) (p : Prog M α) : p.Same S p := by
  induction p with
  | ret a => exact .ret (hS a)
  | op o k ih => exact .op o ih

/-- A program, continued in two ways. -/
theorem Same.andThen (p : Prog M (Outcome ε α)) {f : α → Prog M (Outcome ε β)}
    {f' : α → Prog M (Outcome ε β')} (hf : ∀ a, (f a).Same (Outcome.Rel T) (f' a)) :
    (p.andThen f).Same (Outcome.Rel T) (p.andThen f') := by
  induction p with
  | ret r =>
    cases r with
    | ok a => exact hf a
    | err e => exact .ret (.err e)
    | panic => exact .ret .panic
  | op o k ih => exact .op o ih

/-- However the operations are executed, programs with the same ones run in lockstep. -/
theorem Same.onto {σ : Type} {p : Prog M α} {p' : Prog M α'} (h : p.Same S p')
    (exec : (o : M.Op) → σ → M.Res o × σ) : (p.onto exec).Sim Eq S (p'.onto exec) := by
  induction h with
  | ret h => exact .ret h
  | op o _ ih =>
    refine .op ?_ ?_
    · rintro σ _ rfl
      rfl
    · rintro σ _ rfl
      exact ih _

/-- A program over another machine that responds alike. -/
theorem sim_onto {X : Type} {exec : (o : M.Op) → X → M.Res o × X} {R : M.State → X → Prop}
    (hexec : ∀ o σ x, R σ x → (exec o x).1 = (M.exec o σ).1 ∧ R (M.exec o σ).2 (exec o x).2)
    {S : α → α → Prop} (hS : ∀ a, S a a) (p : Prog M α) : p.Sim R S (p.onto exec) := by
  induction p with
  | ret a => exact .ret (hS a)
  | op o k ih =>
    refine .op (fun σ x h => (hexec o σ x h).2) fun σ x h => ?_
    dsimp only
    rw [(hexec o σ x h).1]
    exact ih _

/-- Related outcomes of two programs agree on success and on failure. -/
theorem Sim.isOk_eq {p : Prog M (Outcome ε α)} {p' : Prog M' (Outcome ε α')}
    (h : p.Sim R (Outcome.Rel S) p') : p.isOk = p'.isOk := by
  cases h with
  | ret h => exact h.isOk
  | op _ _ => rfl

theorem Sim.hasFailed_eq {p : Prog M (Outcome ε α)} {p' : Prog M' (Outcome ε α')}
    (h : p.Sim R (Outcome.Rel S) p') : p.hasFailed = p'.hasFailed := by
  cases h with
  | ret h => exact congrArg (!·) h.isOk
  | op _ _ => rfl

end Prog

/-! ## Pipelines -/

/-- The configuration a list of actions leads to from the start, if each is enabled. -/
def Pipeline.runFrom (P : Pipeline M ε β γ) (σ : M.State) (as : List Action) :
    Option (Config M ε β γ) :=
  P.acts (P.init σ) as

/-- Two pipelines with as many tasks, whose programs run in lockstep. -/
structure Lockstep (P : Pipeline M ε β γ) (P' : Pipeline M' ε β' γ')
    (R : M.State → M'.State → Prop) (S : β → β' → Prop) (T : γ → γ' → Prop) : Prop where
  len : P.len = P'.len
  stage1 : ∀ h, (P.stage1 h).Sim R (Outcome.Rel S) (P'.stage1 h)
  stage2 : ∀ b b', S b b' → (P.stage2 b).Sim R (Outcome.Rel T) (P'.stage2 b')

namespace Lockstep

variable {P : Pipeline M ε β γ} {P' : Pipeline M' ε β' γ'} {R : M.State → M'.State → Prop}
  {S : β → β' → Prop} {T : γ → γ' → Prop}

/-- A pipeline and the same one over another machine that responds alike. -/
theorem onto {X : Type} {exec : (o : M.Op) → X → M.Res o × X} {R : M.State → X → Prop}
    (hexec : ∀ o σ x, R σ x → (exec o x).1 = (M.exec o σ).1 ∧ R (M.exec o σ).2 (exec o x).2)
    (P : Pipeline M ε β γ) : Lockstep P (P.onto exec) R Eq Eq where
  len := rfl
  stage1 _ := Prog.sim_onto hexec (Outcome.rel_refl fun _ => rfl) _
  stage2 _ _ h := h ▸ Prog.sim_onto hexec (Outcome.rel_refl fun _ => rfl) _

/-- Configurations that are at the same point of the same schedule. -/
structure Related (R : M.State → M'.State → Prop) (S : β → β' → Prop) (T : γ → γ' → Prop)
    (s : Config M ε β γ) (s' : Config M' ε β' γ') : Prop where
  shared : R s.shared s'.shared
  work1 : ∀ h, (s.work1 h).Sim R (Outcome.Rel S) (s'.work1 h)
  work2 : ∀ h, Option.Rel (Prog.Sim R (Outcome.Rel T)) (s.work2 h) (s'.work2 h)
  emitted : List.Forall₂ T s.emitted s'.emitted
  stopped : s.stopped = s'.stopped

theorem related_init (hL : Lockstep P P' R S T) {σ : M.State} {σ' : M'.State} (hR : R σ σ') :
    Related R S T (P.init σ) (P'.init σ') where
  shared := hR
  work1 := hL.stage1
  work2 _ := .none
  emitted := .nil
  stopped := rfl

theorem Related.failed_eq (hL : Lockstep P P' R S T) {s : Config M ε β γ} {s' : Config M' ε β' γ'}
    (h : Related R S T s s') : P.failed s = P'.failed s' := by
  have hlen := h.emitted.length_eq
  have h1 : ∀ j, (s.work1 j).hasFailed = (s'.work1 j).hasFailed := fun j =>
    (h.work1 j).hasFailed_eq
  have h2 : ∀ j, (s.work2 j).any Prog.hasFailed = (s'.work2 j).any Prog.hasFailed := by
    intro j
    have hw := h.work2 j
    generalize s.work2 j = p, s'.work2 j = p' at hw ⊢
    cases hw with
    | some hp => exact hp.hasFailed_eq
    | none => rfl
  unfold Pipeline.failed
  simp only [hL.len, hlen, h1, h2]

/-- Related values at one place of two related families. -/
theorem rel_update {δ δ' : Type} {r : δ → δ' → Prop} {f : Nat → δ} {f' : Nat → δ'}
    (h : ∀ i, r (f i) (f' i)) (j : Nat) {x : δ} {x' : δ'} (hx : r x x') (i : Nat) :
    r (Function.update f j x i) (Function.update f' j x' i) := by
  by_cases hi : i = j
  · subst hi
    rw [Function.update_self, Function.update_self]
    exact hx
  · rw [Function.update_of_ne hi, Function.update_of_ne hi]
    exact h i

/-- **One step in lockstep**: an action is enabled in both configurations or in neither. -/
theorem Related.act (hL : Lockstep P P' R S T) {s : Config M ε β γ} {s' : Config M' ε β' γ'}
    (h : Related R S T s s') (a : Action) :
    Option.Rel (Related R S T) (P.act s a) (P'.act s' a) := by
  cases a with
  | step1 j =>
    simp only [Pipeline.act]
    have hw := h.work1 j
    generalize s.work1 j = p, s'.work1 j = p' at hw ⊢
    cases hw with
    | ret _ => exact .none
    | op hR hk =>
      dsimp only
      rw [hL.len]
      split
      · exact .some ⟨hR _ _ h.shared, rel_update h.work1 j (hk _ _ h.shared), h.work2, h.emitted,
          h.stopped⟩
      · exact .none
  | hand j =>
    simp only [Pipeline.act]
    have hcond : (j < P.len ∧ ∀ i, i < j → (s.work1 i).isOk = true) ↔
        (j < P'.len ∧ ∀ i, i < j → (s'.work1 i).isOk = true) := by
      simp only [(h.work1 _).isOk_eq, hL.len]
    have hw1 := h.work1 j
    have hw2 := h.work2 j
    generalize s.work1 j = p, s'.work1 j = p' at hw1 ⊢
    cases hw1 with
    | op _ _ => exact .none
    | ret hr =>
      cases hr with
      | err e => exact .none
      | panic => exact .none
      | ok hb =>
        generalize hq : s.work2 j = q at hw2 ⊢
        generalize hq' : s'.work2 j = q' at hw2 ⊢
        cases hw2 with
        | some _ => exact .none
        | none =>
          dsimp only
          by_cases hc : j < P.len ∧ ∀ i, i < j → (s.work1 i).isOk = true
          · rw [if_pos hc, if_pos (hcond.mp hc)]
            exact .some ⟨h.shared, h.work1, rel_update h.work2 j (.some (hL.stage2 _ _ hb)),
              h.emitted, h.stopped⟩
          · rw [if_neg hc, if_neg (mt hcond.mpr hc)]
            exact .none
  | step2 j =>
    simp only [Pipeline.act]
    have hw := h.work2 j
    generalize s.work2 j = p, s'.work2 j = p' at hw ⊢
    cases hw with
    | none => exact .none
    | some hp =>
      cases hp with
      | ret _ => exact .none
      | op hR hk =>
        exact .some ⟨hR _ _ h.shared, h.work1, rel_update h.work2 j (.some (hk _ _ h.shared)),
          h.emitted, h.stopped⟩
  | emit =>
    simp only [Pipeline.act]
    rw [← h.emitted.length_eq, ← h.stopped]
    have hw := h.work2 s.emitted.length
    generalize s.work2 s.emitted.length = p, s'.work2 s.emitted.length = p' at hw ⊢
    cases hw with
    | none => exact .none
    | some hp =>
      cases hp with
      | op _ _ => exact .none
      | ret hr =>
        cases hr with
        | err e => exact .none
        | panic => exact .none
        | ok hc =>
          dsimp only
          split
          · exact .none
          · exact .some ⟨h.shared, h.work1, h.work2,
              List.rel_append h.emitted (.cons hc .nil), rfl⟩
  | stop =>
    simp only [Pipeline.act]
    rw [h.stopped, h.failed_eq hL]
    split
    · exact .some ⟨h.shared, h.work1, h.work2, h.emitted, rfl⟩
    · exact .none

/-- **A whole schedule in lockstep.** -/
theorem Related.acts (hL : Lockstep P P' R S T) : ∀ (as : List Action) {s : Config M ε β γ}
    {s' : Config M' ε β' γ'}, Related R S T s s' →
    Option.Rel (Related R S T) (P.acts s as) (P'.acts s' as)
  | [], _, _, h => .some h
  | a :: as, _, _, h => by
    unfold Pipeline.acts
    have hact := h.act hL a
    generalize P.act _ a = t, P'.act _ a = t' at hact ⊢
    cases hact with
    | some ht => exact Related.acts hL as ht
    | none => exact .none

/-- From related states, a schedule is possible for both pipelines or for neither, and what it leads
to is related in whatever sense related configurations are. -/
theorem runFrom (hL : Lockstep P P' R S T) {σ : M.State} {σ' : M'.State} (hR : R σ σ')
    {V : Config M ε β γ → Config M' ε β' γ' → Prop} (hV : ∀ s s', Related R S T s s' → V s s')
    (as : List Action) : Option.Rel V (P.runFrom σ as) (P'.runFrom σ' as) := by
  have h := (hL.related_init hR).acts hL as
  unfold Pipeline.runFrom
  generalize P.acts _ as = t, P'.acts _ as = t' at h ⊢
  cases h with
  | some h => exact .some (hV _ _ h)
  | none => exact .none

end Lockstep

end Conc
