import Mathlib.Data.List.Forall2

/-!
# Outcomes of a Rust call

A Rust function returning `Result<α, ε>` can return `Ok`, return `Err`, or abort by a panic
(`unwrap`, `expect`, `assert!`, an out-of-range index, an overflow under overflow checks).
`Outcome ε α` keeps the three apart; `?` is the monadic bind. `overflowing` is a machine operation
whose exact result may not fit its type: it panics when overflow checks are on and wraps when they
are off, so a model over a `Target` covers both build profiles.
-/

namespace Rust

/-- What the build fixes: the byte order of the machine, and whether arithmetic is checked. -/
structure Target where
  littleEndian : Bool
  overflowChecks : Bool

/-- What a call can do: return `Ok`, return `Err`, or panic. -/
inductive Outcome (ε α : Type) where
  | ok (a : α)
  | err (e : ε)
  | panic
  deriving Repr, DecidableEq

namespace Outcome

variable {ε ε' α β : Type}

/-- The `?` operator followed by the rest of the body. -/
def bind : Outcome ε α → (α → Outcome ε β) → Outcome ε β
  | ok a, f => f a
  | err e, _ => err e
  | panic, _ => panic

instance : Monad (Outcome ε) where
  pure := ok
  bind := bind

/-- `Result::map_err`. -/
def mapErr (f : ε → ε') : Outcome ε α → Outcome ε' α
  | ok a => ok a
  | err e => err (f e)
  | panic => panic

/-- `Option::ok_or`. -/
def ofOption (e : ε) : Option α → Outcome ε α
  | some a => ok a
  | none => err e

/-- The call returned `Ok`. -/
def isOk : Outcome ε α → Bool
  | ok _ => true
  | _ => false

/-- `Result::ok`. -/
def toOption : Outcome ε α → Option α
  | ok a => some a
  | _ => none

/-- The value of a call that returned `Ok`. -/
def get : (x : Outcome ε α) → x.isOk = true → α
  | ok a, _ => a

/-- The call does not panic, and the value it returns, if any, is as `P` says. -/
def Safe (P : α → Prop) : Outcome ε α → Prop
  | ok a => P a
  | err _ => True
  | panic => False

/-- A machine operation whose result is `exact` when it fits and `wrapped` otherwise. -/
def overflowing (tgt : Target) (fits : Prop) [Decidable fits] (exact wrapped : α) :
    Outcome ε α :=
  if fits then ok exact else if tgt.overflowChecks then panic else ok wrapped

/-! ## The bind, case by case -/

@[simp] theorem pure_eq (a : α) : (pure a : Outcome ε α) = ok a := rfl

@[simp] theorem ok_bind (a : α) (f : α → Outcome ε β) : (ok a >>= f) = f a := rfl

@[simp] theorem err_bind (e : ε) (f : α → Outcome ε β) : (err e >>= f) = err e := rfl

@[simp] theorem panic_bind (f : α → Outcome ε β) : ((panic : Outcome ε α) >>= f) = panic := rfl

instance : LawfulMonad (Outcome ε) :=
  LawfulMonad.mk' _ (fun x => by cases x <;> rfl) (fun _ _ => rfl) (fun x _ _ => by cases x <;> rfl)

/-- A computation ending in `Ok` got `Ok` from each of its parts. -/
theorem bind_eq_ok {x : Outcome ε α} {f : α → Outcome ε β} {b : β} :
    (x >>= f) = ok b ↔ ∃ a, x = ok a ∧ f a = ok b := by
  cases x with
  | ok a => simp
  | err e => simp
  | panic => simp

/-- A computation ending in `Err` got it from its first part, or from the rest after an `Ok`. -/
theorem bind_eq_err {x : Outcome ε α} {f : α → Outcome ε β} {e : ε} :
    (x >>= f) = err e ↔ x = err e ∨ ∃ a, x = ok a ∧ f a = err e := by
  cases x with
  | ok a => simp
  | err e => simp
  | panic => simp

/-- A computation panics when its first part does or its rest does after an `Ok`. -/
theorem bind_eq_panic {x : Outcome ε α} {f : α → Outcome ε β} :
    (x >>= f) = panic ↔ x = panic ∨ ∃ a, x = ok a ∧ f a = panic := by
  cases x with
  | ok a => simp
  | err e => simp
  | panic => simp

@[simp] theorem mapErr_eq_ok {f : ε → ε'} {x : Outcome ε α} {a : α} :
    mapErr f x = ok a ↔ x = ok a := by
  cases x <;> simp [mapErr]

@[simp] theorem ofOption_eq_ok {e : ε} {x : Option α} {a : α} :
    ofOption e x = ok a ↔ x = some a := by
  cases x <;> simp [ofOption]

@[simp] theorem ofOption_ne_panic {e : ε} {x : Option α} : ofOption e x ≠ panic := by
  cases x <;> simp [ofOption]

@[simp] theorem safe_ok {P : α → Prop} {a : α} : (ok a : Outcome ε α).Safe P ↔ P a := Iff.rfl

@[simp] theorem safe_err {P : α → Prop} {e : ε} : (err e : Outcome ε α).Safe P := trivial

@[simp] theorem not_safe_panic {P : α → Prop} : ¬ (panic : Outcome ε α).Safe P := id

theorem Safe.imp {P Q : α → Prop} {x : Outcome ε α} (h : x.Safe P) (hPQ : ∀ a, P a → Q a) :
    x.Safe Q := by
  cases x with
  | ok a => exact hPQ a h
  | err e => trivial
  | panic => exact h

/-- A computation does not panic when its parts do not. -/
theorem Safe.bind {P : α → Prop} {Q : β → Prop} {x : Outcome ε α} {f : α → Outcome ε β}
    (h : x.Safe P) (hf : ∀ a, P a → (f a).Safe Q) : (x >>= f).Safe Q := by
  cases x with
  | ok a => exact hf a h
  | err e => trivial
  | panic => exact h.elim

theorem isOk_iff {x : Outcome ε α} : x.isOk = true ↔ ∃ a, x = ok a := by
  cases x <;> simp [isOk]

/-- Calls that all return `Ok` return the list of their results. -/
theorem mapM_of_ok {f : α → Outcome ε β} {g : α → β} : ∀ {l : List α}, (∀ a ∈ l, f a = ok (g a)) →
    l.mapM f = ok (l.map g)
  | [], _ => rfl
  | a :: l, h => by
    rw [List.mapM_cons, h a List.mem_cons_self, ok_bind,
      mapM_of_ok fun b hb => h b (List.mem_cons_of_mem _ hb), ok_bind, pure_eq, List.map_cons]

/-- Calls that never panic return the list of their results, or the first error. -/
theorem mapM_ok_or_first_err {f : α → Outcome ε β} (hf : ∀ a, f a ≠ panic) (l : List α) :
    (∃ bs, l.mapM f = ok bs ∧ List.Forall₂ (fun a b => f a = ok b) l bs) ∨
      ∃ pre a post e, l = pre ++ a :: post ∧ (∀ a' ∈ pre, ∃ b, f a' = ok b) ∧ f a = err e ∧
        l.mapM f = err e := by
  induction l with
  | nil => exact Or.inl ⟨[], rfl, .nil⟩
  | cons a l ih =>
    rw [List.mapM_cons]
    cases ha : f a with
    | panic => exact absurd ha (hf a)
    | err e => exact Or.inr ⟨[], a, l, e, rfl, by simp, ha, rfl⟩
    | ok b =>
      rw [ok_bind]
      rcases ih with ⟨bs, hbs, hall⟩ | ⟨pre, a', post, e, hl, hpre, ha', he⟩
      · exact Or.inl ⟨b :: bs, by rw [hbs, ok_bind, pure_eq], .cons ha hall⟩
      · refine Or.inr ⟨a :: pre, a', post, e, by rw [hl, List.cons_append], fun x hx => ?_, ha',
          by rw [he, err_bind]⟩
        rcases List.mem_cons.mp hx with rfl | hx
        · exact ⟨b, ha⟩
        · exact hpre x hx

/-- Calls that all return `Ok` return as many results. -/
theorem length_of_mapM {f : α → Outcome ε β} {l : List α} {bs : List β} (h : l.mapM f = ok bs) :
    bs.length = l.length := by
  induction l generalizing bs with
  | nil =>
    rw [List.mapM_nil, pure_eq] at h
    obtain rfl := ok.inj h
    rfl
  | cons a l ih =>
    rw [List.mapM_cons] at h
    obtain ⟨b, -, h⟩ := bind_eq_ok.mp h
    obtain ⟨rest, hrest, h⟩ := bind_eq_ok.mp h
    obtain rfl := ok.inj h
    rw [List.length_cons, List.length_cons, ih hrest]

/-- When all calls together return `Ok`, each of them does. -/
theorem exists_ok_of_mapM {f : α → Outcome ε β} {l : List α} {bs : List β} (h : l.mapM f = ok bs) :
    ∀ a ∈ l, ∃ b, f a = ok b := by
  induction l generalizing bs with
  | nil => exact fun _ ha => absurd ha List.not_mem_nil
  | cons a l ih =>
    rw [List.mapM_cons] at h
    obtain ⟨b, hb, h⟩ := bind_eq_ok.mp h
    obtain ⟨rest, hrest, -⟩ := bind_eq_ok.mp h
    exact List.forall_mem_cons.mpr ⟨⟨b, hb⟩, ih hrest⟩

/-- Calls that return no error panic together exactly when one of them does. -/
theorem mapM_ne_panic_iff {f : α → Outcome ε β} (hf : ∀ a e, f a ≠ err e)
    {l : List α} : l.mapM f ≠ panic ↔ ∀ a ∈ l, f a ≠ panic := by
  induction l with
  | nil => simp
  | cons a l ih =>
    rw [List.mapM_cons, List.forall_mem_cons, ← ih]
    cases ha : f a with
    | panic => simp
    | err e => exact absurd ha (hf a e)
    | ok b => simp [bind_eq_panic]

/-! ## Results that stay -/

/-- What `x` returns with `Ok`, `y` returns. -/
def Settles (x y : Outcome ε α) : Prop := ∀ a, x = ok a → y = ok a

theorem Settles.refl (x : Outcome ε α) : x.Settles x := fun _ h => h

/-- A computation settles when its parts do. -/
theorem Settles.bind {x y : Outcome ε α} {f g : α → Outcome ε β} (h : x.Settles y)
    (hfg : ∀ a, (f a).Settles (g a)) : (x >>= f).Settles (y >>= g) := by
  intro b hb
  obtain ⟨a, ha, hb⟩ := bind_eq_ok.mp hb
  rw [h a ha, ok_bind]
  exact hfg a b hb

/-! ## Machine operations -/

theorem overflowing_eq_panic {tgt : Target} {fits : Prop} [Decidable fits] {a b : α} :
    (overflowing tgt fits a b : Outcome ε α) = panic ↔ tgt.overflowChecks = true ∧ ¬ fits := by
  unfold overflowing
  by_cases h : fits
  · simp [h]
  · cases tgt.overflowChecks <;> simp [h]

/-- Where it does not panic, an operation gives its result modulo the size of the type. -/
theorem overflowing_wraps {tgt : Target} {m size : Nat}
    (h : ¬ (tgt.overflowChecks = true ∧ ¬ m < size)) :
    (overflowing tgt (m < size) m (m % size) : Outcome ε Nat) = ok (m % size) := by
  unfold overflowing
  by_cases hfits : m < size
  · rw [if_pos hfits, Nat.mod_eq_of_lt hfits]
  · rw [if_neg hfits, if_neg fun hchecks => h ⟨hchecks, hfits⟩]

theorem overflowing_of_fits {tgt : Target} {fits : Prop} [Decidable fits]
    (h : fits) (a b : α) : (overflowing tgt fits a b : Outcome ε α) = ok a :=
  if_pos h

end Outcome

end Rust
