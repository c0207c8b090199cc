import BitcoinExplorer.Lib.Outcome
import Mathlib.Logic.Basic

/-!
# Programs of atomic operations

A `Machine` is a shared state with a set of operations, each executed atomically: a critical section
of a mutex, one call of a concurrent key-value store. A `Prog` is a thread's code as a tree: it
returns, or performs one operation and continues with the response. `Prog.run` executes a program
alone; `Pipeline.lean` interleaves several. `Prog.Ends` says that some responses lead a program to a
result: whatever else runs in between, and from whatever state.
-/

open Rust

namespace Conc

/-- A shared state and its atomic operations. -/
structure Machine where
  /-- The shared state. -/
  State : Type
  /-- The atomic operations. -/
  Op : Type
  /-- The response of an operation. -/
  Res : Op → Type
  /-- One operation: its response and the state it leaves. -/
  exec : (o : Op) → State → Res o × State

/-- A thread's code: return a value, or perform an operation and continue with its response. -/
inductive Prog (M : Machine) (α : Type) : Type where
  | ret (a : α)
  | op (o : M.Op) (k : M.Res o → Prog M α)

namespace Prog

variable {M : Machine} {ε α β γ : Type}

/-- Sequential composition. -/
def bind : Prog M α → (α → Prog M β) → Prog M β
  | ret a, f => f a
  | op o k, f => op o fun r => (k r).bind f

/-- Sequential composition under `?`: the rest runs when the first part returned `Ok`. -/
def andThen (p : Prog M (Outcome ε α)) (f : α → Prog M (Outcome ε β)) : Prog M (Outcome ε β) :=
  p.bind fun r =>
    match r with
    | .ok a => f a
    | .err e => ret (.err e)
    | .panic => ret .panic

/-- Execute a program without interference. -/
def run : Prog M α → M.State → α × M.State
  | ret a, σ => (a, σ)
  | op o k, σ => (k (M.exec o σ).1).run (M.exec o σ).2

@[simp] theorem ret_bind (a : α) (f : α → Prog M β) : (ret a).bind f = f a := rfl

@[simp] theorem op_bind (o : M.Op) (k : M.Res o → Prog M α) (f : α → Prog M β) :
    (op o k).bind f = op o fun r => (k r).bind f := rfl

@[simp] theorem ret_ok_andThen (a : α) (f : α → Prog M (Outcome ε β)) :
    (ret (.ok a)).andThen f = f a := rfl

@[simp] theorem ret_err_andThen (e : ε) (f : α → Prog M (Outcome ε β)) :
    (ret (.err e) : Prog M (Outcome ε α)).andThen f = ret (.err e) := rfl

@[simp] theorem op_andThen (o : M.Op) (k : M.Res o → Prog M (Outcome ε α))
    (f : α → Prog M (Outcome ε β)) : (op o k).andThen f = op o fun r => (k r).andThen f := rfl

@[simp] theorem run_ret (a : α) (σ : M.State) : (ret a).run σ = (a, σ) := rfl

@[simp] theorem run_op (o : M.Op) (k : M.Res o → Prog M α) (σ : M.State) :
    (op o k).run σ = (k (M.exec o σ).1).run (M.exec o σ).2 := rfl

/-- Running a composition runs the parts one after the other. -/
theorem run_bind (p : Prog M α) (f : α → Prog M β) (σ : M.State) :
    (p.bind f).run σ = (f (p.run σ).1).run (p.run σ).2 := by
  induction p generalizing σ with
  | ret a => rfl
  | op o k ih => exact ih _ _

/-- A part that returns `Ok` hands over to the rest. -/
theorem run_andThen_ok {p : Prog M (Outcome ε α)} {σ σ' : M.State} {a : α}
    (h : p.run σ = (.ok a, σ')) (f : α → Prog M (Outcome ε β)) :
    (p.andThen f).run σ = (f a).run σ' := by
  unfold andThen
  rw [run_bind, h]

/-- A part that returns `Err` ends the whole. -/
theorem run_andThen_err {p : Prog M (Outcome ε α)} {σ σ' : M.State} {e : ε}
    (h : p.run σ = (.err e, σ')) (f : α → Prog M (Outcome ε β)) :
    (p.andThen f).run σ = (.err e, σ') := by
  unfold andThen
  rw [run_bind, h]
  rfl

/-- Some responses lead the program to this result. -/
inductive Ends : Prog M α → α → Prop
  | ret (a : α) : Ends (ret a) a
  | op {o : M.Op} {k : M.Res o → Prog M α} {a : α} (r : M.Res o) (h : Ends (k r) a) :
    Ends (op o k) a

@[simp] theorem ends_ret {a b : α} : (ret a : Prog M α).Ends b ↔ b = a := by
  constructor
  · intro h
    cases h
    rfl
  · rintro rfl
    exact .ret b

@[simp] theorem ends_op {o : M.Op} {k : M.Res o → Prog M α} {a : α} :
    (op o k).Ends a ↔ ∃ r, (k r).Ends a := by
  constructor
  · intro h
    cases h with
    | op r h => exact ⟨r, h⟩
  · rintro ⟨r, h⟩
    exact .op r h

/-- A run, from any state, is such a case. -/
theorem ends_run (p : Prog M α) (σ : M.State) : p.Ends (p.run σ).1 := by
  induction p generalizing σ with
  | ret a => exact .ret a
  | op o k ih => exact .op _ (ih _ _)

theorem ends_bind {p : Prog M α} {f : α → Prog M β} {b : β} :
    (p.bind f).Ends b ↔ ∃ a, p.Ends a ∧ (f a).Ends b := by
  induction p with
  | ret a => simp
  | op o k ih =>
    simp only [op_bind, ends_op, ih]
    constructor
    · rintro ⟨r, a, hp, hf⟩
      exact ⟨a, ⟨r, hp⟩, hf⟩
    · rintro ⟨a, ⟨r, hp⟩, hf⟩
      exact ⟨r, a, hp, hf⟩

/-- A composition that ends in `Ok` got `Ok` from its first part. -/
theorem ends_andThen_ok {p : Prog M (Outcome ε α)} {f : α → Prog M (Outcome ε β)} {b : β} :
    (p.andThen f).Ends (.ok b) ↔ ∃ a, p.Ends (.ok a) ∧ (f a).Ends (.ok b) := by
  rw [andThen, ends_bind]
  constructor
  · rintro ⟨r, hp, hf⟩
    cases r with
    | ok a => exact ⟨a, hp, hf⟩
    | err e => cases hf
    | panic => cases hf
  · rintro ⟨a, hp, hf⟩
    exact ⟨.ok a, hp, hf⟩

end Prog

end Conc
