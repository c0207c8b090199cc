import BitcoinExplorer.Lib.Pipeline

/-!
# The same programs over another machine

`Machine.onto` keeps the operations and responses of a machine and executes them another way, over a
state of its own: a store that also counts its calls, or whose calls may fail. Programs and
pipelines carry over as they stand.

* `Prog.onto_bind`, `Prog.onto_andThen`: carrying over respects sequential composition.
-/

open Rust

namespace Conc

variable {M : Machine} {ε α β γ : Type}

/-- The operations of a machine, executed another way over another state. -/
abbrev Machine.onto (M : Machine) (S : Type) (exec : (o : M.Op) → S → M.Res o × S) : Machine where
  State := S
  Op := M.Op
  Res := M.Res
  exec := exec

variable {S : Type} {exec : (o : M.Op) → S → M.Res o × S}

namespace Prog

/-- The same program. -/
def onto (exec : (o : M.Op) → S → M.Res o × S) : Prog M α → Prog (M.onto S exec) α
  | ret a => ret a
  | op o k => op o fun r => (k r).onto exec

@[simp] theorem onto_ret (a : α) : (ret a : Prog M α).onto exec = ret a := rfl

@[simp] theorem onto_op (o : M.Op) (k : M.Res o → Prog M α) :
    (op o k).onto exec = op (M := M.onto S exec) o fun r => (k r).onto exec := rfl

theorem onto_bind (p : Prog M α) (f : α → Prog M β) :
    (p.bind f).onto exec = (p.onto exec).bind fun a => (f a).onto exec := by
  induction p with
  | ret a => rfl
  | op o k ih => exact congrArg (op (M := M.onto S exec) o) (funext ih)

theorem onto_andThen (p : Prog M (Outcome ε α)) (f : α → Prog M (Outcome ε β)) :
    (p.andThen f).onto exec = (p.onto exec).andThen fun a => (f a).onto exec := by
  unfold andThen
  rw [onto_bind]
  refine congrArg _ (funext fun r => ?_)
  cases r <;> rfl

end Prog

/-- The same pipeline. -/
def Pipeline.onto (exec : (o : M.Op) → S → M.Res o × S) (P : Pipeline M ε β γ) :
    Pipeline (M.onto S exec) ε β γ where
  len := P.len
  stage1 h := (P.stage1 h).onto exec
  stage2 b := (P.stage2 b).onto exec

end Conc
