import BitcoinExplorer.Lib.Cutoff
import BitcoinExplorer.Lib.Keeps

/-!
# Ordered parallel maps

One stage of worker threads that call a function on each task of a list, in any order and
interleaving, and a consumer that takes the results in task order and stops at the first call that
fails. It is the pipeline whose second stage only hands results on.

* `okPrefix`: the results of the calls up to the first that fails.
* **`parMap_delivers`**: under every schedule the consumer sees `okPrefix` and nothing else.
-/

namespace Conc

open Rust

variable {τ ε β : Type}

/-- Calls that share no state. -/
abbrev calls (call : τ → Outcome ε β) : Machine where
  State := Unit
  Op := τ
  Res _ := Outcome ε β
  exec a σ := (call a, σ)

/-- The ordered parallel map. -/
def Pipeline.parMap (call : τ → Outcome ε β) (tasks : List τ) : Pipeline (calls call) ε β β where
  len := tasks.length
  stage1 h :=
    match tasks[h]? with
    | some a => .op a fun r => .ret r
    | none => .ret .panic
  stage2 b := .ret (.ok b)

/-- The results of the calls before the first that does not return `Ok`. -/
def okPrefix (call : τ → Outcome ε β) : List τ → List β
  | [] => []
  | a :: as =>
    match call a with
    | .ok b => b :: okPrefix call as
    | _ => []

variable {call : τ → Outcome ε β}

theorem okPrefix_cons_of_ok {a : τ} {b : β} (h : call a = .ok b) (as : List τ) :
    okPrefix call (a :: as) = b :: okPrefix call as := by
  rw [okPrefix, h]

theorem okPrefix_cons_of_not_ok {a : τ} (h : (call a).isOk = false) (as : List τ) :
    okPrefix call (a :: as) = [] := by
  unfold okPrefix
  cases hc : call a with
  | ok b =>
    rw [hc] at h
    cases h
  | err e => rfl
  | panic => rfl

/-- Results in order, as long as every call succeeds, are those of the prefix. -/
theorem prefix_okPrefix : ∀ {tasks : List τ} {bs : List β},
    (∀ (i : Nat) (b : β), bs[i]? = some b → ∃ a, tasks[i]? = some a ∧ call a = .ok b) →
    bs <+: okPrefix call tasks
  | tasks, [], _ => List.nil_prefix
  | tasks, b :: bs, h => by
    obtain ⟨a, ha, hb⟩ := h 0 b rfl
    cases tasks with
    | nil => cases ha
    | cons a' as =>
      obtain rfl := Option.some.inj ha
      rw [okPrefix_cons_of_ok hb, List.cons_prefix_cons]
      exact ⟨rfl, prefix_okPrefix fun i b' hi => h (i + 1) b' hi⟩

/-- The prefix ends before a call that fails. -/
theorem length_okPrefix_le_of_not_ok : ∀ {tasks : List τ} {n : Nat} {a : τ},
    tasks[n]? = some a → (call a).isOk = false → (okPrefix call tasks).length ≤ n
  | [], n, a, h, _ => by cases h
  | a' :: as, 0, a, h, hfail => by
    obtain rfl := Option.some.inj h
    rw [okPrefix_cons_of_not_ok hfail]
    exact le_rfl
  | a' :: as, n + 1, a, h, hfail => by
    by_cases ha' : (call a').isOk = true
    · obtain ⟨b, hb⟩ := Outcome.isOk_iff.mp ha'
      rw [okPrefix_cons_of_ok hb]
      exact Nat.succ_le_succ (length_okPrefix_le_of_not_ok h hfail)
    · rw [okPrefix_cons_of_not_ok (by simpa using ha')]
      exact Nat.zero_le _

/-- A result of the prefix is that of its call. -/
theorem getElem?_okPrefix : ∀ {tasks : List τ} {i : Nat}, i < (okPrefix call tasks).length →
    ∃ a b, tasks[i]? = some a ∧ call a = .ok b ∧ (okPrefix call tasks)[i]? = some b
  | [], i, h => absurd h (Nat.not_lt_zero i)
  | a :: as, i, h => by
    by_cases ha : (call a).isOk = true
    · obtain ⟨b, hb⟩ := Outcome.isOk_iff.mp ha
      rw [okPrefix_cons_of_ok hb] at h ⊢
      cases i with
      | zero => exact ⟨a, b, rfl, hb, rfl⟩
      | succ i => exact getElem?_okPrefix (Nat.lt_of_succ_lt_succ h)
    · rw [okPrefix_cons_of_not_ok (by simpa using ha)] at h
      exact absurd h (Nat.not_lt_zero i)

/-- The prefix holds the results of all tasks, or ends before a call that fails. -/
theorem okPrefix_ends : ∀ tasks : List τ, (okPrefix call tasks).length = tasks.length ∨
    ∃ a, tasks[(okPrefix call tasks).length]? = some a ∧ (call a).isOk = false
  | [] => Or.inl rfl
  | a :: as => by
    by_cases ha : (call a).isOk = true
    · obtain ⟨b, hb⟩ := Outcome.isOk_iff.mp ha
      rw [okPrefix_cons_of_ok hb, List.length_cons, List.length_cons, List.getElem?_cons_succ]
      exact (okPrefix_ends as).imp (congrArg _) id
    · have hfail : (call a).isOk = false := by simpa using ha
      rw [okPrefix_cons_of_not_ok hfail]
      exact Or.inr ⟨a, rfl, hfail⟩

namespace Pipeline

/-- What a task returns is what its call returns. -/
theorem parMap_kept (call : τ → Outcome ε β) (tasks : List τ) :
    (parMap call tasks).Kept (W := NoGhost) (fun _ _ => True)
      (fun h _ r => ∃ a, tasks[h]? = some a ∧ r = call a)
      fun h _ r => ∃ a, tasks[h]? = some a ∧ r = call a ∧ r.isOk = true where
  mono1 _ _ _ _ _ hr := hr
  mono2 _ _ _ _ _ hr := hr
  stage1 h _ hlt := by
    have ha : tasks[h]? = some tasks[h] := List.getElem?_eq_getElem hlt
    have hstage : (parMap call tasks).stage1 h = .op tasks[h] fun r => .ret r := by
      simp only [parMap, ha]
    rw [hstage]
    exact fun w _ _ _ => ⟨w, le_rfl, trivial, tasks[h], ha, rfl⟩
  stage2 h _ b _ hb := by
    obtain ⟨a, ha, hcall⟩ := hb
    exact ⟨a, ha, hcall, rfl⟩

/-- **Under every schedule the consumer sees the results up to the first call that fails**, and
nothing else. -/
theorem parMap_delivers (call : τ → Outcome ε β) (tasks : List τ) {s : Config (calls call) ε β β}
    (hr : (parMap call tasks).Reachable () s) :
    (parMap call tasks).DeliversUpTo (okPrefix call tasks).length
      (fun i => (okPrefix call tasks)[i]?) s := by
  obtain ⟨_, -, h1, h2⟩ := (parMap_kept call tasks).reachable (w := .mk) trivial hr
  have hemitted : ∀ (i : Nat) (b : β), s.emitted[i]? = some b →
      ∃ a, tasks[i]? = some a ∧ call a = .ok b := by
    intro i b hi
    obtain ⟨a, ha, hcall, -⟩ := h2 i _ (hr.wf.emitted i b hi)
    exact ⟨a, ha, hcall.symm⟩
  have hfront := prefix_okPrefix hemitted
  refine ⟨hfront.length_le, ?_, fun hs => ?_, progress, hr.terminates⟩
  · apply List.ext_getElem
    · simp
    · intro i hi hi'
      simp only [List.length_map] at hi
      simp only [List.getElem_map, List.getElem_range]
      exact (List.prefix_iff_getElem?.mp hfront i hi).symm
  · refine Nat.le_antisymm hfront.length_le ?_
    -- the task that stopped the consumer is the next one
    obtain ⟨hlt, hf⟩ := failed_iff.mp (hr.wf.stopped hs)
    rcases hf with ⟨p, hp, hfp⟩ | ⟨j, hj, hfj⟩
    · obtain ⟨r, rfl, hr'⟩ := Prog.hasFailed_iff.mp hfp
      obtain ⟨a, -, -, hok⟩ := h2 _ r hp
      rw [hr'] at hok
      cases hok
    · obtain ⟨r, hw, hr'⟩ := Prog.hasFailed_iff.mp hfj
      obtain ⟨a, ha, rfl⟩ := h1 j r (by omega) hw
      have hle := length_okPrefix_le_of_not_ok ha hr'
      omega

end Pipeline

end Conc
