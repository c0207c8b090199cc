import BitcoinExplorer.Lib.Pipeline

/-!
# Two schedules of a pipeline

The two extremes of how far stage 1 runs ahead: not at all (`sequential`), and to its end before
stage 2 begins (`stage1Seq`, then `stage2Seq`). Both are among the schedules of the pipeline:

* **`sequential_run`**, **`lookAhead_run`**: some complete run makes the consumer see exactly that.
-/

open Rust

namespace Conc

variable {M : Machine} {ε β γ : Type}

namespace Pipeline

variable {P : Pipeline M ε β γ}

/-! ## The sequential schedule -/

/-- The results of tasks `h, h + 1, …, h + n - 1`, run one after the other from shared state `σ`
up to the first that does not return `Ok`: stage 1 of a task, then its stage 2. -/
def sequential (P : Pipeline M ε β γ) : Nat → Nat → M.State → List γ
  | 0, _, _ => []
  | n + 1, h, σ =>
    match ((P.stage1 h).run σ).1 with
    | .ok b =>
      match ((P.stage2 b).run ((P.stage1 h).run σ).2).1 with
      | .ok c => c :: sequential P n (h + 1) ((P.stage2 b).run ((P.stage1 h).run σ).2).2
      | _ => []
    | _ => []

/-- Fewer tasks give a front part of the results. -/
theorem sequential_take : ∀ {n m h : Nat} {σ : M.State}, n ≤ m →
    P.sequential n h σ = (P.sequential m h σ).take n
  | 0, _, _, _, _ => by rw [sequential, List.take_zero]
  | n + 1, m + 1, h, σ, hle => by
    unfold sequential
    cases ((P.stage1 h).run σ).1 with
    | err e => rfl
    | panic => rfl
    | ok b =>
      dsimp only
      cases ((P.stage2 b).run ((P.stage1 h).run σ).2).1 with
      | err e => rfl
      | panic => rfl
      | ok c =>
        dsimp only
        rw [List.take_succ_cons, sequential_take (Nat.le_of_succ_le_succ hle)]

/-- Stage 1 of one task can run to its end without interruption. -/
theorem Reachable.run1 {σ : M.State} {h : Nat} (hh : h < P.len) (p : Prog M (Outcome ε β)) :
    ∀ {s : Config M ε β γ}, P.Reachable σ s → s.work1 h = p →
      P.Reachable σ { s with
        shared := (p.run s.shared).2
        work1 := Function.update s.work1 h (.ret (p.run s.shared).1) } := by
  induction p with
  | ret r =>
    intro s hr hp
    have : Function.update s.work1 h (.ret r) = s.work1 := hp ▸ Function.update_eq_self h s.work1
    simpa only [Prog.run_ret, this] using hr
  | op o k ih =>
    intro s hr hp
    have hs := Reachable.step (.step1 h) hr (by simp only [act, hp, if_pos hh]; rfl)
    have := ih _ hs (Function.update_self h _ s.work1)
    simpa only [Prog.run_op, Function.update_idem] using this

/-- Stage 2 of one task can run to its end without interruption. -/
theorem Reachable.run2 {σ : M.State} {h : Nat} (p : Prog M (Outcome ε γ)) :
    ∀ {s : Config M ε β γ}, P.Reachable σ s → s.work2 h = some p →
      P.Reachable σ { s with
        shared := (p.run s.shared).2
        work2 := Function.update s.work2 h (some (.ret (p.run s.shared).1)) } := by
  induction p with
  | ret r =>
    intro s hr hp
    have : Function.update s.work2 h (some (.ret r)) = s.work2 :=
      hp ▸ Function.update_eq_self h s.work2
    simpa only [Prog.run_ret, this] using hr
  | op o k ih =>
    intro s hr hp
    have hs := Reachable.step (.step2 h) hr (by simp only [act, hp]; rfl)
    have := ih _ hs (Function.update_self h _ s.work2)
    simpa only [Prog.run_op, Function.update_idem] using this

/-- The consumer is at the end: it has stopped or has every result. -/
def Complete (P : Pipeline M ε β γ) (s : Config M ε β γ) : Prop :=
  s.stopped = true ∨ s.emitted.length = P.len

theorem sequential_fail1 {n h : Nat} {σ : M.State}
    (hf : ((P.stage1 h).run σ).1.isOk = false) : P.sequential (n + 1) h σ = [] := by
  simp only [sequential]
  split
  · rename_i b hb
    rw [hb] at hf
    exact absurd hf (by simp [Outcome.isOk])
  · rfl

theorem sequential_fail2 {n h : Nat} {σ : M.State} {b : β}
    (hb : ((P.stage1 h).run σ).1 = .ok b)
    (hf : ((P.stage2 b).run ((P.stage1 h).run σ).2).1.isOk = false) :
    P.sequential (n + 1) h σ = [] := by
  simp only [sequential, hb]
  split
  · rename_i c hc
    rw [hc] at hf
    exact absurd hf (by simp [Outcome.isOk])
  · rfl

theorem sequential_ok {n h : Nat} {σ : M.State} {b : β} {c : γ}
    (hb : ((P.stage1 h).run σ).1 = .ok b)
    (hc : ((P.stage2 b).run ((P.stage1 h).run σ).2).1 = .ok c) :
    P.sequential (n + 1) h σ =
      c :: P.sequential n (h + 1) ((P.stage2 b).run ((P.stage1 h).run σ).2).2 := by
  simp only [sequential, hb, hc]

/-- A task whose stages return `Ok` one after the other contributes its result. -/
theorem sequential_of_ok {n h : Nat} {σ σ₁ σ₂ : M.State} {b : β} {c : γ}
    (h1 : (P.stage1 h).run σ = (.ok b, σ₁)) (h2 : (P.stage2 b).run σ₁ = (.ok c, σ₂)) :
    P.sequential (n + 1) h σ = c :: P.sequential n (h + 1) σ₂ := by
  rw [sequential_ok (congrArg Prod.fst h1) (c := c) (by rw [h1, h2]), h1, h2]

/-- A task whose second stage does not return `Ok` ends the sequence. -/
theorem sequential_of_failed {n h : Nat} {σ σ₁ σ₂ : M.State} {b : β} {r : Outcome ε γ}
    (h1 : (P.stage1 h).run σ = (.ok b, σ₁)) (h2 : (P.stage2 b).run σ₁ = (r, σ₂))
    (hr : r.isOk = false) : P.sequential (n + 1) h σ = [] :=
  sequential_fail2 (congrArg Prod.fst h1) (by rw [h1, h2, hr])

/-- From a configuration whose tasks below the next one are done and the others untouched, the
sequential schedule completes. -/
theorem Reachable.sequential {σ : M.State} : ∀ (n : Nat) {s : Config M ε β γ}, P.Reachable σ s →
    s.stopped = false → s.emitted.length + n = P.len →
    (∀ j, s.emitted.length ≤ j → s.work1 j = P.stage1 j) →
    (∀ j, s.emitted.length ≤ j → s.work2 j = none) →
    (∀ j, j < s.emitted.length → (s.work1 j).isOk = true) →
    ∃ s', P.Reachable σ s' ∧ P.Complete s' ∧
      s'.emitted = s.emitted ++ P.sequential n s.emitted.length s.shared
  | 0, s, hr, _, hn, _, _, _ => ⟨s, hr, Or.inr hn, by simp [Pipeline.sequential]⟩
  | n + 1, s, hr, hs, hn, h1, h2, hd => by
    have hlt : s.emitted.length < P.len := by omega
    have hr1 := hr.run1 hlt _ (h1 _ (le_refl _))
    by_cases hok1 : ((P.stage1 s.emitted.length).run s.shared).1.isOk = true
    · obtain ⟨b, hb⟩ := Outcome.isOk_iff.mp hok1
      rw [hb] at hr1
      have hw1 : ∀ j, j < s.emitted.length →
          (Function.update s.work1 s.emitted.length (.ret (.ok b)) j).isOk = true := by
        intro j hj
        rw [Function.update_of_ne (by omega)]
        exact hd j hj
      have hr2 := Reachable.step (.hand s.emitted.length) hr1 (by
        simp only [act, Function.update_self, h2 _ (le_refl _)]
        exact if_pos ⟨hlt, hw1⟩)
      have hr3 := hr2.run2 _ (Function.update_self s.emitted.length _ s.work2)
      simp only [Function.update_idem] at hr3
      by_cases hok2 : ((P.stage2 b).run ((P.stage1 s.emitted.length).run s.shared).2).1.isOk = true
      · obtain ⟨c, hc⟩ := Outcome.isOk_iff.mp hok2
        rw [hc] at hr3
        have hr4 := Reachable.step .emit hr3 (by
          simp only [act, Function.update_self, hs]
          exact if_neg (by simp))
        have hlen : (s.emitted ++ [c]).length = s.emitted.length + 1 := by simp
        obtain ⟨s', hr', hC, he⟩ := Reachable.sequential n hr4 rfl (by simp only [hlen]; omega)
          (fun j hj => by
            simp only [hlen] at hj
            exact (Function.update_of_ne (by omega) _ _).trans (h1 j (by omega)))
          (fun j hj => by
            simp only [hlen] at hj
            exact (Function.update_of_ne (by omega) _ _).trans (h2 j (by omega)))
          (fun j hj => by
            simp only [hlen] at hj
            rcases Nat.lt_succ_iff_lt_or_eq.mp hj with hj | rfl
            · exact hw1 j hj
            · simp only [Function.update_self]; rfl)
        refine ⟨s', hr', hC, ?_⟩
        rw [he, sequential_ok hb hc]
        simp only [hlen, List.append_assoc, List.singleton_append]
      · have hf := Bool.eq_false_iff.mpr hok2
        refine ⟨_, .step .stop hr3 (if_pos ⟨hs, failed_iff.mpr ⟨hlt, Or.inl ⟨_,
          Function.update_self _ _ _, Prog.hasFailed_iff.mpr ⟨_, rfl, hf⟩⟩⟩⟩), Or.inl rfl, ?_⟩
        rw [sequential_fail2 hb hf, List.append_nil]
    · have hf := Bool.eq_false_iff.mpr hok1
      refine ⟨_, .step .stop hr1 (if_pos ⟨hs, failed_iff.mpr ⟨hlt, Or.inr ⟨s.emitted.length,
        le_refl _, Prog.hasFailed_iff.mpr ⟨_, Function.update_self _ _ _, hf⟩⟩⟩⟩),
        Or.inl rfl, ?_⟩
      rw [sequential_fail1 hf, List.append_nil]

/-- **The sequential schedule is one of the schedules**: some complete run makes the consumer see
exactly the sequential results. -/
theorem sequential_run (P : Pipeline M ε β γ) (σ : M.State) :
    ∃ s, P.Reachable σ s ∧ P.Complete s ∧ s.emitted = P.sequential P.len 0 σ := by
  obtain ⟨s, hr, hC, he⟩ := Reachable.sequential (P := P) P.len Reachable.init rfl
    (by simp [init]) (fun _ _ => rfl) (fun _ _ => rfl) (fun j hj => absurd hj (by simp [init]))
  exact ⟨s, hr, hC, by simpa [init] using he⟩

/-! ## Stage 1 first -/

/-- The results of stage 1 of tasks `h, …, h + n - 1`, run in order, and the shared state left. -/
def stage1Seq (P : Pipeline M ε β γ) : Nat → Nat → M.State → Option (List β × M.State)
  | 0, _, σ => some ([], σ)
  | n + 1, h, σ =>
    match ((P.stage1 h).run σ).1 with
    | .ok b =>
      (stage1Seq P n (h + 1) ((P.stage1 h).run σ).2).map fun p => (b :: p.1, p.2)
    | _ => none

/-- The results of stage 2 on a list of stage-1 results, run in order up to the first that does not
return `Ok`. -/
def stage2Seq (P : Pipeline M ε β γ) : List β → M.State → List γ
  | [], _ => []
  | b :: bs, σ =>
    match ((P.stage2 b).run σ).1 with
    | .ok c => c :: stage2Seq P bs ((P.stage2 b).run σ).2
    | _ => []

/-- From a configuration whose tasks below `h` have left stage 1 and the others are untouched, stage
1 can run in order to its end. -/
theorem Reachable.stage1Seq {σ : M.State} : ∀ (n h : Nat) {s : Config M ε β γ} {bs : List β}
    {σ' : M.State}, P.Reachable σ s → h + n = P.len → (∀ j, h ≤ j → s.work1 j = P.stage1 j) →
    P.stage1Seq n h s.shared = some (bs, σ') →
    ∃ work1, P.Reachable σ { s with shared := σ', work1 } ∧ bs.length = n ∧
      (∀ j, j < h → work1 j = s.work1 j) ∧ ∀ i b, bs[i]? = some b → work1 (h + i) = .ret (.ok b)
  | 0, h, s, bs, σ', hr, _, _, hseq => by
    obtain ⟨rfl, rfl⟩ := Prod.mk.inj (Option.some.inj hseq)
    exact ⟨s.work1, hr, rfl, fun _ _ => rfl, fun i b hi => absurd hi (by simp)⟩
  | n + 1, h, s, bs, σ', hr, hn, h1, hseq => by
    have hr1 := hr.run1 (by omega) _ (h1 h (le_refl h))
    unfold Pipeline.stage1Seq at hseq
    split at hseq
    · rename_i b hb
      obtain ⟨⟨bs', σ''⟩, hseq', he⟩ := Option.map_eq_some_iff.mp hseq
      obtain ⟨rfl, rfl⟩ := Prod.mk.inj he
      rw [hb] at hr1
      obtain ⟨work1, hr', hlen, hbelow, hget⟩ := Reachable.stage1Seq n (h + 1) hr1 (by omega)
        (fun j hj => (Function.update_of_ne (by omega) _ _).trans (h1 j (by omega))) hseq'
      refine ⟨work1, hr', by rw [List.length_cons, hlen], fun j hj => ?_, fun i b' hi => ?_⟩
      · exact (hbelow j (by omega)).trans (Function.update_of_ne (by omega) _ _)
      · cases i with
        | zero =>
          obtain rfl := Option.some.inj hi
          exact (hbelow h (by omega)).trans (Function.update_self _ _ _)
        | succ i =>
          rw [Nat.add_comm i 1, ← Nat.add_assoc]
          exact hget i b' hi
    · exact absurd hseq (by simp)

/-- From a configuration whose tasks have all left stage 1 and none from the next one on is in stage
2, stage 2 can run in order to its end. -/
theorem Reachable.stage2Seq {σ : M.State} : ∀ (bs : List β) {s : Config M ε β γ},
    P.Reachable σ s → s.stopped = false → s.emitted.length + bs.length = P.len →
    (∀ j, j < P.len → (s.work1 j).isOk = true) →
    (∀ i b, bs[i]? = some b → s.work1 (s.emitted.length + i) = .ret (.ok b)) →
    (∀ j, s.emitted.length ≤ j → s.work2 j = none) →
    ∃ s', P.Reachable σ s' ∧ P.Complete s' ∧ s'.emitted = s.emitted ++ P.stage2Seq bs s.shared
  | [], s, hr, _, hn, _, _, _ => ⟨s, hr, Or.inr hn, (List.append_nil _).symm⟩
  | b :: bs, s, hr, hs, hn, hok, hget, h2 => by
    rw [List.length_cons] at hn
    have hlt : s.emitted.length < P.len := by omega
    have hw1 : s.work1 s.emitted.length = .ret (.ok b) := hget 0 b rfl
    have hr1 := Reachable.step (.hand s.emitted.length) hr (by
      simp only [act, hw1, h2 _ (le_refl _)]
      exact if_pos ⟨hlt, fun j hj => hok j (by omega)⟩)
    have hr2 := hr1.run2 _ (Function.update_self s.emitted.length _ s.work2)
    simp only [Function.update_idem] at hr2
    unfold Pipeline.stage2Seq
    by_cases hc : ((P.stage2 b).run s.shared).1.isOk = true
    · obtain ⟨c, hc⟩ := Outcome.isOk_iff.mp hc
      rw [hc] at hr2 ⊢
      have hr3 := Reachable.step .emit hr2 (by
        simp only [act, Function.update_self, hs]
        exact if_neg (by simp))
      have hlen : (s.emitted ++ [c]).length = s.emitted.length + 1 := by simp
      obtain ⟨s', hr', hC, he⟩ := Reachable.stage2Seq bs hr3 rfl (by simp only [hlen]; omega) hok
        (fun i b' hi => by
          simp only [hlen]
          rw [Nat.add_assoc, Nat.add_comm 1 i]
          exact hget (i + 1) b' hi)
        (fun j hj => by
          simp only [hlen] at hj
          exact (Function.update_of_ne (by omega) _ _).trans (h2 j (by omega)))
      refine ⟨s', hr', hC, ?_⟩
      rw [he]
      simp only [List.append_assoc, List.singleton_append]
    · have hf := Bool.eq_false_iff.mpr hc
      refine ⟨_, .step .stop hr2 (if_pos ⟨hs, failed_iff.mpr ⟨hlt, Or.inl ⟨_,
        Function.update_self _ _ _, Prog.hasFailed_iff.mpr ⟨_, rfl, hf⟩⟩⟩⟩), Or.inl rfl, ?_⟩
      split
      · rename_i c hc'
        rw [hc'] at hf
        exact absurd hf (by simp [Outcome.isOk])
      · exact (List.append_nil _).symm

/-- **Running stage 1 to its end first is one of the schedules**: some complete run makes the
consumer see exactly what stage 2 then returns. -/
theorem lookAhead_run (P : Pipeline M ε β γ) {σ σ' : M.State} {bs : List β}
    (h : P.stage1Seq P.len 0 σ = some (bs, σ')) :
    ∃ s, P.Reachable σ s ∧ P.Complete s ∧ s.emitted = P.stage2Seq bs σ' := by
  obtain ⟨work1, hr, hlen, -, hget⟩ := Reachable.stage1Seq (P := P) P.len 0 Reachable.init
    (Nat.zero_add _) (fun _ _ => rfl) h
  have hall : ∀ j, j < P.len → (work1 j).isOk = true := by
    intro j hj
    rw [← hlen] at hj
    have := hget j bs[j] (List.getElem?_eq_getElem hj)
    rw [Nat.zero_add] at this
    rw [this]
    rfl
  obtain ⟨s, hr', hC, he⟩ := hr.stage2Seq bs rfl (by simp [init, hlen]) hall
    (fun i b hi => by simpa [init] using hget i b hi) (fun _ _ => rfl)
  exact ⟨s, hr', hC, by simpa [init] using he⟩

end Pipeline

end Conc
