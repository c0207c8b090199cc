import Mathlib.Logic.Basic

/-!
# Decoders of a byte stream

A `Decoder` is a program over a reader whose only request is `read_exact`: it asks for `n` bytes
and continues with them, or ends with a value or an error. `Decoder.run` feeds it from a byte
string. A concrete reader is anything that answers `read_exact`; `Views` says that it delivers a
given byte string, and `Decoder.runOn_of_views` that a decoder then behaves on the reader as on
the string.
-/

namespace ByteStream

/-- A decoding program: a value, an error, or a request for `n` bytes. -/
inductive Decoder (α : Type) : Type where
  | done (a : α)
  | fail
  | readExact (n : Nat) (k : List UInt8 → Decoder α)

namespace Decoder

variable {α β : Type}

/-- Sequential composition. -/
def bind : Decoder α → (α → Decoder β) → Decoder β
  | done a, f => f a
  | fail, _ => fail
  | readExact n k, f => readExact n fun bs => (k bs).bind f

/-- Decode the front of a byte string: the value and the bytes left, `none` on an error or when
the string ends inside a request. -/
def run : Decoder α → List UInt8 → Option (α × List UInt8)
  | done a, s => some (a, s)
  | fail, _ => none
  | readExact n k, s => if n ≤ s.length then (k (s.take n)).run (s.drop n) else none

/-- Decode from a reader with state `σ` whose `read_exact` is `rd`. -/
def runOn {σ : Type} (rd : Nat → σ → Option (List UInt8 × σ)) : Decoder α → σ → Option (α × σ)
  | done a, r => some (a, r)
  | fail, _ => none
  | readExact n k, r =>
    match rd n r with
    | some (bs, r') => (k bs).runOn rd r'
    | none => none

theorem run_bind (d : Decoder α) (f : α → Decoder β) (s : List UInt8) :
    (d.bind f).run s = (d.run s).bind fun p => (f p.1).run p.2 := by
  induction d generalizing s with
  | done a => rfl
  | fail => rfl
  | readExact n k ih =>
    simp only [bind, run]
    split
    · exact ih _ _
    · rfl

/-- What a decoder reads from a string it reads from every longer one. -/
theorem run_append (d : Decoder α) (t : List UInt8) :
    ∀ {s : List UInt8} {a : α} {rest : List UInt8}, d.run s = some (a, rest) →
      d.run (s ++ t) = some (a, rest ++ t) := by
  induction d with
  | done a =>
    intro s a rest h
    obtain ⟨rfl, rfl⟩ := Prod.mk.inj (Option.some.inj h)
    rfl
  | fail => exact fun h => absurd h (by simp [run])
  | readExact n k ih =>
    intro s a rest h
    rw [run] at h ⊢
    by_cases hn : n ≤ s.length
    · rw [if_pos hn] at h
      rw [if_pos (by rw [List.length_append]; omega), List.take_append_of_le_length hn,
        List.drop_append_of_le_length hn]
      exact ih _ h
    · rw [if_neg hn] at h
      cases h

end Decoder

/-- `V r s`: reader state `r` delivers the byte string `s`. Each request is answered with the
front of the string, or refused when the string is too short. -/
def Views {σ : Type} (rd : Nat → σ → Option (List UInt8 × σ)) (V : σ → List UInt8 → Prop) : Prop :=
  ∀ r s n, V r s →
    (n ≤ s.length → ∃ r', rd n r = some (s.take n, r') ∧ V r' (s.drop n)) ∧
      (s.length < n → rd n r = none)

/-- **A decoder on a reader decodes the string the reader delivers**, and leaves the reader where
the decoder leaves the string. -/
theorem Decoder.runOn_of_views {σ α : Type} {rd : Nat → σ → Option (List UInt8 × σ)}
    {V : σ → List UInt8 → Prop} (hV : Views rd V) (d : Decoder α) :
    ∀ {r : σ} {s : List UInt8}, V r s →
      (∀ a s', d.run s = some (a, s') → ∃ r', d.runOn rd r = some (a, r') ∧ V r' s') ∧
        (d.run s = none → d.runOn rd r = none) := by
  induction d with
  | done a =>
    intro r s hr
    refine ⟨fun b s' h => ?_, fun h => absurd h (by simp [Decoder.run])⟩
    obtain ⟨rfl, rfl⟩ := Prod.mk.inj (Option.some.inj h)
    exact ⟨r, rfl, hr⟩
  | fail => exact fun _ => ⟨fun _ _ h => absurd h (by simp [Decoder.run]), fun _ => rfl⟩
  | readExact n k ih =>
    intro r s hr
    simp only [Decoder.run, Decoder.runOn]
    obtain ⟨hle, hgt⟩ := hV r s n hr
    by_cases hn : n ≤ s.length
    · obtain ⟨r', hrd, hr'⟩ := hle hn
      rw [hrd, if_pos hn]
      exact ih _ hr'
    · rw [hgt (by omega), if_neg hn]
      exact ⟨fun _ _ h => absurd h (by simp), fun _ => rfl⟩

end ByteStream
