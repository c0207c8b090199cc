import Mathlib.Algebra.Order.Ring.Nat
import Mathlib.Algebra.Ring.Nat

/-!
# Variable-length integers, most significant digit first

Base-128 digits, most significant first, with the high bit set on all bytes but the last, and one
subtracted at every continuation so that each number has exactly one encoding: the `VARINT` of
Bitcoin Core's serialisation.

* **`decodeVarInt_eq_some`**: numbers and their encodings determine each other.
-/

namespace Varint

/-- The bytes before the last one. -/
def highBytes (n : Nat) : List UInt8 :=
  if n < 128 then [] else highBytes (n / 128 - 1) ++ [UInt8.ofNat ((n / 128 - 1) % 128 + 128)]
termination_by n
decreasing_by omega

/-- `WriteVarInt`. -/
def writeVarInt (n : Nat) : List UInt8 := highBytes n ++ [UInt8.ofNat (n % 128)]

theorem highBytes_of_lt {n : Nat} (h : n < 128) : highBytes n = [] := by
  rw [highBytes, if_pos h]

theorem highBytes_of_ge {n : Nat} (h : 128 ≤ n) :
    highBytes n = highBytes (n / 128 - 1) ++ [UInt8.ofNat ((n / 128 - 1) % 128 + 128)] := by
  rw [highBytes, if_neg (by omega)]

/-- Only the digits before the last one count. -/
theorem highBytes_congr {m n : Nat} (h : m / 128 = n / 128) : highBytes m = highBytes n := by
  by_cases hlt : m < 128
  · rw [highBytes_of_lt hlt, highBytes_of_lt (by omega)]
  · rw [highBytes_of_ge (n := m) (by omega), highBytes_of_ge (n := n) (by omega), h]

/-! ## Decoding without a bound -/

/-- The number at the front of a byte string and the bytes after it, when the digits before are
worth `n`; `none` when the string ends inside the number. -/
def decodeVarInt : List UInt8 → Nat → Option (Nat × List UInt8)
  | [], _ => none
  | b :: rest, n =>
    if 128 ≤ b.toNat then decodeVarInt rest (n * 128 + b.toNat % 128 + 1)
    else some (n * 128 + b.toNat, rest)

/-- What the digits read so far are worth, after each byte that says another one follows. -/
def accumulators : List UInt8 → Nat → List Nat
  | [], _ => []
  | b :: rest, n =>
    if 128 ≤ b.toNat then
      (n * 128 + b.toNat % 128 + 1) :: accumulators rest (n * 128 + b.toNat % 128 + 1)
    else []

theorem decodeVarInt_highBytes (n : Nat) (rest : List UInt8) :
    decodeVarInt (highBytes n ++ rest) 0 = decodeVarInt rest (n / 128) := by
  induction n using Nat.strongRecOn generalizing rest with
  | ind n ih =>
    by_cases hlt : n < 128
    · rw [highBytes_of_lt hlt, Nat.div_eq_of_lt hlt, List.nil_append]
    · have hbyte : (UInt8.ofNat ((n / 128 - 1) % 128 + 128)).toNat = (n / 128 - 1) % 128 + 128 :=
        UInt8.toNat_ofNat_of_lt' (show (n / 128 - 1) % 128 + 128 < 256 by omega)
      rw [highBytes_of_ge (by omega), List.append_assoc, ih _ (by omega), List.singleton_append,
        decodeVarInt, hbyte, if_pos (by omega)]
      congr 1
      omega

theorem decodeVarInt_writeVarInt (n : Nat) (rest : List UInt8) :
    decodeVarInt (writeVarInt n ++ rest) 0 = some (n, rest) := by
  have hbyte : (UInt8.ofNat (n % 128)).toNat = n % 128 :=
    UInt8.toNat_ofNat_of_lt' (show n % 128 < 256 by omega)
  rw [writeVarInt, List.append_assoc, decodeVarInt_highBytes, List.singleton_append, decodeVarInt,
    hbyte, if_neg (by omega)]
  congr 2
  omega

/-- The bytes that are decoded after digits worth `m` complete the encoding of the number. -/
theorem eq_of_decodeVarInt : ∀ {bytes : List UInt8} {m n : Nat} {rest : List UInt8},
    decodeVarInt bytes m = some (n, rest) → highBytes (m * 128) ++ bytes = writeVarInt n ++ rest
  | [], _, _, _, h => by cases h
  | b :: bytes, m, n, rest, h => by
    unfold decodeVarInt at h
    split at h
    · rename_i hb
      have ih := eq_of_decodeVarInt h
      have hdigit : UInt8.ofNat (((m * 128 + b.toNat % 128 + 1) * 128 / 128 - 1) % 128 + 128) =
          b := by
        refine (congrArg UInt8.ofNat ?_).trans UInt8.ofNat_toNat
        have := b.toNat_lt
        omega
      rw [highBytes_of_ge (by omega), hdigit,
        highBytes_congr (show _ = m * 128 / 128 by omega), List.append_assoc] at ih
      exact ih
    · rename_i hb
      obtain ⟨rfl, rfl⟩ := Prod.mk.inj (Option.some.inj h)
      have hdigit : UInt8.ofNat ((m * 128 + b.toNat) % 128) = b := by
        refine (congrArg UInt8.ofNat ?_).trans UInt8.ofNat_toNat
        omega
      rw [writeVarInt, hdigit,
        highBytes_congr (show (m * 128 + b.toNat) / 128 = m * 128 / 128 by omega),
        List.append_assoc, List.singleton_append]

/-- **Numbers and their encodings determine each other**: a byte string decodes to a number exactly
when it starts with the encoding of that number. -/
theorem decodeVarInt_eq_some {bytes rest : List UInt8} {n : Nat} :
    decodeVarInt bytes 0 = some (n, rest) ↔ bytes = writeVarInt n ++ rest := by
  constructor
  · intro h
    have := eq_of_decodeVarInt h
    rwa [Nat.zero_mul, highBytes_of_lt (by decide), List.nil_append] at this
  · rintro rfl
    exact decodeVarInt_writeVarInt n rest

/-- No encoding is a front part of another. -/
theorem writeVarInt_append_inj {m n : Nat} {s t : List UInt8}
    (h : writeVarInt m ++ s = writeVarInt n ++ t) : m = n ∧ s = t := by
  have hm := decodeVarInt_writeVarInt m s
  rw [h, decodeVarInt_writeVarInt] at hm
  exact (Prod.mk.inj (Option.some.inj hm)).imp Eq.symm Eq.symm

/-- The digits read on the way are worth no more than the number. -/
theorem le_of_mem_accumulators : ∀ {bytes : List UInt8} {m n : Nat} {rest : List UInt8},
    decodeVarInt bytes m = some (n, rest) → m ≤ n ∧ ∀ a ∈ accumulators bytes m, 0 < a ∧ a ≤ n
  | [], _, _, _, h => by cases h
  | b :: bytes, m, n, rest, h => by
    unfold decodeVarInt at h
    unfold accumulators
    split at h
    · rename_i hb
      obtain ⟨hle, hall⟩ := le_of_mem_accumulators h
      rw [if_pos hb]
      refine ⟨by omega, fun a ha => ?_⟩
      rcases List.mem_cons.mp ha with rfl | ha
      · exact ⟨Nat.succ_pos _, hle⟩
      · exact hall a ha
    · rename_i hb
      obtain ⟨rfl, -⟩ := Prod.mk.inj (Option.some.inj h)
      rw [if_neg hb]
      exact ⟨by omega, by simp⟩

end Varint
