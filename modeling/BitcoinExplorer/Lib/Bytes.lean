import Mathlib.Algebra.Order.Ring.Nat
import Mathlib.Algebra.Ring.Nat

/-!
# Fixed-width byte encodings

`leBytes w n` is the `w` bytes of `n`, least significant first, and `ofLeBytes` reads them back.
`neBytes` is the native order of a machine: the same bytes, or the reversed ones.
-/

namespace Bytes

/-- The low `w` bytes of `n`, least significant first. -/
def leBytes : Nat → Nat → List UInt8
  | 0, _ => []
  | w + 1, n => UInt8.ofNat n :: leBytes w (n / 256)

/-- The number whose little-endian bytes are given. -/
def ofLeBytes : List UInt8 → Nat
  | [] => 0
  | b :: bs => b.toNat + 256 * ofLeBytes bs

/-- The `w` bytes of `n` in the order of the machine. -/
def neBytes (littleEndian : Bool) (w n : Nat) : List UInt8 :=
  if littleEndian then leBytes w n else (leBytes w n).reverse

@[simp] theorem length_leBytes : ∀ w n, (leBytes w n).length = w
  | 0, _ => rfl
  | w + 1, n => by rw [leBytes, List.length_cons, length_leBytes w]

theorem ofLeBytes_leBytes : ∀ w n, ofLeBytes (leBytes w n) = n % 256 ^ w
  | 0, n => by rw [leBytes, ofLeBytes, pow_zero, Nat.mod_one]
  | w + 1, n => by
    rw [leBytes, ofLeBytes, ofLeBytes_leBytes w, pow_succ', Nat.mod_mul]
    rfl

/-- Reading back what fits the width. -/
theorem ofLeBytes_leBytes_of_lt {w n : Nat} (h : n < 256 ^ w) : ofLeBytes (leBytes w n) = n := by
  rw [ofLeBytes_leBytes, Nat.mod_eq_of_lt h]

theorem ofLeBytes_lt : ∀ l : List UInt8, ofLeBytes l < 256 ^ l.length
  | [] => by simp [ofLeBytes]
  | b :: bs => by
    have hb := b.toNat_lt
    have ih := ofLeBytes_lt bs
    rw [ofLeBytes, List.length_cons, pow_succ]
    omega

/-- Writing back what was read. -/
theorem leBytes_ofLeBytes : ∀ l : List UInt8, leBytes l.length (ofLeBytes l) = l
  | [] => rfl
  | b :: bs => by
    have hb := b.toNat_lt
    rw [List.length_cons, leBytes, ofLeBytes, show (b.toNat + 256 * ofLeBytes bs) / 256 =
      ofLeBytes bs by omega, leBytes_ofLeBytes bs]
    congr 1
    rw [← UInt8.toNat_inj, UInt8.toNat_ofNat']
    omega

/-- Numbers that fit the width are told apart by their bytes. -/
theorem leBytes_inj {w m n : Nat} (hm : m < 256 ^ w) (hn : n < 256 ^ w)
    (h : leBytes w m = leBytes w n) : m = n := by
  have := congrArg ofLeBytes h
  rwa [ofLeBytes_leBytes_of_lt hm, ofLeBytes_leBytes_of_lt hn] at this

@[simp] theorem length_neBytes (e : Bool) (w n : Nat) : (neBytes e w n).length = w := by
  unfold neBytes
  split <;> simp

theorem neBytes_inj {e : Bool} {w m n : Nat} (hm : m < 256 ^ w) (hn : n < 256 ^ w)
    (h : neBytes e w m = neBytes e w n) : m = n := by
  unfold neBytes at h
  split at h
  · exact leBytes_inj hm hn h
  · exact leBytes_inj hm hn (List.reverse_inj.mp h)

end Bytes
