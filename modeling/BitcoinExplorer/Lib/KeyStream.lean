import Mathlib.Data.List.Basic

/-!
# A stream XORed with a key stream

Byte `p` of a file is stored XORed with `k p`. `xorFrom k p` XORs the bytes that stand at position
`p` and after; it is its own inverse, and it commutes with cutting the string as long as the
position moves along.
-/

namespace KeyStream

variable (k : Nat → UInt8)

/-- XOR the bytes at positions `p`, `p + 1`, … with the key stream. -/
def xorFrom : Nat → List UInt8 → List UInt8
  | _, [] => []
  | p, x :: xs => (x ^^^ k p) :: xorFrom (p + 1) xs

@[simp] theorem xorFrom_nil (p : Nat) : xorFrom k p [] = [] := rfl

@[simp] theorem length_xorFrom : ∀ (p : Nat) (xs : List UInt8), (xorFrom k p xs).length = xs.length
  | _, [] => rfl
  | p, x :: xs => by rw [xorFrom, List.length_cons, List.length_cons, length_xorFrom (p + 1) xs]

/-- Each byte is XORed with the key at its own position. -/
theorem xorFrom_eq_mapIdx : ∀ (p : Nat) (xs : List UInt8),
    xorFrom k p xs = xs.mapIdx fun i x => x ^^^ k (p + i)
  | _, [] => rfl
  | p, x :: xs => by
    rw [xorFrom, List.mapIdx_cons, xorFrom_eq_mapIdx (p + 1) xs, Nat.add_zero]
    congr 2
    funext i x
    rw [Nat.add_assoc, Nat.add_comm 1 i]

/-- **XORing twice gives the bytes back.** -/
theorem xorFrom_xorFrom : ∀ (p : Nat) (xs : List UInt8), xorFrom k p (xorFrom k p xs) = xs
  | _, [] => rfl
  | p, x :: xs => by
    rw [xorFrom, xorFrom, xorFrom_xorFrom (p + 1) xs, UInt8.xor_assoc, UInt8.xor_self,
      UInt8.xor_zero]

theorem take_xorFrom : ∀ (n p : Nat) (xs : List UInt8),
    (xorFrom k p xs).take n = xorFrom k p (xs.take n)
  | 0, _, _ => by rw [List.take_zero, List.take_zero, xorFrom]
  | _ + 1, _, [] => rfl
  | n + 1, p, x :: xs => by
    rw [xorFrom, List.take_succ_cons, List.take_succ_cons, xorFrom, take_xorFrom n (p + 1) xs]

theorem drop_xorFrom : ∀ (n p : Nat) (xs : List UInt8),
    (xorFrom k p xs).drop n = xorFrom k (p + n) (xs.drop n)
  | 0, _, _ => rfl
  | _ + 1, _, [] => rfl
  | n + 1, p, x :: xs => by
    rw [xorFrom, List.drop_succ_cons, List.drop_succ_cons, drop_xorFrom n (p + 1) xs,
      Nat.add_assoc, Nat.add_comm 1 n]

theorem xorFrom_append : ∀ (p : Nat) (xs ys : List UInt8),
    xorFrom k p (xs ++ ys) = xorFrom k p xs ++ xorFrom k (p + xs.length) ys
  | _, [], _ => rfl
  | p, x :: xs, ys => by
    rw [List.cons_append, xorFrom, xorFrom, xorFrom_append (p + 1) xs ys, List.cons_append,
      List.length_cons, Nat.add_assoc, Nat.add_comm 1 xs.length]

/-- A key that is zero throughout changes nothing. -/
theorem xorFrom_zero : ∀ (p : Nat) (xs : List UInt8), xorFrom (fun _ => 0) p xs = xs
  | _, [] => rfl
  | p, x :: xs => by rw [xorFrom, xorFrom_zero (p + 1) xs, UInt8.xor_zero]

end KeyStream
