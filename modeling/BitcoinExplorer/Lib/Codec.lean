import BitcoinExplorer.Lib.Bytes
import BitcoinExplorer.Lib.Stream

/-!
# Codecs

`d.Inverts a s`: the decoder reads the encoding `s` of `a` off the front of any byte string and
leaves the rest. The encodings of fixed-width integers, counts (`compactSize`, in 1, 3, 5 or 9
bytes), counted byte strings and counted lists have such decoders, and a decoder built with `bind`
inverts the concatenation of what its parts invert. `d.Consumes e` is the other direction: what the
decoder takes off is the encoding of what it returns.
-/

namespace ByteStream

open Bytes

namespace Decoder

variable {α β : Type}

/-- The decoder turns these bytes, at the front of any string, into this value. -/
def Inverts (d : Decoder α) (a : α) (s : List UInt8) : Prop :=
  ∀ rest, d.run (s ++ rest) = some (a, rest)

theorem inverts_done (a : α) : (done a).Inverts a [] := fun _ => rfl

/-- Decoders compose along concatenation. -/
theorem Inverts.bind {d : Decoder α} {f : α → Decoder β} {a : α} {b : β} {s t : List UInt8}
    (hd : d.Inverts a s) (hf : (f a).Inverts b t) : (d.bind f).Inverts b (s ++ t) := by
  intro rest
  rw [run_bind, List.append_assoc, hd, Option.bind_some, hf]

/-- A last part that reads nothing. -/
theorem Inverts.bind_done {d : Decoder α} {a : α} {s : List UInt8} (hd : d.Inverts a s)
    (f : α → β) : (d.bind fun a => done (f a)).Inverts (f a) s := by
  intro rest
  rw [run_bind, hd, Option.bind_some, run]

theorem inverts_readExact {n : Nat} {k : List UInt8 → Decoder α} {a : α} {s t : List UInt8}
    (hlen : s.length = n) (hk : (k s).Inverts a t) : (readExact n k).Inverts a (s ++ t) := by
  intro rest
  rw [run, if_pos (by rw [List.append_assoc, List.length_append]; omega), List.append_assoc,
    List.take_left' hlen, List.drop_left' hlen, hk]

/-- `w` bytes, little-endian. -/
def readLE (w : Nat) : Decoder Nat := readExact w fun bs => done (ofLeBytes bs)

theorem inverts_readLE {w n : Nat} (h : n < 256 ^ w) : (readLE w).Inverts n (leBytes w n) := by
  have := inverts_readExact (k := fun bs => done (ofLeBytes bs)) (length_leBytes w n)
    (inverts_done _)
  rwa [ofLeBytes_leBytes_of_lt h, List.append_nil] at this

/-- The decoder takes the encoding of what it returns off the front. -/
def Consumes (d : Decoder α) (e : α → List UInt8) : Prop :=
  ∀ s a rest, d.run s = some (a, rest) → s = e a ++ rest

theorem run_bind_eq_some {d : Decoder α} {f : α → Decoder β} {s rest : List UInt8} {b : β} :
    (d.bind f).run s = some (b, rest) ↔
      ∃ a mid, d.run s = some (a, mid) ∧ (f a).run mid = some (b, rest) := by
  rw [run_bind, Option.bind_eq_some_iff, Prod.exists]

theorem readLE_eq_some {w n : Nat} {s rest : List UInt8}
    (h : (readLE w).run s = some (n, rest)) : n < 256 ^ w ∧ s = leBytes w n ++ rest := by
  rw [readLE, run] at h
  split at h
  · rename_i hw
    obtain ⟨rfl, rfl⟩ := Prod.mk.inj (Option.some.inj h)
    have hlen : (s.take w).length = w := List.length_take_of_le hw
    have hlt := ofLeBytes_lt (s.take w)
    have hback := leBytes_ofLeBytes (s.take w)
    rw [hlen] at hlt hback
    exact ⟨hlt, by rw [hback, List.take_append_drop]⟩
  · cases h

/-- A number in a type of its width. -/
theorem Consumes.of_readLE {w : Nat} {f : Nat → α} {e : α → List UInt8}
    (h : ∀ n < 256 ^ w, e (f n) = leBytes w n) :
    ((readLE w).bind fun n => done (f n)).Consumes e := by
  intro s a rest hrun
  obtain ⟨n, mid, hn, hdone⟩ := run_bind_eq_some.mp hrun
  obtain ⟨hlt, rfl⟩ := readLE_eq_some hn
  obtain ⟨rfl, rfl⟩ := Prod.mk.inj (Option.some.inj hdone)
  rw [h n hlt]

/-- A decoder repeated. -/
def many (d : Decoder α) : Nat → Decoder (List α)
  | 0 => done []
  | n + 1 => d.bind fun a => (many d n).bind fun as => done (a :: as)

theorem inverts_many {d : Decoder α} {e : α → List UInt8} : ∀ {l : List α},
    (∀ a ∈ l, d.Inverts a (e a)) → (d.many l.length).Inverts l (l.flatMap e)
  | [], _ => inverts_done []
  | a :: l, h => by
    rw [List.flatMap_cons]
    exact (h a List.mem_cons_self).bind
      ((inverts_many fun b hb => h b (List.mem_cons_of_mem _ hb)).bind_done (a :: ·))

end Decoder

open Decoder

/-! ## Counts -/

/-- A count of up to 64 bits: one byte, or a marker and 2, 4 or 8 bytes. -/
def compactSize (n : Nat) : List UInt8 :=
  if n < 0xfd then leBytes 1 n
  else if n < 2 ^ 16 then leBytes 1 0xfd ++ leBytes 2 n
  else if n < 2 ^ 32 then leBytes 1 0xfe ++ leBytes 4 n
  else leBytes 1 0xff ++ leBytes 8 n

/-- A number that must not have a shorter form. -/
def atLeast (least n : Nat) : Decoder Nat := if least ≤ n then done n else fail

/-- Read a count in its shortest form. -/
def readCompactSize : Decoder Nat :=
  (readLE 1).bind fun b =>
    if b = 0xfd then (readLE 2).bind (atLeast 0xfd)
    else if b = 0xfe then (readLE 4).bind (atLeast (2 ^ 16))
    else if b = 0xff then (readLE 8).bind (atLeast (2 ^ 32))
    else done b

/-- A marker, then a number in its width. -/
theorem inverts_marked {f : Nat → Decoder Nat} {marker w least n : Nat} (hmarker : marker < 256)
    (hf : f marker = (readLE w).bind (atLeast least)) (hge : least ≤ n) (hlt : n < 256 ^ w) :
    ((readLE 1).bind f).Inverts n (leBytes 1 marker ++ leBytes w n) := by
  refine (inverts_readLE hmarker).bind ?_
  rw [hf]
  have hdone : (atLeast least n).Inverts n [] := by
    rw [atLeast, if_pos hge]
    exact inverts_done n
  simpa using (inverts_readLE hlt).bind hdone

theorem inverts_readCompactSize {n : Nat} (h : n < 2 ^ 64) :
    readCompactSize.Inverts n (compactSize n) := by
  unfold compactSize readCompactSize
  split_ifs with h1 h2 h3
  · rw [← List.append_nil (leBytes 1 n)]
    refine (inverts_readLE (by omega)).bind ?_
    rw [if_neg (by omega), if_neg (by omega), if_neg (by omega)]
    exact inverts_done n
  · exact inverts_marked (by decide) rfl (by omega) h2
  · exact inverts_marked (by decide) rfl (by omega) h3
  · exact inverts_marked (by decide) rfl (by omega) h

/-- A byte string behind its length. -/
def counted (s : List UInt8) : List UInt8 := compactSize s.length ++ s

def readCounted : Decoder (List UInt8) := readCompactSize.bind fun n => readExact n done

theorem inverts_readCounted {s : List UInt8} (h : s.length < 2 ^ 64) :
    readCounted.Inverts s (counted s) := by
  have hbytes : (readExact s.length done).Inverts s s := by
    simpa using inverts_readExact (k := done) rfl (inverts_done s)
  exact (inverts_readCompactSize h).bind hbytes

/-- A list behind its length. -/
def readList {α : Type} (d : Decoder α) : Decoder (List α) := readCompactSize.bind d.many

theorem inverts_readList {α : Type} {d : Decoder α} {e : α → List UInt8} {l : List α}
    (hlen : l.length < 2 ^ 64) (h : ∀ a ∈ l, d.Inverts a (e a)) :
    (readList d).Inverts l (compactSize l.length ++ l.flatMap e) :=
  (inverts_readCompactSize hlen).bind (inverts_many h)

/-! ## The decoders consume what they encode -/

theorem run_atLeast {w least n : Nat} {s rest : List UInt8}
    (h : ((readLE w).bind (atLeast least)).run s = some (n, rest)) :
    least ≤ n ∧ n < 256 ^ w ∧ s = leBytes w n ++ rest := by
  obtain ⟨m, mid, hm, hrest⟩ := run_bind_eq_some.mp h
  obtain ⟨hlt, rfl⟩ := readLE_eq_some hm
  rw [atLeast] at hrest
  split at hrest
  · obtain ⟨rfl, rfl⟩ := Prod.mk.inj (Option.some.inj hrest)
    exact ⟨‹_›, hlt, rfl⟩
  · cases hrest

theorem consumes_readCompactSize : readCompactSize.Consumes compactSize := by
  intro s n rest h
  obtain ⟨b, mid, hb, hrest⟩ := run_bind_eq_some.mp h
  obtain ⟨hlt, rfl⟩ := readLE_eq_some hb
  unfold compactSize
  split_ifs at hrest with h1 h2 h3
  · obtain ⟨hle, hn, rfl⟩ := run_atLeast hrest
    rw [if_neg (by omega), if_pos (by omega), h1, List.append_assoc]
  · obtain ⟨hle, hn, rfl⟩ := run_atLeast hrest
    rw [if_neg (by omega), if_neg (by omega), if_pos (by omega), h2, List.append_assoc]
  · obtain ⟨hle, hn, rfl⟩ := run_atLeast hrest
    rw [if_neg (by omega), if_neg (by omega), if_neg (by omega), h3, List.append_assoc]
  · obtain ⟨rfl, rfl⟩ := Prod.mk.inj (Option.some.inj hrest)
    rw [if_pos (by omega)]

theorem consumes_readCounted : readCounted.Consumes counted := by
  intro s a rest h
  obtain ⟨n, mid, hn, hrest⟩ := run_bind_eq_some.mp h
  obtain rfl := consumes_readCompactSize _ _ _ hn
  rw [run] at hrest
  split at hrest
  · rename_i hle
    obtain ⟨rfl, rfl⟩ := Prod.mk.inj (Option.some.inj hrest)
    rw [counted, List.length_take_of_le hle, List.append_assoc, List.take_append_drop]
  · cases hrest

theorem consumes_many {α : Type} {d : Decoder α} {e : α → List UInt8} (hd : d.Consumes e) {n : Nat}
    {s rest : List UInt8} {l : List α} (h : (d.many n).run s = some (l, rest)) :
    l.length = n ∧ s = l.flatMap e ++ rest := by
  induction n generalizing s l with
  | zero =>
    obtain ⟨rfl, rfl⟩ := Prod.mk.inj (Option.some.inj h)
    exact ⟨rfl, rfl⟩
  | succ n ih =>
    obtain ⟨a, mid, ha, hrest⟩ := run_bind_eq_some.mp h
    obtain ⟨as, mid', has, hdone⟩ := run_bind_eq_some.mp hrest
    obtain ⟨rfl, rfl⟩ := Prod.mk.inj (Option.some.inj hdone)
    obtain ⟨hlen, rfl⟩ := ih has
    obtain rfl := hd _ _ _ ha
    exact ⟨by rw [List.length_cons, hlen], by rw [List.flatMap_cons, List.append_assoc]⟩

theorem consumes_readList {α : Type} {d : Decoder α} {e : α → List UInt8} (hd : d.Consumes e) :
    (readList d).Consumes fun l => compactSize l.length ++ l.flatMap e := by
  intro s l rest h
  obtain ⟨n, mid, hn, hmany⟩ := run_bind_eq_some.mp h
  obtain rfl := consumes_readCompactSize _ _ _ hn
  obtain ⟨rfl, rfl⟩ := consumes_many hd hmany
  rw [List.append_assoc]

end ByteStream
