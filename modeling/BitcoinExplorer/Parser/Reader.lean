import BitcoinExplorer.Basic
import BitcoinExplorer.Lib.Codec
import BitcoinExplorer.Lib.Varint

/-!
# `src/parser/reader.rs`: reading binary data

`BlockchainRead` is generic in the reader. `read_varint` is only called on a `Cursor`, which is the
bytes it has left; `usize` is 64 bits wide. The other methods are programs over `read_exact`
(`Decoder`), which run on a `Cursor` and on an `XorReader`.

* `varintSteps`, `readVarint_eq_panic_iff_steps`: its iterations, one of which overflows where it
  panics.
* **`readVarint_undoes_writeVarInt`**: `read_varint` undoes Bitcoin Core's encoding, and none of its
  iterations overflows.
* **`readVarint_exact_iff`**: what it reads exactly is what fits `usize`.
-/

namespace BitcoinExplorer

open Rust ByteStream Varint

/-- The loop of `read_varint`: `n << 7` drops the bits beyond `usize`, `n += 1` is checked. -/
def readVarint (tgt : Target) : List UInt8 → Nat → Outcome Error (Nat × List UInt8)
  | [], _ => .err .bitcoinIo
  | chData :: rest, n =>
    let n := (n <<< 7) % 2 ^ 64 ||| (chData &&& 0x7f).toNat
    if chData &&& 0x80 > 0 then do
      let n ← .overflowing tgt (n + 1 < 2 ^ 64) (n + 1) ((n + 1) % 2 ^ 64)
      readVarint tgt rest n
    else .ok (n, rest)

/-- `as i32` on a `usize`. -/
def asI32 (n : Nat) : Int := Int.bmod n (2 ^ 32)

/-- `as u32` on a `usize`. -/
def asU32 (n : Nat) : UInt32 := UInt32.ofNat n

/-- `as usize` on an `i32`. -/
def asUsize (i : Int) : Nat := (i % 2 ^ 64).toNat

/-- `read_u32`. -/
def readU32 : Decoder UInt32 :=
  .readExact 4 fun buf => .done (UInt32.ofNat (Bytes.ofLeBytes buf))

/-- `read_vec_u8`. -/
def readVecU8 (count : UInt32) : Decoder (List UInt8) :=
  .readExact count.toNat fun buf => .done buf

/-! ## Decoding what Bitcoin Core wrote -/

theorem asI32_of_lt {n : Nat} (h : n < 2 ^ 31) : asI32 n = n := by
  unfold asI32
  exact Int.bmod_eq_of_le (by omega) (by omega)

theorem asUsize_natCast {n : Nat} (h : n < 2 ^ 64) : asUsize n = n := by
  unfold asUsize
  omega

theorem toNat_low7 (b : UInt8) : (b &&& 0x7f).toNat = b.toNat % 128 := by
  rw [UInt8.toNat_and]
  exact Nat.and_two_pow_sub_one_eq_mod b.toNat 7

theorem highBit_iff (b : UInt8) : b &&& 0x80 > 0 ↔ 128 ≤ b.toNat := by
  have key : ∀ n, n < 256 → (0 < n &&& 128 ↔ 128 ≤ n) := by decide +kernel
  rw [gt_iff_lt, UInt8.lt_iff_toNat_lt, UInt8.toNat_and]
  exact key _ b.toNat_lt

/-- Shifting drops the bits beyond `usize`, and the digit fills the place it makes. -/
theorem shiftLeft_or (n : Nat) {d : Nat} (hd : d < 128) :
    ((n % 2 ^ 64) <<< 7) % 2 ^ 64 ||| d = (n * 128 + d) % 2 ^ 64 := by
  have hshift : ((n % 2 ^ 64) <<< 7) % 2 ^ 64 = 2 ^ 7 * (n % 2 ^ 57) := by
    rw [Nat.shiftLeft_eq]
    omega
  rw [hshift, ← Nat.two_pow_add_eq_or_of_lt (i := 7) hd]
  omega

/-- The checked `n += 1`: it overflows when the exact sum is a multiple of `2 ^ 64`. -/
theorem overflowing_succ (tgt : Target) (n : Nat) :
    (Outcome.overflowing tgt (n % 2 ^ 64 + 1 < 2 ^ 64) (n % 2 ^ 64 + 1)
        ((n % 2 ^ 64 + 1) % 2 ^ 64) : Outcome Error Nat) =
      if tgt.overflowChecks = true ∧ 2 ^ 64 ∣ n + 1 then .panic else .ok ((n + 1) % 2 ^ 64) := by
  by_cases hover : tgt.overflowChecks = true ∧ 2 ^ 64 ∣ n + 1
  · rw [if_pos hover, Outcome.overflowing_eq_panic]
    exact ⟨hover.1, by omega⟩
  · rw [if_neg hover, Outcome.overflowing_wraps fun h => hover ⟨h.1, by omega⟩]
    congr 1
    omega

/-- **`read_varint` computes the exact number modulo `2 ^ 64`**, unless overflow checks are on and
an exact accumulator on the way is a multiple of `2 ^ 64`: then it panics. -/
theorem readVarint_eq (tgt : Target) : ∀ (bytes : List UInt8) (n : Nat),
    readVarint tgt bytes (n % 2 ^ 64) =
      if tgt.overflowChecks = true ∧ ∃ a ∈ accumulators bytes n, 2 ^ 64 ∣ a then .panic
      else
        match decodeVarInt bytes n with
        | some (m, rest) => .ok (m % 2 ^ 64, rest)
        | none => .err .bitcoinIo
  | [], n => by simp [readVarint, accumulators, decodeVarInt]
  | b :: bytes, n => by
    have hd : b.toNat % 128 < 128 := Nat.mod_lt _ (by decide)
    rw [readVarint, toNat_low7, shiftLeft_or n hd]
    by_cases hb : 128 ≤ b.toNat
    · have hacc : accumulators (b :: bytes) n = (n * 128 + b.toNat % 128 + 1) ::
          accumulators bytes (n * 128 + b.toNat % 128 + 1) := if_pos hb
      have hdec : decodeVarInt (b :: bytes) n =
          decodeVarInt bytes (n * 128 + b.toNat % 128 + 1) := if_pos hb
      rw [if_pos ((highBit_iff b).mpr hb), overflowing_succ, hacc, hdec]
      simp only [List.mem_cons, exists_eq_or_imp]
      by_cases hover : tgt.overflowChecks = true ∧ 2 ^ 64 ∣ n * 128 + b.toNat % 128 + 1
      · rw [if_pos hover, if_pos ⟨hover.1, Or.inl hover.2⟩, Outcome.panic_bind]
      · rw [if_neg hover, Outcome.ok_bind, readVarint_eq tgt bytes]
        refine if_congr (and_congr_right fun hchecks => ?_) rfl rfl
        exact (or_iff_right fun hdvd => hover ⟨hchecks, hdvd⟩).symm
    · have hlast : b.toNat % 128 = b.toNat := Nat.mod_eq_of_lt (by omega)
      rw [if_neg (mt (highBit_iff b).mp hb), hlast, accumulators, if_neg hb, decodeVarInt,
        if_neg hb, if_neg (by simp)]

/-- What an `Ok` of `read_varint` says: the bytes it consumed encode some number, and the result is
that number modulo `2 ^ 64`. -/
theorem readVarint_eq_ok {tgt : Target} {bytes rest : List UInt8} {m : Nat}
    (h : readVarint tgt bytes 0 = .ok (m, rest)) :
    ∃ n, bytes = writeVarInt n ++ rest ∧ m = n % 2 ^ 64 := by
  rw [← Nat.zero_mod (2 ^ 64), readVarint_eq] at h
  split at h
  · cases h
  · cases hdec : decodeVarInt bytes 0 with
    | none =>
      rw [hdec] at h
      cases h
    | some p =>
      obtain ⟨n, rest'⟩ := p
      rw [hdec] at h
      obtain ⟨rfl, rfl⟩ := Prod.mk.inj (Outcome.ok.inj h)
      exact ⟨n, decodeVarInt_eq_some.mp hdec, rfl⟩

/-- `read_varint` fails only where the bytes end. -/
theorem readVarint_eq_err {tgt : Target} {bytes : List UInt8} {e : Error}
    (h : readVarint tgt bytes 0 = .err e) : e = .bitcoinIo := by
  rw [← Nat.zero_mod (2 ^ 64), readVarint_eq] at h
  split at h
  · cases h
  · split at h <;> cases h
    rfl

/-- With overflow checks, one of the first `count` numbers at the front of the bytes has an
accumulator that is a multiple of `2 ^ 64`. -/
def VarintsOverflow (tgt : Target) : Nat → List UInt8 → Prop
  | 0, _ => False
  | count + 1, bytes =>
    (tgt.overflowChecks = true ∧ ∃ a ∈ accumulators bytes 0, 2 ^ 64 ∣ a) ∨
      ∃ n rest, bytes = writeVarInt n ++ rest ∧ VarintsOverflow tgt count rest

/-- A computation that reads a number first panics on the way, or after it. -/
theorem readVarint_bind_eq_panic {tgt : Target} {bytes : List UInt8} {α : Type}
    {f : Nat × List UInt8 → Outcome Error α} :
    (readVarint tgt bytes 0 >>= f) = .panic ↔
      (tgt.overflowChecks = true ∧ ∃ a ∈ accumulators bytes 0, 2 ^ 64 ∣ a) ∨
        ∃ n rest, bytes = writeVarInt n ++ rest ∧ f (n % 2 ^ 64, rest) = .panic := by
  have heq := readVarint_eq tgt bytes 0
  rw [Nat.zero_mod] at heq
  by_cases hover : tgt.overflowChecks = true ∧ ∃ a ∈ accumulators bytes 0, 2 ^ 64 ∣ a
  · rw [heq, if_pos hover, Outcome.panic_bind]
    exact ⟨fun _ => Or.inl hover, fun _ => rfl⟩
  · rw [heq, if_neg hover, or_iff_right hover]
    simp only [← decodeVarInt_eq_some]
    cases hdec : decodeVarInt bytes 0 with
    | none => simp
    | some p => simp [Prod.ext_iff]

/-- **`read_varint` undoes `WriteVarInt`** and leaves the bytes after it. -/
theorem readVarint_writeVarInt (tgt : Target) {n : Nat} (hn : n < 2 ^ 64) (rest : List UInt8) :
    readVarint tgt (writeVarInt n ++ rest) 0 = .ok (n, rest) := by
  have hdec := decodeVarInt_writeVarInt n rest
  have hsmall : ¬ ∃ a ∈ accumulators (writeVarInt n ++ rest) 0, 2 ^ 64 ∣ a := by
    rintro ⟨a, ha, hdvd⟩
    obtain ⟨hpos, hle⟩ := (le_of_mem_accumulators hdec).2 a ha
    have := Nat.le_of_dvd hpos hdvd
    omega
  have h := readVarint_eq tgt (writeVarInt n ++ rest) 0
  rw [hdec, if_neg fun hpanic => hsmall hpanic.2, Nat.zero_mod] at h
  rw [h]
  exact congrArg (fun m => Outcome.ok (m, rest)) (Nat.mod_eq_of_lt hn)

/-! ## The iterations of the loop -/

/-- An iteration of the loop of `read_varint`: the byte it reads, and `n` before it. -/
structure VarintStep where
  chData : UInt8
  n : Nat

namespace VarintStep

/-- `n` after the shift and the digit. -/
def shifted (step : VarintStep) : Nat :=
  (step.n <<< 7) % 2 ^ 64 ||| (step.chData &&& 0x7f).toNat

/-- Nothing overflows: the shift drops no bit, and the increment, if there is one, fits. -/
structure Fits (step : VarintStep) : Prop where
  shift : step.n <<< 7 < 2 ^ 64
  increment : step.chData &&& 0x80 > 0 → step.shifted + 1 < 2 ^ 64

theorem shifted_of_lt {chData : UInt8} {n : Nat} (h : n * 128 + chData.toNat % 128 < 2 ^ 64) :
    (⟨chData, n⟩ : VarintStep).shifted = n * 128 + chData.toNat % 128 := by
  have hor := shiftLeft_or n (Nat.mod_lt chData.toNat (show 0 < 128 by decide))
  rw [Nat.mod_eq_of_lt (show n < 2 ^ 64 by omega), Nat.mod_eq_of_lt h] at hor
  rw [shifted, toNat_low7, hor]

end VarintStep

/-- The iterations of the loop on a byte string, where an increment that does not fit wraps. -/
def varintSteps : List UInt8 → Nat → List VarintStep
  | [], _ => []
  | chData :: rest, n =>
    let step : VarintStep := ⟨chData, n⟩
    step :: if chData &&& 0x80 > 0 then varintSteps rest ((step.shifted + 1) % 2 ^ 64) else []

/-- The loop, iteration by iteration. -/
theorem readVarint_cons (tgt : Target) (chData : UInt8) (rest : List UInt8) (n : Nat) :
    readVarint tgt (chData :: rest) n =
      if chData &&& 0x80 > 0 then do
        let n ← .overflowing tgt ((⟨chData, n⟩ : VarintStep).shifted + 1 < 2 ^ 64)
          ((⟨chData, n⟩ : VarintStep).shifted + 1)
          (((⟨chData, n⟩ : VarintStep).shifted + 1) % 2 ^ 64)
        readVarint tgt rest n
      else .ok ((⟨chData, n⟩ : VarintStep).shifted, rest) := rfl

/-- `read_varint` panics exactly where an increment does not fit and overflow is checked. -/
theorem readVarint_eq_panic_iff_steps (tgt : Target) : ∀ (bytes : List UInt8) (n : Nat),
    readVarint tgt bytes n = .panic ↔
      tgt.overflowChecks = true ∧ ∃ step ∈ varintSteps bytes n,
        step.chData &&& 0x80 > 0 ∧ ¬ step.shifted + 1 < 2 ^ 64
  | [], n => by simp [readVarint, varintSteps]
  | chData :: rest, n => by
    have ih := readVarint_eq_panic_iff_steps tgt rest
    rw [readVarint_cons, varintSteps]
    by_cases hb : chData &&& 0x80 > 0
    · rw [if_pos hb, if_pos hb]
      by_cases hover : tgt.overflowChecks = true ∧
          ¬ (⟨chData, n⟩ : VarintStep).shifted + 1 < 2 ^ 64
      · rw [Outcome.overflowing_eq_panic.mpr hover, Outcome.panic_bind]
        exact ⟨fun _ => ⟨hover.1, _, List.mem_cons_self, hb, hover.2⟩, fun _ => rfl⟩
      · rw [Outcome.overflowing_wraps hover, Outcome.ok_bind, ih]
        refine and_congr_right fun hchecks => ?_
        simp only [List.mem_cons, exists_eq_or_imp]
        exact (or_iff_right fun hstep => hover ⟨hchecks, hstep.2⟩).symm
    · rw [if_neg hb, if_neg hb]
      simp [hb]

/-- The bytes of the iterations are the bytes that `decodeVarInt` takes. -/
theorem map_chData_varintSteps : ∀ {bytes : List UInt8} {m n : Nat} {rest : List UInt8} (k : Nat),
    decodeVarInt bytes m = some (n, rest) →
    (varintSteps bytes k).map VarintStep.chData ++ rest = bytes
  | [], _, _, _, _, h => by cases h
  | b :: bytes, m, n, rest, k, h => by
    unfold decodeVarInt at h
    rw [varintSteps]
    split at h
    · rename_i hb
      rw [if_pos ((highBit_iff b).mpr hb), List.map_cons, List.cons_append,
        map_chData_varintSteps _ h]
    · rename_i hb
      obtain ⟨-, rfl⟩ := Prod.mk.inj (Option.some.inj h)
      rw [if_neg (mt (highBit_iff b).mp hb)]
      rfl

/-- Where the number at the front of the bytes fits, so does every iteration on the way: before each
of them `n` is what the digits read so far are worth, and 128 times that is no more than the
number. -/
theorem fits_of_mem_varintSteps : ∀ {bytes : List UInt8} {m n : Nat} {rest : List UInt8},
    decodeVarInt bytes m = some (n, rest) → n < 2 ^ 64 → ∀ step ∈ varintSteps bytes m, step.Fits
  | [], _, _, _, h, _ => by cases h
  | b :: bytes, m, n, rest, h, hn => by
    unfold decodeVarInt at h
    rw [varintSteps]
    split at h
    · rename_i hb
      have hle := (le_of_mem_accumulators h).1
      have hshifted : (⟨b, m⟩ : VarintStep).shifted = m * 128 + b.toNat % 128 :=
        VarintStep.shifted_of_lt (by omega)
      rw [if_pos ((highBit_iff b).mpr hb), hshifted, Nat.mod_eq_of_lt (by omega),
        List.forall_mem_cons]
      refine ⟨⟨?_, fun _ => ?_⟩, fits_of_mem_varintSteps h hn⟩
      · change m <<< 7 < 2 ^ 64
        rw [Nat.shiftLeft_eq]
        omega
      · rw [hshifted]
        omega
    · rename_i hb
      obtain ⟨hlast, -⟩ := Prod.mk.inj (Option.some.inj h)
      rw [if_neg (mt (highBit_iff b).mp hb), List.forall_mem_singleton]
      refine ⟨?_, fun hcont => absurd ((highBit_iff b).mp hcont) hb⟩
      change m <<< 7 < 2 ^ 64
      rw [Nat.shiftLeft_eq]
      omega

/-- **`read_varint` decodes every number that fits `usize`**: from the encoding of the number it
returns the number and leaves the bytes after it, its iterations take the bytes of the encoding one
by one, and none of them overflows. -/
theorem readVarint_undoes_writeVarInt (tgt : Target) (n : Nat) (hn : n < 2 ^ 64)
    (rest : List UInt8) :
    readVarint tgt (writeVarInt n ++ rest) 0 = .ok (n, rest) ∧
      (varintSteps (writeVarInt n ++ rest) 0).map VarintStep.chData = writeVarInt n ∧
      ∀ step ∈ varintSteps (writeVarInt n ++ rest) 0, step.Fits := by
  have hdec := decodeVarInt_writeVarInt n rest
  refine ⟨readVarint_writeVarInt tgt hn rest, ?_, fits_of_mem_varintSteps hdec hn⟩
  exact List.append_cancel_right (map_chData_varintSteps 0 hdec)

/-- The greatest number takes ten bytes. -/
theorem readVarint_undoes_writeVarInt_max :
    readVarint ⟨true, true⟩ [0x80, 0xfe, 0xfe, 0xfe, 0xfe, 0xfe, 0xfe, 0xfe, 0xfe, 0x7f, 0x05] 0 =
      .ok (2 ^ 64 - 1, [0x05]) := by
  have hbytes : [0x80, 0xfe, 0xfe, 0xfe, 0xfe, 0xfe, 0xfe, 0xfe, 0xfe, 0x7f, 0x05] =
      writeVarInt (2 ^ 64 - 1) ++ [0x05] :=
    decodeVarInt_eq_some.mp (by decide +kernel)
  rw [hbytes]
  exact (readVarint_undoes_writeVarInt ⟨true, true⟩ (2 ^ 64 - 1) (by decide) [0x05]).1

/-! ## Which numbers are read exactly -/

/-- `read_varint` returns an error, or the number whose encoding it consumed. -/
def ReadsExactly (tgt : Target) (bytes : List UInt8) : Prop :=
  (∃ e, readVarint tgt bytes 0 = .err e) ∨
    ∃ n rest, readVarint tgt bytes 0 = .ok (n, rest) ∧ bytes = writeVarInt n ++ rest

/-- The number at the front of the bytes fits `usize`; and where overflow is checked, no accumulator
on the way is a multiple of `2 ^ 64`, also when the bytes end inside the number. -/
def VarintFits (tgt : Target) (bytes : List UInt8) : Prop :=
  (∀ n rest, bytes = writeVarInt n ++ rest → n < 2 ^ 64) ∧
    (tgt.overflowChecks = true → ∀ a ∈ accumulators bytes 0, ¬ 2 ^ 64 ∣ a)

theorem readsExactly_iff (tgt : Target) (bytes : List UInt8) :
    ReadsExactly tgt bytes ↔ VarintFits tgt bytes := by
  have heq := readVarint_eq tgt bytes 0
  rw [Nat.zero_mod] at heq
  constructor
  · intro h
    have hpanic : readVarint tgt bytes 0 ≠ .panic := by
      rcases h with ⟨e, he⟩ | ⟨n, rest, hn, -⟩
      · simp [he]
      · simp [hn]
    have hno : ¬ (tgt.overflowChecks = true ∧ ∃ a ∈ accumulators bytes 0, 2 ^ 64 ∣ a) :=
      fun hover => hpanic (heq.trans (if_pos hover))
    refine ⟨fun n rest hbytes => ?_, fun hchecks a ha hdvd => hno ⟨hchecks, a, ha, hdvd⟩⟩
    rw [if_neg hno, decodeVarInt_eq_some.mpr hbytes] at heq
    rcases h with ⟨e, he⟩ | ⟨m, rest', hm, hbytes'⟩
    · rw [he] at heq
      cases heq
    · -- the result is below `2 ^ 64`, and the bytes determine the number
      rw [hm] at heq
      obtain ⟨hmod, -⟩ := Prod.mk.inj (Outcome.ok.inj heq)
      obtain ⟨rfl, -⟩ := writeVarInt_append_inj (hbytes.symm.trans hbytes')
      rw [hmod]
      exact Nat.mod_lt _ (by decide)
  · rintro ⟨hfits, hno⟩
    rw [if_neg fun hover => hover.2.elim fun a ha => hno hover.1 a ha.1 ha.2] at heq
    cases hdec : decodeVarInt bytes 0 with
    | none =>
      rw [hdec] at heq
      exact Or.inl ⟨_, heq⟩
    | some p =>
      obtain ⟨n, rest⟩ := p
      have hbytes := decodeVarInt_eq_some.mp hdec
      rw [hdec] at heq
      dsimp only at heq
      rw [Nat.mod_eq_of_lt (hfits n rest hbytes)] at heq
      exact Or.inr ⟨n, rest, heq, hbytes⟩

/-- **`read_varint` reads exactly what fits `usize`**: it returns an error or the number whose
encoding it consumed if and only if the number fits and no checked addition overflows. Then
different consumed strings give different numbers. -/
theorem readVarint_exact_iff (tgt : Target) :
    (∀ bytes, ReadsExactly tgt bytes ↔ VarintFits tgt bytes) ∧
      ∀ consumed consumed' rest rest' n,
        VarintFits tgt (consumed ++ rest) → VarintFits tgt (consumed' ++ rest') →
        readVarint tgt (consumed ++ rest) 0 = .ok (n, rest) →
        readVarint tgt (consumed' ++ rest') 0 = .ok (n, rest') → consumed = consumed' := by
  refine ⟨readsExactly_iff tgt, fun consumed consumed' rest rest' n hfits hfits' h h' => ?_⟩
  have hconsumed : ∀ {consumed rest}, VarintFits tgt (consumed ++ rest) →
      readVarint tgt (consumed ++ rest) 0 = .ok (n, rest) → consumed = writeVarInt n := by
    intro consumed rest hfits h
    rcases (readsExactly_iff tgt _).mpr hfits with ⟨e, he⟩ | ⟨m, rest', hm, hbytes⟩
    · rw [h] at he
      cases he
    · obtain ⟨rfl, rfl⟩ := Prod.mk.inj (Outcome.ok.inj (h.symm.trans hm))
      exact List.append_cancel_right hbytes
  exact (hconsumed hfits h).trans (hconsumed hfits' h').symm

/-- **The encoding of `2 ^ 64` is read as 0**, in both build profiles. -/
theorem readVarint_two_pow_64 :
    readVarint ⟨true, true⟩ [0x80, 0xfe, 0xfe, 0xfe, 0xfe, 0xfe, 0xfe, 0xfe, 0xff, 0x00] 0 =
        .ok (0, []) ∧
      readVarint ⟨true, false⟩ [0x80, 0xfe, 0xfe, 0xfe, 0xfe, 0xfe, 0xfe, 0xfe, 0xff, 0x00] 0 =
        .ok (0, []) ∧
      ¬ ReadsExactly ⟨true, false⟩
        [0x80, 0xfe, 0xfe, 0xfe, 0xfe, 0xfe, 0xfe, 0xfe, 0xff, 0x00] := by
  refine ⟨by decide +kernel, by decide +kernel, ?_⟩
  have hread : readVarint ⟨true, false⟩
      [0x80, 0xfe, 0xfe, 0xfe, 0xfe, 0xfe, 0xfe, 0xfe, 0xff, 0x00] 0 = .ok (0, []) := by
    decide +kernel
  rintro (⟨e, he⟩ | ⟨n, rest, hn, hbytes⟩)
  · rw [hread] at he
    cases he
  · rw [hread] at hn
    obtain ⟨rfl, rfl⟩ := Prod.mk.inj (Outcome.ok.inj hn)
    rw [writeVarInt, highBytes_of_lt (by decide)] at hbytes
    exact absurd (congrArg List.length hbytes) (by decide)

/-- `read_u32` undoes the little-endian encoding. -/
theorem readU32_run {n : Nat} (hn : n < 2 ^ 32) (rest : List UInt8) :
    readU32.run (Bytes.leBytes 4 n ++ rest) = some (UInt32.ofNat n, rest) := by
  have hlt : n < 256 ^ 4 := by simpa using hn
  exact (Decoder.inverts_readLE hlt).bind_done UInt32.ofNat rest

theorem readVecU8_run {bytes : List UInt8} (hlen : bytes.length < 2 ^ 32) (rest : List UInt8) :
    (readVecU8 (UInt32.ofNat bytes.length)).run (bytes ++ rest) = some (bytes, rest) := by
  simp only [readVecU8, Decoder.run, UInt32.toNat_ofNat_of_lt' hlen]
  rw [if_pos (by rw [List.length_append]; omega), List.take_left, List.drop_left]

end BitcoinExplorer
