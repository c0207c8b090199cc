import BitcoinExplorer.Lib.Items
import BitcoinExplorer.Parser.Script

/-!
# The bytes of a script

What the `bitcoin` crate documents about the scripts `script.rs` reads. `Script::instructions`
yields a push for the opcodes `0x00` to `0x4e`, the opcode for every other byte, and one error where
a push runs past the end; the `is_*` predicates look at the length and at a few bytes;
`Address::from_script` succeeds on the pay-to-hash scripts and on witness programs.
`RustScript.Documented` says that the crate behaves so, and `RustScript.ofBytes` is a crate that
does.

`inverts_pushBytes` and `inverts_op` give the words of an instruction, so that `instructions_iff`
reads a script that parses as the concatenation of such words.
-/

namespace BitcoinExplorer

open ByteStream Decoder Bytes

namespace ScriptBytes

/-- A push whose length is in the next `w` bytes. -/
def pushData (w : Nat) : Decoder Instruction :=
  (readLE w).bind fun n => readExact n fun data => done (.pushBytes data)

/-- One item of `Script::instructions`. -/
def instruction : Decoder Instruction :=
  readExact 1 fun
    | [opcode] =>
      if opcode ≤ 0x4b then readExact opcode.toNat fun data => done (.pushBytes data)
      else if opcode = 0x4c then pushData 1
      else if opcode = 0x4d then pushData 2
      else if opcode = 0x4e then pushData 4
      else done (.op opcode)
    | _ => fail

/-- `Script::instructions`. -/
def instructions (script : List UInt8) : List (Option Instruction) := instruction.items script

/-- The bytes that push `data`: its length as the opcode, or in 1, 2 or 4 bytes behind one of the
three opcodes for it. The length need not be in its shortest form. -/
inductive IsPush (data : List UInt8) : List UInt8 → Prop
  | pushbytes (h : data.length ≤ 0x4b) : IsPush data (UInt8.ofNat data.length :: data)
  | pushdata1 (h : data.length < 256 ^ 1) : IsPush data (0x4c :: (leBytes 1 data.length ++ data))
  | pushdata2 (h : data.length < 256 ^ 2) : IsPush data (0x4d :: (leBytes 2 data.length ++ data))
  | pushdata4 (h : data.length < 256 ^ 4) : IsPush data (0x4e :: (leBytes 4 data.length ++ data))

/-! ## The words of an instruction -/

theorem run_readExact_done {n : Nat} {w : List UInt8} {i : Instruction} :
    (readExact n fun data => done (Instruction.pushBytes data)).run w = some (i, []) ↔
      w.length = n ∧ i = .pushBytes w := by
  rw [run]
  constructor
  · intro h
    split at h
    · obtain ⟨rfl, hdrop⟩ := Prod.mk.inj (Option.some.inj h)
      have hle := List.drop_eq_nil_iff.mp hdrop
      exact ⟨by omega, by rw [List.take_of_length_le hle]⟩
    · cases h
  · rintro ⟨rfl, rfl⟩
    rw [if_pos (Nat.le_refl _), List.take_length, List.drop_length, run]

theorem run_pushData {w : Nat} {s : List UInt8} {i : Instruction} :
    (pushData w).run s = some (i, []) ↔
      ∃ data, data.length < 256 ^ w ∧ s = leBytes w data.length ++ data ∧ i = .pushBytes data := by
  rw [pushData, run_bind_eq_some]
  constructor
  · rintro ⟨n, mid, hn, hrun⟩
    obtain ⟨rfl, rfl⟩ := run_readExact_done.mp hrun
    obtain ⟨hlt, rfl⟩ := readLE_eq_some hn
    exact ⟨mid, hlt, rfl, rfl⟩
  · rintro ⟨data, hlt, rfl, rfl⟩
    exact ⟨_, data, inverts_readLE hlt data, run_readExact_done.mpr ⟨rfl, rfl⟩⟩

theorem run_instruction_cons (opcode : UInt8) (s : List UInt8) :
    instruction.run (opcode :: s) =
      if opcode ≤ 0x4b then
        (readExact opcode.toNat fun data => done (Instruction.pushBytes data)).run s
      else if opcode = 0x4c then (pushData 1).run s
      else if opcode = 0x4d then (pushData 2).run s
      else if opcode = 0x4e then (pushData 4).run s
      else some (.op opcode, s) := by
  rw [instruction, run, if_pos (by simp)]
  simp only [List.take_succ_cons, List.take_zero, List.drop_succ_cons, List.drop_zero]
  split_ifs <;> rfl

/-- A word of an instruction starts with the opcode that decides it. -/
theorem inverts_iff {w : List UInt8} {i : Instruction} :
    instruction.Inverts i w ↔ ∃ opcode s, w = opcode :: s ∧
      instruction.run (opcode :: s) = some (i, []) := by
  rw [inverts_iff_run]
  cases w with
  | nil => simp [instruction, run]
  | cons opcode s =>
    constructor
    · intro h
      exact ⟨opcode, s, rfl, h⟩
    · rintro ⟨_, _, h, hrun⟩
      exact h ▸ hrun

/-- **The words of a push.** -/
theorem inverts_pushBytes {data w : List UInt8} :
    instruction.Inverts (.pushBytes data) w ↔ IsPush data w := by
  rw [inverts_iff]
  constructor
  · rintro ⟨opcode, s, rfl, h⟩
    rw [run_instruction_cons] at h
    split_ifs at h with h1 h2 h3 h4
    · obtain ⟨hlen, hs⟩ := run_readExact_done.mp h
      obtain rfl := Instruction.pushBytes.inj hs
      have hop : opcode = UInt8.ofNat data.length := by rw [hlen, UInt8.ofNat_toNat]
      rw [hop]
      exact .pushbytes (by rw [hlen]; exact h1)
    · obtain ⟨data', hlt, rfl, hs⟩ := run_pushData.mp h
      obtain rfl := Instruction.pushBytes.inj hs
      exact h2 ▸ .pushdata1 hlt
    · obtain ⟨data', hlt, rfl, hs⟩ := run_pushData.mp h
      obtain rfl := Instruction.pushBytes.inj hs
      exact h3 ▸ .pushdata2 hlt
    · obtain ⟨data', hlt, rfl, hs⟩ := run_pushData.mp h
      obtain rfl := Instruction.pushBytes.inj hs
      exact h4 ▸ .pushdata4 hlt
    · cases h
  · intro h
    cases h with
    | pushbytes h =>
      have hn : (UInt8.ofNat data.length).toNat = data.length := by
        rw [UInt8.toNat_ofNat', Nat.mod_eq_of_lt (by omega)]
      refine ⟨_, data, rfl, ?_⟩
      rw [run_instruction_cons, if_pos (UInt8.le_iff_toNat_le.mpr (by rw [hn]; exact h)), hn]
      exact run_readExact_done.mpr ⟨rfl, rfl⟩
    | pushdata1 h =>
      refine ⟨_, _, rfl, ?_⟩
      rw [run_instruction_cons, if_neg (by decide), if_pos rfl]
      exact run_pushData.mpr ⟨data, h, rfl, rfl⟩
    | pushdata2 h =>
      refine ⟨_, _, rfl, ?_⟩
      rw [run_instruction_cons, if_neg (by decide), if_neg (by decide), if_pos rfl]
      exact run_pushData.mpr ⟨data, h, rfl, rfl⟩
    | pushdata4 h =>
      refine ⟨_, _, rfl, ?_⟩
      rw [run_instruction_cons, if_neg (by decide), if_neg (by decide), if_neg (by decide),
        if_pos rfl]
      exact run_pushData.mpr ⟨data, h, rfl, rfl⟩

/-- **The word of an opcode** is the opcode itself, and it is no push. -/
theorem inverts_op {opcode : UInt8} {w : List UInt8} :
    instruction.Inverts (.op opcode) w ↔ w = [opcode] ∧ 0x4e < opcode := by
  rw [inverts_iff]
  constructor
  · rintro ⟨first, s, rfl, h⟩
    rw [run_instruction_cons] at h
    split_ifs at h with h1 h2 h3 h4
    · cases (run_readExact_done.mp h).2
    · obtain ⟨data, -, -, hs⟩ := run_pushData.mp h
      cases hs
    · obtain ⟨data, -, -, hs⟩ := run_pushData.mp h
      cases hs
    · obtain ⟨data, -, -, hs⟩ := run_pushData.mp h
      cases hs
    · obtain ⟨hop, rfl⟩ := Prod.mk.inj (Option.some.inj h)
      obtain rfl := Instruction.op.inj hop
      refine ⟨rfl, ?_⟩
      simp only [UInt8.le_iff_toNat_le, UInt8.lt_iff_toNat_lt, ← UInt8.toNat_inj] at h1 h2 h3 h4 ⊢
      simp at h1 h2 h3 h4 ⊢
      omega
  · rintro ⟨rfl, h⟩
    refine ⟨opcode, [], rfl, ?_⟩
    have hne : ∀ b : UInt8, b ≤ 0x4e → opcode ≠ b := fun b hb heq =>
      absurd (heq ▸ h) (UInt8.not_lt.mpr hb)
    rw [run_instruction_cons, if_neg (fun hle => ?_), if_neg (hne 0x4c (by decide)),
      if_neg (hne 0x4d (by decide)), if_neg (hne 0x4e (by decide))]
    simp only [UInt8.le_iff_toNat_le, UInt8.lt_iff_toNat_lt] at h hle
    simp at h hle
    omega

theorem advances_instruction : instruction.Advances := by
  intro i h
  obtain ⟨opcode, s, hnil, -⟩ := inverts_iff.mp h
  cases hnil

/-- **A script that parses** is the concatenation of the words of its instructions. -/
theorem instructions_iff {script : List UInt8} {chunks : List Instruction} :
    instructions script = chunks.map some ↔
      ∃ words, List.Forall₂ instruction.Inverts chunks words ∧ script = words.flatten :=
  items_eq_map_some advances_instruction

/-! ## The byte patterns -/

/-- `Script::is_p2pk`: a direct push of 33 or 65 bytes and `OP_CHECKSIG`. -/
def isP2pk (script : List UInt8) : Bool :=
  script.length = 35 ∧ script[0]? = some 0x21 ∧ script[34]? = some 0xac ∨
    script.length = 67 ∧ script[0]? = some 0x41 ∧ script[66]? = some 0xac

/-- `Script::is_p2pkh`. -/
def isP2pkh (script : List UInt8) : Bool :=
  script.length = 25 ∧ script[0]? = some 0x76 ∧ script[1]? = some 0xa9 ∧ script[2]? = some 0x14 ∧
    script[23]? = some 0x88 ∧ script[24]? = some 0xac

/-- `Script::is_p2sh`. -/
def isP2sh (script : List UInt8) : Bool :=
  script.length = 23 ∧ script[0]? = some 0xa9 ∧ script[1]? = some 0x14 ∧ script[22]? = some 0x87

/-- `Script::is_p2wpkh`. -/
def isP2wpkh (script : List UInt8) : Bool :=
  script.length = 22 ∧ script[0]? = some 0x00 ∧ script[1]? = some 0x14

/-- `Script::is_p2wsh`. -/
def isP2wsh (script : List UInt8) : Bool :=
  script.length = 34 ∧ script[0]? = some 0x00 ∧ script[1]? = some 0x20

/-- The opcode of a witness version: `OP_0`, or `OP_1` to `OP_16`. -/
def isVersion (opcode : UInt8) : Bool := opcode = 0x00 ∨ 0x51 ≤ opcode ∧ opcode ≤ 0x60

/-- `Script::is_witness_program`: a version and a direct push of 2 to 40 bytes, nothing after. -/
def isWitnessProgram (script : List UInt8) : Bool :=
  match script with
  | version :: push :: program =>
    isVersion version ∧ 0x02 ≤ push ∧ push ≤ 0x28 ∧ program.length = push.toNat
  | _ => false

/-- `Script::is_op_return`. -/
def isOpReturn (script : List UInt8) : Bool := script[0]? = some 0x6a

/-- `Address::from_script` succeeds: a pay-to-hash script, or a witness program, which in version 0
has 20 or 32 bytes. -/
def hasAddress (script : List UInt8) : Bool :=
  isP2pkh script ∨ isP2sh script ∨
    isWitnessProgram script ∧ (script[0]? = some 0x00 → isP2wpkh script ∨ isP2wsh script)

end ScriptBytes

/-- The crate behaves on scripts as it documents. -/
structure RustScript.Documented (rs : RustScript) : Prop where
  instructions : rs.instructions = ScriptBytes.instructions
  isP2pk : rs.isP2pk = ScriptBytes.isP2pk
  isP2pkh : rs.isP2pkh = ScriptBytes.isP2pkh
  isP2sh : rs.isP2sh = ScriptBytes.isP2sh
  isP2wpkh : rs.isP2wpkh = ScriptBytes.isP2wpkh
  isP2wsh : rs.isP2wsh = ScriptBytes.isP2wsh
  isWitnessProgram : rs.isWitnessProgram = ScriptBytes.isWitnessProgram
  isOpReturn : rs.isOpReturn = ScriptBytes.isOpReturn
  addressFromScript : ∀ script net,
    (rs.addressFromScript script net).isSome = ScriptBytes.hasAddress script
  /-- `Address::from_script` builds an address of the network it is given. -/
  network : ∀ script net address, rs.addressFromScript script net = some address →
    address.network = net

namespace ScriptBytes

/-- The 20 bytes from `start` on, as the hash that shows them in this order. -/
def hashAt (start : Nat) (script : List UInt8) : BitVec 160 :=
  BitVec.ofNat 160 (ofLeBytes ((script.drop start).take 20).reverse)

/-- The version that an opcode stands for. -/
def version (opcode : UInt8) : UInt8 := if opcode = 0x00 then 0 else opcode - 0x50

/-- `Address::from_script(..).ok()`. -/
def addressFromScript (script : List UInt8) (net : Network) : Option Address :=
  if isP2pkh script then some ⟨net, .p2pkh (hashAt 3 script)⟩
  else if isP2sh script then some ⟨net, .p2sh (hashAt 2 script)⟩
  else if hasAddress script then
    some ⟨net, .segwit (version (script.headD 0)) (script.drop 2)⟩
  else none

theorem isP2pk_push {script : List UInt8} (h : isP2pk script = true) :
    ∃ pk, (instructions script).head? = some (some (.pushBytes pk)) := by
  cases script with
  | nil => simp [isP2pk] at h
  | cons opcode s =>
    have hrun : instruction.run (opcode :: s) =
        some (.pushBytes (s.take opcode.toNat), s.drop opcode.toNat) := by
      simp only [isP2pk, decide_eq_true_eq, List.length_cons, List.getElem?_cons_zero,
        Option.some.injEq] at h
      rcases h with ⟨hlen, rfl, -⟩ | ⟨hlen, rfl, -⟩
      · rw [run_instruction_cons, if_pos (by decide), run, if_pos (by change 33 ≤ _; omega), run]
      · rw [run_instruction_cons, if_pos (by decide), run, if_pos (by change 65 ≤ _; omega), run]
    exact ⟨_, items_cons hrun⟩

end ScriptBytes

/-- A crate that behaves as documented, over its hash and its public keys. -/
def RustScript.ofBytes (hash160 : List UInt8 → BitVec 160)
    (publicKeyHash : List UInt8 → Option (BitVec 160)) : RustScript where
  instructions := ScriptBytes.instructions
  isP2pk := ScriptBytes.isP2pk
  isP2pkh := ScriptBytes.isP2pkh
  isP2sh := ScriptBytes.isP2sh
  isP2wpkh := ScriptBytes.isP2wpkh
  isP2wsh := ScriptBytes.isP2wsh
  isWitnessProgram := ScriptBytes.isWitnessProgram
  isOpReturn := ScriptBytes.isOpReturn
  addressFromScript := ScriptBytes.addressFromScript
  hash160 := hash160
  publicKeyHash := publicKeyHash
  isP2pk_push _ h := ScriptBytes.isP2pk_push h

theorem RustScript.documented_ofBytes (hash160 : List UInt8 → BitVec 160)
    (publicKeyHash : List UInt8 → Option (BitVec 160)) :
    (RustScript.ofBytes hash160 publicKeyHash).Documented where
  instructions := rfl
  isP2pk := rfl
  isP2pkh := rfl
  isP2sh := rfl
  isP2wpkh := rfl
  isP2wsh := rfl
  isWitnessProgram := rfl
  isOpReturn := rfl
  addressFromScript script net := by
    change (ScriptBytes.addressFromScript script net).isSome = _
    unfold ScriptBytes.addressFromScript
    split_ifs with h1 h2 h3
    · simp [ScriptBytes.hasAddress, h1]
    · simp [ScriptBytes.hasAddress, h2]
    · exact h3.symm
    · simpa using h3
  network script net address h := by
    change ScriptBytes.addressFromScript script net = _ at h
    unfold ScriptBytes.addressFromScript at h
    split_ifs at h <;> exact Option.some.inj h ▸ rfl

end BitcoinExplorer
