import BitcoinExplorer.Basic
import Mathlib.Data.List.Basic

/-!
# `src/parser/script.rs`: addresses and script types

`evaluateScript` extracts the addresses and the type of an output script. Its assertions,
`unreachable!` arms and `unwrap`s are panics of the model, and so are an underflow of an index and a
cast of a negative count to `usize`; `evaluateScript_total` shows that none of them is reached, so
`scriptInfo` is the value it returns. The chunks a multi-signature script has are the same ones for
the recogniser and for the extractor (`isMultisigChunks_iff`, `multisigAddresses_eq`).
-/

namespace BitcoinExplorer

open Rust

/-- `ScriptType`. -/
inductive ScriptType where
  | opReturn
  | pay2MultiSig
  | pay2PublicKey
  | pay2PublicKeyHash
  | pay2ScriptHash
  | pay2WitnessPublicKeyHash
  | pay2WitnessScriptHash
  | witnessProgram
  | notRecognised
  deriving DecidableEq, Repr

/-- `ScriptInfo`. -/
structure ScriptInfo where
  addresses : List Address
  pattern : ScriptType
  deriving DecidableEq, Repr

/-- `ScriptInfo::new`. -/
def ScriptInfo.new (address : Option Address) (pattern : ScriptType) : ScriptInfo :=
  ⟨address.toList, pattern⟩

/-! ## Opcodes -/

/-- `OP_PUSHBYTES_0`. -/
def opPushbytes0 : UInt8 := 0x00
/-- `OP_PUSHNUM_NEG1`. -/
def opPushnumNeg1 : UInt8 := 0x4f
/-- `OP_PUSHNUM_1`. -/
def opPushnum1 : UInt8 := 0x51
/-- `OP_PUSHNUM_16`. -/
def opPushnum16 : UInt8 := 0x60
/-- `OP_CHECKMULTISIG`. -/
def opCheckmultisig : UInt8 := 0xae
/-- `OP_CHECKMULTISIGVERIFY`. -/
def opCheckmultisigverify : UInt8 := 0xaf

/-- `decode_from_op_n`. -/
def decodeFromOpN (op : UInt8) : Int :=
  if op = opPushbytes0 then 0
  else if op = opPushnumNeg1 then -1
  else op.toNat + 1 - opPushnum1.toNat

/-- `get_num_keys`. -/
def getNumKeys : Instruction → Option Int
  | .pushBytes _ => none
  | .op op =>
    if op = opPushnumNeg1 ∨ op = opPushbytes0 ∨ (opPushnum1 ≤ op ∧ op ≤ opPushnum16) then
      some (decodeFromOpN op)
    else none

/-- The chunk is an opcode, not a push. -/
def Instruction.isOp : Instruction → Bool
  | .op _ => true
  | .pushBytes _ => false

/-! ## Multi-signature scripts -/

/-- `a - b` on `usize`, where an underflow ends the run. -/
def usizeSub (a b : Nat) : Outcome Empty Nat := if b ≤ a then .ok (a - b) else .panic

/-- `n as usize` of an `i32`, where a negative number ends the run. -/
def countAsUsize (n : Int) : Outcome Empty Nat := if n < 0 then .panic else .ok n.toNat

/-- The chunks of a multi-signature script, checked as `is_multisig` checks them. -/
def isMultisigChunks (chunks : List Instruction) : Outcome Empty Bool :=
  if chunks.length < 4 then .ok false
  else
    match chunks.getLast? with
    | none => .panic
    | some (.pushBytes _) => .ok false
    | some (.op op) =>
      if op ≠ opCheckmultisig ∧ op ≠ opCheckmultisigverify then .ok false
      else do
        let secondLast ← usizeSub chunks.length 2
        match chunks[secondLast]? with
        | none => .panic
        | some secondLastChunk =>
          match getNumKeys secondLastChunk with
          | none => .ok false
          | some numKeys =>
            if numKeys < 1 then .ok false
            else
              let expected ← countAsUsize (numKeys + 3)
              if expected ≠ chunks.length then .ok false
              else
                let keys ← usizeSub chunks.length 3
                if ((chunks.drop 1).take keys).any Instruction.isOp then .ok false
                else
                  match chunks[0]? with
                  | none => .panic
                  | some first =>
                    match getNumKeys first with
                    | none => .ok false
                    | some numKeys => .ok (decide (¬ numKeys < 1))

/-- `is_multisig`. -/
def isMultisig (rs : RustScript) (script : List UInt8) : Outcome Empty Bool :=
  match (rs.instructions script).mapM id with
  | none => .ok false
  | some chunks => isMultisigChunks chunks

/-- The loop of `multisig_addresses` over the pushed keys. -/
def multisigKeys (rs : RustScript) : List Instruction → List Address → Outcome Empty (List Address)
  | [], publicKeys => .ok publicKeys
  | .pushBytes data :: ops, publicKeys =>
    match rs.publicKeyHash data with
    | some pkh => multisigKeys rs ops (publicKeys ++ [.p2pkh pkh .bitcoin])
    | none => .ok []
  | .op _ :: _, _ => .panic

/-- `multisig_addresses`. -/
def multisigAddresses (rs : RustScript) (script : List UInt8) : Outcome Empty (List Address) := do
  let multisig ← isMultisig rs script
  if multisig = false then .panic
  let ops := (rs.instructions script).filterMap id
  let secondLast ← usizeSub ops.length 2
  match ops[secondLast]? with
  | some (.op op) =>
    let numKeys ← countAsUsize (decodeFromOpN op)
    multisigKeys rs ((ops.drop 1).take numKeys) []
  | _ => .panic

/-- `p2pk_to_address`. -/
def p2pkToAddress (rs : RustScript) (script : List UInt8) : Outcome Empty (Option Address) :=
  if rs.isP2pk script = false then .panic
  else
    match (rs.instructions script).head? with
    | some (some (.pushBytes pk)) => .ok (some (.p2pkh (rs.hash160 pk) .bitcoin))
    | _ => .panic

/-- `evaluate_script`. -/
def evaluateScript (rs : RustScript) (script : List UInt8) (net : Network) :
    Outcome Empty ScriptInfo := do
  let address := rs.addressFromScript script net
  if rs.isP2pk script then
    let address ← p2pkToAddress rs script
    return .new address .pay2PublicKey
  else if rs.isP2pkh script then return .new address .pay2PublicKeyHash
  else if rs.isP2sh script then return .new address .pay2ScriptHash
  else if rs.isP2wpkh script then return .new address .pay2WitnessPublicKeyHash
  else if rs.isP2wsh script then return .new address .pay2WitnessScriptHash
  else if rs.isWitnessProgram script then return .new address .witnessProgram
  else if rs.isOpReturn script then return .new address .opReturn
  else
    let multisig ← isMultisig rs script
    if multisig then
      let addresses ← multisigAddresses rs script
      return ⟨addresses, .pay2MultiSig⟩
    else return .new address .notRecognised

/-! ## The chunks of a multi-signature script -/

/-- `OP_N` of a number up to 16. -/
def opN (n : Nat) : UInt8 := UInt8.ofNat (0x50 + n)

/-- A check that ends a multi-signature script. -/
def Instruction.isCheck : Instruction → Bool
  | .op opcode => opcode = opCheckmultisig || opcode = opCheckmultisigverify
  | .pushBytes _ => false

theorem usizeSub_add (a b : Nat) : usizeSub (a + b) b = .ok a := by
  rw [usizeSub, if_pos (Nat.le_add_left b a), Nat.add_sub_cancel]

theorem countAsUsize_of_nonneg {n : Int} (h : 0 ≤ n) : countAsUsize n = .ok n.toNat :=
  if_neg (not_lt.mpr h)

theorem toNat_opN {n : Nat} (h : n ≤ 16) : (opN n).toNat = 0x50 + n := by
  rw [opN, UInt8.toNat_ofNat', Nat.mod_eq_of_lt (by omega)]

theorem decodeFromOpN_opN {n : Nat} (h1 : 1 ≤ n) (h2 : n ≤ 16) : decodeFromOpN (opN n) = n := by
  have hn := toNat_opN h2
  have h0 : opN n ≠ opPushbytes0 := fun h => by
    rw [h] at hn
    simp [opPushbytes0] at hn
    omega
  have hneg : opN n ≠ opPushnumNeg1 := fun h => by
    rw [h] at hn
    simp [opPushnumNeg1] at hn
    omega
  rw [decodeFromOpN, if_neg h0, if_neg hneg, hn]
  simp [opPushnum1]
  omega

/-- A count of at least one comes from the opcode of a number. -/
theorem getNumKeys_pos {chunk : Instruction} {numKeys : Int} (hpos : 1 ≤ numKeys) :
    getNumKeys chunk = some numKeys ↔
      ∃ n : Nat, 1 ≤ n ∧ n ≤ 16 ∧ chunk = .op (opN n) ∧ numKeys = n := by
  constructor
  · intro h
    cases chunk with
    | pushBytes data => cases h
    | op op =>
      simp only [getNumKeys, Option.ite_none_right_eq_some, Option.some.injEq] at h
      obtain ⟨hop, rfl⟩ := h
      rcases hop with rfl | rfl | ⟨hlo, hhi⟩
      · exact absurd hpos (by decide)
      · exact absurd hpos (by decide)
      · have hlo' : 0x51 ≤ op.toNat := hlo
        have hhi' : op.toNat ≤ 0x60 := hhi
        have hop : op = opN (op.toNat - 0x50) := by
          rw [← UInt8.toNat_inj, toNat_opN (by omega)]
          omega
        refine ⟨op.toNat - 0x50, by omega, by omega, congrArg _ hop, ?_⟩
        conv_lhs => rw [hop]
        exact decodeFromOpN_opN (by omega) (by omega)
  · rintro ⟨n, h1, h2, rfl, rfl⟩
    have hn := toNat_opN h2
    have hlo : opPushnum1 ≤ opN n := by
      change 0x51 ≤ (opN n).toNat
      omega
    have hhi : opN n ≤ opPushnum16 := by
      change (opN n).toNat ≤ 0x60
      omega
    rw [getNumKeys, if_pos (Or.inr (Or.inr ⟨hlo, hhi⟩)), decodeFromOpN_opN h1 h2]

/-- What the check computes on chunks that are not too few. -/
theorem isMultisigChunks_split (first second last : Instruction) {mid : List Instruction}
    (hmid : mid ≠ []) :
    isMultisigChunks (first :: (mid ++ [second, last])) =
      .ok (last.isCheck && getNumKeys second = some (mid.length : Int) &&
        !mid.any Instruction.isOp &&
        (getNumKeys first).any fun numKeys => 1 ≤ numKeys) := by
  have hlen : (first :: (mid ++ [second, last])).length = mid.length + 3 := by simp
  have hpos : 1 ≤ mid.length := List.length_pos_iff.mpr hmid
  have hlast : (first :: (mid ++ [second, last])).getLast? = some last := by
    rw [List.getLast?_cons, List.getLast?_append]
    rfl
  have hsecond : (first :: (mid ++ [second, last]))[mid.length + 1]? = some second := by simp
  have hkeys : ((first :: (mid ++ [second, last])).drop 1).take mid.length = mid := by simp
  unfold isMultisigChunks
  rw [hlen, if_neg (by omega), hlast, usizeSub_add (mid.length + 1) 2, usizeSub_add mid.length 3]
  simp only [Outcome.ok_bind, hsecond, hkeys, List.getElem?_cons_zero]
  cases last with
  | pushBytes data => rfl
  | op opcode =>
    dsimp only [Instruction.isCheck]
    by_cases hcheck : opcode = opCheckmultisig ∨ opcode = opCheckmultisigverify
    · rw [if_neg (fun h => (not_or.mpr h) hcheck),
        show (decide (opcode = opCheckmultisig) || decide (opcode = opCheckmultisigverify)) =
            true by
          simpa using hcheck, Bool.true_and]
      cases getNumKeys second with
      | none => rfl
      | some numKeys =>
        dsimp only
        by_cases hn : numKeys = mid.length
        · rw [if_neg (by omega), countAsUsize_of_nonneg (by omega), Outcome.ok_bind,
            if_neg (by omega), hn]
          cases mid.any Instruction.isOp with
          | true => simp
          | false =>
            cases getNumKeys first with
            | none => simp
            | some numKeys => simp
        · have hne : ¬ some numKeys = some (mid.length : Int) := fun h => hn (Option.some.inj h)
          rw [decide_eq_false hne, Bool.false_and, Bool.false_and]
          split
          · rfl
          · rw [countAsUsize_of_nonneg (by omega), Outcome.ok_bind, if_pos (by omega)]
    · rw [if_pos (not_or.mp hcheck),
        show (decide (opcode = opCheckmultisig) || decide (opcode = opCheckmultisigverify)) =
            false by
          simpa using hcheck]
      rfl

/-- Four chunks or more have a first one and two last ones. -/
theorem exists_split {chunks : List Instruction} (h : 4 ≤ chunks.length) :
    ∃ first mid second last, mid ≠ [] ∧ chunks = first :: (mid ++ [second, last]) := by
  obtain ⟨first, rest, rfl⟩ := List.exists_cons_of_length_pos (show 0 < chunks.length by omega)
  obtain ⟨init, last, rfl⟩ := List.eq_nil_or_concat rest |>.resolve_left (by rintro rfl; simp at h)
  obtain ⟨mid, second, rfl⟩ := List.eq_nil_or_concat init |>.resolve_left (by rintro rfl; simp at h)
  refine ⟨first, mid, second, last, ?_, by simp⟩
  rintro rfl
  simp at h

/-- The chunk check never panics. -/
theorem isMultisigChunks_total (chunks : List Instruction) :
    ∃ b, isMultisigChunks chunks = .ok b := by
  by_cases hlen : chunks.length < 4
  · exact ⟨false, if_pos hlen⟩
  · obtain ⟨first, mid, second, last, hmid, rfl⟩ := exists_split (not_lt.mp hlen)
    exact ⟨_, isMultisigChunks_split first second last hmid⟩

/-- The pushes among the chunks. -/
theorem any_isOp_eq_false {chunks : List Instruction} :
    chunks.any Instruction.isOp = false ↔
      ∃ keys : List (List UInt8), chunks = keys.map .pushBytes := by
  constructor
  · intro h
    induction chunks with
    | nil => exact ⟨[], rfl⟩
    | cons chunk chunks ih =>
      rw [List.any_cons, Bool.or_eq_false_iff] at h
      obtain ⟨keys, rfl⟩ := ih h.2
      cases chunk with
      | pushBytes data => exact ⟨data :: keys, rfl⟩
      | op opcode => cases h.1
  · rintro ⟨keys, rfl⟩
    simp [Instruction.isOp]

/-- `m` of the keys, closed by a check. -/
def multisigChunks (m : Nat) (keys : List (List UInt8)) (check : UInt8) : List Instruction :=
  .op (opN m) :: (keys.map .pushBytes ++ [.op (opN keys.length), .op check])

/-- The numbers and the check of a multi-signature script. -/
structure IsMultisigOf (m : Nat) (keys : List (List UInt8)) (check : UInt8) : Prop where
  one_le : 1 ≤ m
  le_sixteen : m ≤ 16
  keys_pos : 1 ≤ keys.length
  keys_le : keys.length ≤ 16
  check_eq : check = opCheckmultisig ∨ check = opCheckmultisigverify

/-- **What `is_multisig` accepts**: `OP_m`, `n` pushes, `OP_n` and a check. -/
theorem isMultisigChunks_iff {chunks : List Instruction} :
    isMultisigChunks chunks = .ok true ↔
      ∃ m keys check, IsMultisigOf m keys check ∧ chunks = multisigChunks m keys check := by
  constructor
  · intro h
    by_cases hlen : chunks.length < 4
    · rw [isMultisigChunks, if_pos hlen] at h
      cases h
    obtain ⟨first, mid, second, last, hmid, rfl⟩ := exists_split (not_lt.mp hlen)
    rw [isMultisigChunks_split first second last hmid] at h
    simp only [Outcome.ok.injEq, Bool.and_eq_true, decide_eq_true_eq, Bool.not_eq_true',
      any_isOp_eq_false, Option.any_eq_true] at h
    obtain ⟨⟨⟨hcheck, hsecond⟩, keys, rfl⟩, numKeys, hfirst, hpos⟩ := h
    have hkeys := List.length_pos_iff.mpr hmid
    rw [List.length_map] at hsecond hkeys
    obtain ⟨m, hm1, hm2, rfl, -⟩ := (getNumKeys_pos hpos).mp hfirst
    obtain ⟨n, hn1, hn2, rfl, hn⟩ := (getNumKeys_pos (by omega)).mp hsecond
    obtain rfl : keys.length = n := by omega
    cases last with
    | pushBytes data => cases hcheck
    | op check =>
      refine ⟨m, keys, check, ⟨hm1, hm2, hn1, hn2, ?_⟩, rfl⟩
      simpa [Instruction.isCheck] using hcheck
  · rintro ⟨m, keys, check, h, rfl⟩
    have hmid : keys.map Instruction.pushBytes ≠ [] := by
      have := h.keys_pos
      rintro hnil
      rw [List.map_eq_nil_iff.mp hnil] at this
      exact absurd this (by decide)
    have hm1 := h.one_le
    have hn1 := h.keys_pos
    have hfirst : getNumKeys (.op (opN m)) = some (m : Int) :=
      (getNumKeys_pos (by omega)).mpr ⟨m, hm1, h.le_sixteen, rfl, rfl⟩
    have hsecond : getNumKeys (.op (opN keys.length)) = some (keys.length : Int) :=
      (getNumKeys_pos (by omega)).mpr ⟨_, hn1, h.keys_le, rfl, rfl⟩
    have hcheck : (Instruction.op check).isCheck = true := by
      simpa [Instruction.isCheck] using h.check_eq
    have hpush : (keys.map Instruction.pushBytes).any Instruction.isOp = false :=
      any_isOp_eq_false.mpr ⟨keys, rfl⟩
    rw [multisigChunks, isMultisigChunks_split _ _ _ hmid, hfirst, hsecond, hcheck, hpush]
    simpa using (show (1 : Int) ≤ m by omega)

/-! ## No arm of `evaluate_script` panics -/

theorem mapM_id_eq_some {α : Type} : ∀ {xs : List (Option α)} {ys : List α},
    xs.mapM id = some ys ↔ xs = ys.map some
  | [], ys => by
    rw [List.mapM_nil]
    cases ys with
    | nil => simp
    | cons y ys => simp
  | x :: xs, ys => by
    rw [List.mapM_cons]
    cases x with
    | none => cases ys <;> simp
    | some x =>
      cases ys with
      | nil => simp [Option.bind_eq_some_iff]
      | cons y ys => simp [Option.bind_eq_some_iff, mapM_id_eq_some, and_comm]

theorem isMultisig_total (rs : RustScript) (script : List UInt8) :
    ∃ b, isMultisig rs script = .ok b := by
  unfold isMultisig
  split
  · exact ⟨false, rfl⟩
  · exact isMultisigChunks_total _

/-- A multi-signature script has the chunks of one, without an error among them. -/
theorem isMultisig_iff_chunks {rs : RustScript} {script : List UInt8} :
    isMultisig rs script = .ok true ↔ ∃ m keys check, IsMultisigOf m keys check ∧
      rs.instructions script = (multisigChunks m keys check).map some := by
  unfold isMultisig
  cases hc : (rs.instructions script).mapM id with
  | none =>
    constructor
    · intro h
      cases h
    · rintro ⟨m, keys, check, -, hchunks⟩
      rw [mapM_id_eq_some.mpr hchunks] at hc
      cases hc
  | some chunks =>
    dsimp only
    rw [isMultisigChunks_iff, mapM_id_eq_some.mp hc]
    simp only [List.map_inj_right (fun _ _ => Option.some.inj)]

/-- The keys of a list, as addresses when all of them parse. -/
def keyAddresses (rs : RustScript) (keys : List (List UInt8)) : Option (List Address) :=
  keys.mapM fun key => (rs.publicKeyHash key).map (.p2pkh · .bitcoin)

/-- The key loop collects the addresses of all pushes, or none. -/
theorem multisigKeys_eq (rs : RustScript) (keys : List (List UInt8)) (acc : List Address) :
    multisigKeys rs (keys.map .pushBytes) acc =
      .ok (((keyAddresses rs keys).map (acc ++ ·)).getD []) := by
  induction keys generalizing acc with
  | nil => simp [multisigKeys, keyAddresses]
  | cons key keys ih =>
    rw [List.map_cons, multisigKeys, keyAddresses, List.mapM_cons]
    cases rs.publicKeyHash key with
    | none => rfl
    | some pkh =>
      dsimp only
      rw [ih, Option.map_some, ← keyAddresses]
      cases keyAddresses rs keys with
      | none => rfl
      | some addresses => simp

/-- The extractor finds the keys that the recogniser accepted. -/
theorem multisigAddresses_eq {rs : RustScript} {script : List UInt8} {m : Nat}
    {keys : List (List UInt8)} {check : UInt8} (h : IsMultisigOf m keys check)
    (hchunks : rs.instructions script = (multisigChunks m keys check).map some) :
    multisigAddresses rs script = .ok ((keyAddresses rs keys).getD []) := by
  have hmulti := isMultisig_iff_chunks.mpr ⟨m, keys, check, h, hchunks⟩
  have hops : (rs.instructions script).filterMap id = multisigChunks m keys check := by
    rw [hchunks, List.filterMap_map]
    simp
  have hlen : (multisigChunks m keys check).length = keys.length + 1 + 2 := by
    simp [multisigChunks]
  have hsecond : (multisigChunks m keys check)[keys.length + 1]? =
      some (.op (opN keys.length)) := by
    simp [multisigChunks]
  have hkeys : ((multisigChunks m keys check).drop 1).take keys.length =
      keys.map Instruction.pushBytes := by
    simp [multisigChunks]
  have hnum : countAsUsize (decodeFromOpN (opN keys.length)) = .ok keys.length := by
    rw [decodeFromOpN_opN h.keys_pos h.keys_le, countAsUsize_of_nonneg (by omega),
      Int.toNat_natCast]
  unfold multisigAddresses
  rw [hmulti]
  simp only [Outcome.ok_bind, Bool.true_eq_false, if_false, hops, hlen, usizeSub_add, hsecond, hnum,
    hkeys, multisigKeys_eq]
  simp

theorem p2pkToAddress_total {rs : RustScript} {script : List UInt8} (h : rs.isP2pk script = true) :
    ∃ hash, p2pkToAddress rs script = .ok (some (.p2pkh hash .bitcoin)) := by
  obtain ⟨pk, hpk⟩ := rs.isP2pk_push script h
  refine ⟨rs.hash160 pk, ?_⟩
  unfold p2pkToAddress
  rw [if_neg (by rw [h]; exact Bool.noConfusion), hpk]

/-! ## The tests of `evaluate_script`, by the pattern each of them decides -/

/-- The recogniser of a pattern. -/
def accepts (rs : RustScript) (script : List UInt8) : ScriptType → Bool
  | .pay2PublicKey => rs.isP2pk script
  | .pay2PublicKeyHash => rs.isP2pkh script
  | .pay2ScriptHash => rs.isP2sh script
  | .pay2WitnessPublicKeyHash => rs.isP2wpkh script
  | .pay2WitnessScriptHash => rs.isP2wsh script
  | .witnessProgram => rs.isWitnessProgram script
  | .opReturn => rs.isOpReturn script
  | .pay2MultiSig => isMultisig rs script = .ok true
  | .notRecognised => false

/-- The pattern of the first test that accepts. -/
def firstPattern (rs : RustScript) (script : List UInt8) (order : List ScriptType) : ScriptType :=
  (order.find? (accepts rs script)).getD .notRecognised

/-- The order `evaluate_script` tests in. -/
def testOrder : List ScriptType :=
  [.pay2PublicKey, .pay2PublicKeyHash, .pay2ScriptHash, .pay2WitnessPublicKeyHash,
    .pay2WitnessScriptHash, .witnessProgram, .opReturn, .pay2MultiSig]

/-- The addresses `evaluate_script` lists for a pattern. -/
def patternAddresses (rs : RustScript) (script : List UInt8) (net : Network) :
    ScriptType → Outcome Empty (List Address)
  | .pay2PublicKey => do return (← p2pkToAddress rs script).toList
  | .pay2MultiSig => multisigAddresses rs script
  | _ => .ok (rs.addressFromScript script net).toList

/-- **`evaluate_script`, as the first test that accepts** and the addresses for its pattern. -/
theorem evaluateScript_eq (rs : RustScript) (script : List UInt8) (net : Network) :
    evaluateScript rs script net = (do
      let pattern := firstPattern rs script testOrder
      return ⟨← patternAddresses rs script net pattern, pattern⟩) := by
  unfold evaluateScript firstPattern testOrder
  simp only [List.find?_cons, List.find?_nil, accepts]
  obtain ⟨b, hb⟩ := isMultisig_total rs script
  cases rs.isP2pk script with
  | true =>
    simp only [if_true, Option.getD_some, patternAddresses]
    cases p2pkToAddress rs script <;> rfl
  | false =>
    cases rs.isP2pkh script with
    | true => rfl
    | false =>
      cases rs.isP2sh script with
      | true => rfl
      | false =>
        cases rs.isP2wpkh script with
        | true => rfl
        | false =>
          cases rs.isP2wsh script with
          | true => rfl
          | false =>
            cases rs.isWitnessProgram script with
            | true => rfl
            | false =>
              cases rs.isOpReturn script with
              | true => rfl
              | false =>
                rw [hb]
                cases b with
                | true => rfl
                | false => rfl

/-- What a result of `evaluate_script` says. -/
theorem evaluateScript_eq_ok {rs : RustScript} {script : List UInt8} {net : Network}
    {info : ScriptInfo} (h : evaluateScript rs script net = .ok info) :
    info.pattern = firstPattern rs script testOrder ∧
      patternAddresses rs script net info.pattern = .ok info.addresses := by
  rw [evaluateScript_eq] at h
  obtain ⟨addresses, haddresses, hinfo⟩ := Outcome.bind_eq_ok.mp h
  obtain rfl := Outcome.ok.inj hinfo
  exact ⟨rfl, haddresses⟩

/-- The pattern found is one whose test accepts, if any does. -/
theorem accepts_firstPattern {rs : RustScript} {script : List UInt8} {order : List ScriptType}
    (h : firstPattern rs script order ≠ .notRecognised) :
    accepts rs script (firstPattern rs script order) = true := by
  unfold firstPattern at h ⊢
  cases hf : order.find? (accepts rs script) with
  | none =>
    rw [hf] at h
    exact absurd rfl h
  | some pattern => exact List.find?_some hf

/-- The addresses of a pattern whose test accepts are listed. -/
theorem patternAddresses_total {rs : RustScript} {script : List UInt8} {net : Network}
    {pattern : ScriptType} (h : pattern ≠ .notRecognised → accepts rs script pattern = true) :
    ∃ addresses, patternAddresses rs script net pattern = .ok addresses := by
  cases pattern with
  | pay2PublicKey =>
    obtain ⟨hash, ha⟩ := p2pkToAddress_total (h nofun)
    exact ⟨_, by rw [patternAddresses, ha]; rfl⟩
  | pay2MultiSig =>
    have hmulti : isMultisig rs script = .ok true := by simpa [accepts] using h nofun
    obtain ⟨m, keys, check, hm, hchunks⟩ := isMultisig_iff_chunks.mp hmulti
    exact ⟨_, multisigAddresses_eq hm hchunks⟩
  | _ => exact ⟨_, rfl⟩

/-- **`evaluate_script` returns on every script.** -/
theorem evaluateScript_total (rs : RustScript) (script : List UInt8) (net : Network) :
    ∃ info, evaluateScript rs script net = .ok info := by
  obtain ⟨addresses, h⟩ : ∃ addresses,
      patternAddresses rs script net (firstPattern rs script testOrder) = .ok addresses :=
    patternAddresses_total accepts_firstPattern
  rw [evaluateScript_eq]
  dsimp only
  exact ⟨_, by rw [h]; rfl⟩

/-- **No assertion, `unreachable!` arm, index or cast of `evaluate_script` panics.** -/
theorem evaluateScript_never_panics (rs : RustScript) (script : List UInt8) (net : Network) :
    evaluateScript rs script net ≠ .panic := by
  obtain ⟨info, h⟩ := evaluateScript_total rs script net
  rw [h]
  exact nofun

/-- The value `evaluate_script` returns. -/
def scriptInfo (rs : RustScript) (script : List UInt8) (net : Network) : ScriptInfo :=
  (evaluateScript rs script net).get (by
    obtain ⟨info, h⟩ := evaluateScript_total rs script net
    rw [h]
    rfl)

end BitcoinExplorer
