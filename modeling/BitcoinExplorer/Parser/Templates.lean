import BitcoinExplorer.Parser.ScriptKinds

/-!
# What output scripts pay to

`Template` is what the scripts that `evaluate_script` recognises pay to, and `Template.bytes` the
script of each. On a crate that behaves as documented `evaluate_script` reads the templates back:

* `accepts_iff_template`: each test accepts the scripts of one kind of template.
* **`evaluateScript_templates`**: different templates have different scripts, the script of a
  template is evaluated to its pattern and its addresses, and every other script is not recognised.
-/

namespace BitcoinExplorer

open Rust Bytes
open ScriptBytes (IsPush)

/-- The crate behaves as documented, and so does `Address::from_script` on what it reads. -/
structure RustScript.Exact (rs : RustScript) : Prop extends rs.Documented where
  address : rs.addressFromScript = ScriptBytes.addressFromScript

theorem RustScript.exact_ofBytes (hash160 : List UInt8 → BitVec 160)
    (publicKeyHash : List UInt8 → Option (BitVec 160)) :
    (RustScript.ofBytes hash160 publicKeyHash).Exact :=
  ⟨documented_ofBytes hash160 publicKeyHash, rfl⟩

/-- A public key as it is pushed, compressed or not. -/
abbrev KeyBytes := {key : List UInt8 // key.length = 33 ∨ key.length = 65}

/-- A witness program. -/
abbrev Program := {program : List UInt8 // 2 ≤ program.length ∧ program.length ≤ 40}

/-- Data with the bytes that push it. -/
structure Push where
  data : List UInt8
  bytes : List UInt8
  isPush : IsPush data bytes

/-- A multi-signature script by its parts. -/
structure MultisigParts where
  m : Nat
  pushes : List Push
  check : UInt8
  numbers : IsMultisigOf m (pushes.map Push.data) check

/-- What an output pays to. -/
inductive Template where
  | publicKey (key : KeyBytes)
  | publicKeyHash (hash : BitVec 160)
  | scriptHash (hash : BitVec 160)
  | witness (version : Fin 17) (program : Program)
  /-- Nobody: `OP_RETURN` and anything. -/
  | data (payload : List UInt8)
  | multisig (parts : MultisigParts)

/-- The bytes of a hash in the order it is shown in. -/
def hashBytes (hash : BitVec 160) : List UInt8 := (leBytes 20 hash.toNat).reverse

/-- The opcode that a witness version is pushed with. -/
def versionOp (version : Fin 17) : UInt8 := if version = 0 then 0x00 else opN version

namespace Template

/-- The script of a template. -/
def bytes : Template → List UInt8
  | .publicKey key => UInt8.ofNat key.1.length :: (key.1 ++ [0xac])
  | .publicKeyHash hash => [0x76, 0xa9, 0x14] ++ (hashBytes hash ++ [0x88, 0xac])
  | .scriptHash hash => [0xa9, 0x14] ++ (hashBytes hash ++ [0x87])
  | .witness version program => versionOp version :: UInt8.ofNat program.1.length :: program.1
  | .data payload => 0x6a :: payload
  | .multisig parts =>
    opN parts.m :: ((parts.pushes.map Push.bytes).flatten ++ [opN parts.pushes.length, parts.check])

/-- The test that accepts the script, the general one for witness programs. -/
def kind : Template → ScriptType
  | .publicKey _ => .pay2PublicKey
  | .publicKeyHash _ => .pay2PublicKeyHash
  | .scriptHash _ => .pay2ScriptHash
  | .witness _ _ => .witnessProgram
  | .data _ => .opReturn
  | .multisig _ => .pay2MultiSig

/-- The pattern of the script. -/
def pattern : Template → ScriptType
  | .witness version program =>
    if version = 0 ∧ program.1.length = 20 then .pay2WitnessPublicKeyHash
    else if version = 0 ∧ program.1.length = 32 then .pay2WitnessScriptHash
    else .witnessProgram
  | t => t.kind

/-- The addresses paid to. Those of public keys are on the main network. -/
def addresses (rs : RustScript) (net : Network) : Template → List Address
  | .publicKey key => [.p2pkh (rs.hash160 key.1) .bitcoin]
  | .publicKeyHash hash => [⟨net, .p2pkh hash⟩]
  | .scriptHash hash => [⟨net, .p2sh hash⟩]
  | .witness version program =>
    if version = 0 ∧ program.1.length ≠ 20 ∧ program.1.length ≠ 32 then []
    else [⟨net, .segwit (UInt8.ofNat version) program.1⟩]
  | .data _ => []
  | .multisig parts => (keyAddresses rs (parts.pushes.map Push.data)).getD []

theorem kind_mem (t : Template) : t.kind ∈ kinds := by
  cases t <;> simp [kind, kinds]

end Template

/-! ## Parts of scripts -/

@[simp] theorem length_hashBytes (hash : BitVec 160) : (hashBytes hash).length = 20 := by
  rw [hashBytes, List.length_reverse, length_leBytes]

/-- A hash is read back from where it stands. -/
theorem hashAt_append (before : List UInt8) (hash : BitVec 160) (after : List UInt8) :
    ScriptBytes.hashAt before.length (before ++ (hashBytes hash ++ after)) = hash := by
  have hlt : hash.toNat < 256 ^ 20 := hash.isLt
  rw [ScriptBytes.hashAt, List.drop_left, List.take_left' (length_hashBytes hash), hashBytes,
    List.reverse_reverse, ofLeBytes_leBytes_of_lt hlt, BitVec.ofNat_toNat, BitVec.setWidth_eq]

theorem hashBytes_injective : Function.Injective hashBytes := by
  intro hash hash' h
  have hread := hashAt_append [] hash []
  rw [h, hashAt_append [] hash' []] at hread
  exact hread.symm

/-- Any 20 bytes are those of a hash. -/
theorem exists_hash {l : List UInt8} (h : l.length = 20) : ∃ hash, hashBytes hash = l := by
  have hlt : ofLeBytes l.reverse < 2 ^ 160 := by
    have := ofLeBytes_lt l.reverse
    rwa [List.length_reverse, h] at this
  refine ⟨BitVec.ofNat 160 (ofLeBytes l.reverse), ?_⟩
  have hback := leBytes_ofLeBytes l.reverse
  rw [List.length_reverse, h] at hback
  rw [hashBytes, BitVec.toNat_ofNat, Nat.mod_eq_of_lt hlt, hback, List.reverse_reverse]

theorem versionOp_injective : ∀ version version', versionOp version = versionOp version' →
    version = version' := by
  decide

theorem isVersion_versionOp : ∀ version, ScriptBytes.isVersion (versionOp version) = true := by
  decide

theorem version_versionOp : ∀ version : Fin 17,
    ScriptBytes.version (versionOp version) = UInt8.ofNat version := by
  decide

theorem versionOp_eq_zero_iff : ∀ version, versionOp version = 0x00 ↔ version = 0 := by
  decide

theorem exists_version {opcode : UInt8} (h : ScriptBytes.isVersion opcode = true) :
    ∃ version, versionOp version = opcode := by
  rw [ScriptBytes.isVersion, decide_eq_true_eq] at h
  rcases h with rfl | ⟨hlo, hhi⟩
  · exact ⟨0, rfl⟩
  · rw [UInt8.le_iff_toNat_le] at hlo hhi
    change 0x51 ≤ opcode.toNat at hlo
    change opcode.toNat ≤ 0x60 at hhi
    refine ⟨⟨opcode.toNat - 0x50, by omega⟩, ?_⟩
    rw [versionOp, if_neg (fun h0 => ?_)]
    · rw [← UInt8.toNat_inj, toNat_opN (by dsimp only; omega)]
      dsimp only
      omega
    · have := congrArg Fin.val h0
      dsimp only at this
      change opcode.toNat - 0x50 = 0 at this
      omega

/-- A list that ends in `b`. -/
theorem exists_concat {l : List UInt8} {n : Nat} {b : UInt8} (hlen : l.length = n + 1)
    (h : l[n]? = some b) : ∃ front, front.length = n ∧ l = front ++ [b] := by
  refine ⟨l.take n, List.length_take_of_le (by omega), ?_⟩
  obtain ⟨hlt, rfl⟩ := List.getElem?_eq_some_iff.mp h
  rw [List.take_append_getElem, ← hlen, List.take_length]

/-! ## The tests -/

/-- The parts of a multi-signature script make one. -/
theorem MultisigParts.multisigScript (parts : MultisigParts) : MultisigScript parts.m
    (parts.pushes.map Push.data) parts.check (Template.multisig parts).bytes where
  numbers := parts.numbers
  bytes := by
    refine ⟨parts.pushes.map Push.bytes, ?_, by rw [Template.bytes, List.length_map]⟩
    exact List.forall₂_map_left_iff.mpr (List.forall₂_map_right_iff.mpr
      (List.forall₂_same.mpr fun push _ => push.isPush))

/-- Any multi-signature script has such parts. -/
theorem exists_parts {m : Nat} {keys : List (List UInt8)} {check : UInt8} {script : List UInt8}
    (h : MultisigScript m keys check script) :
    ∃ parts : MultisigParts, (Template.multisig parts).bytes = script := by
  obtain ⟨hnum, words, hwords, rfl⟩ := h
  obtain ⟨pushes, rfl, rfl⟩ : ∃ pushes : List Push,
      pushes.map Push.data = keys ∧ pushes.map Push.bytes = words := by
    clear hnum
    induction hwords with
    | nil => exact ⟨[], rfl, rfl⟩
    | cons hpush _ ih =>
      obtain ⟨pushes, rfl, rfl⟩ := ih
      exact ⟨⟨_, _, hpush⟩ :: pushes, rfl, rfl⟩
  exact ⟨⟨m, pushes, check, hnum⟩, by rw [Template.bytes, List.length_map]⟩

section Documented

variable {rs : RustScript} (hd : rs.Documented) {script : List UInt8}
include hd

/-- The script of a template passes its test. -/
theorem accepts_bytes (t : Template) : accepts rs t.bytes t.kind = true := by
  cases t with
  | publicKey key =>
    obtain ⟨key, hlen⟩ := key
    rw [Template.kind, accepts, hd.isP2pk, ScriptBytes.isP2pk, decide_eq_true_eq]
    refine hlen.imp (fun hlen => ⟨?_, ?_, ?_⟩) fun hlen => ⟨?_, ?_, ?_⟩
    all_goals simp [Template.bytes, hlen]
  | publicKeyHash hash =>
    rw [Template.kind, accepts, hd.isP2pkh, ScriptBytes.isP2pkh, decide_eq_true_eq]
    simp [Template.bytes]
  | scriptHash hash =>
    rw [Template.kind, accepts, hd.isP2sh, ScriptBytes.isP2sh, decide_eq_true_eq]
    simp [Template.bytes]
  | witness version program =>
    obtain ⟨program, hlo, hhi⟩ := program
    have hn : (UInt8.ofNat program.length).toNat = program.length := by
      rw [UInt8.toNat_ofNat', Nat.mod_eq_of_lt (by omega)]
    rw [Template.kind, accepts, hd.isWitnessProgram, Template.bytes, ScriptBytes.isWitnessProgram,
      decide_eq_true_eq, UInt8.le_iff_toNat_le, UInt8.le_iff_toNat_le, hn]
    exact ⟨isVersion_versionOp version, hlo, hhi, rfl⟩
  | data payload =>
    rw [Template.kind, accepts, hd.isOpReturn, ScriptBytes.isOpReturn, decide_eq_true_eq]
    rfl
  | multisig parts => exact (accepts_multisig_iff hd).mpr ⟨_, _, _, parts.multisigScript⟩

/-- Each test accepts the scripts of the templates of its kind, and no others. -/
theorem accepts_iff_template {p : ScriptType} (hp : p ∈ kinds) :
    accepts rs script p = true ↔ ∃ t : Template, t.kind = p ∧ t.bytes = script := by
  constructor
  · intro h
    cases p with
    | pay2PublicKey =>
      rw [accepts, hd.isP2pk, ScriptBytes.isP2pk, decide_eq_true_eq] at h
      obtain ⟨n, hn, hlen, h0, hlast⟩ : ∃ n, (n = 33 ∨ n = 65) ∧ script.length = n + 2 ∧
          script[0]? = some (UInt8.ofNat n) ∧ script[n + 1]? = some 0xac := by
        rcases h with ⟨hlen, h0, hlast⟩ | ⟨hlen, h0, hlast⟩
        · exact ⟨33, Or.inl rfl, hlen, h0, hlast⟩
        · exact ⟨65, Or.inr rfl, hlen, h0, hlast⟩
      obtain ⟨rest, rfl⟩ := exists_cons h0
      obtain ⟨key, rfl, rfl⟩ := exists_concat (Nat.succ.inj hlen) hlast
      exact ⟨.publicKey ⟨key, hn⟩, rfl, rfl⟩
    | pay2PublicKeyHash =>
      rw [accepts, hd.isP2pkh, ScriptBytes.isP2pkh, decide_eq_true_eq] at h
      obtain ⟨hlen, h0, h1, h2, h3, h4⟩ := h
      obtain ⟨rest, rfl⟩ := exists_cons h0
      obtain ⟨rest, rfl⟩ := exists_cons h1
      obtain ⟨rest, rfl⟩ := exists_cons h2
      obtain ⟨middle, hmiddle, rfl⟩ := exists_concat (n := 21) (by simpa using hlen) h4
      replace h3 : (middle ++ [0xac])[20]? = some 0x88 := h3
      rw [List.getElem?_append_left (by omega)] at h3
      obtain ⟨inner, hinner, rfl⟩ := exists_concat hmiddle h3
      obtain ⟨hash, rfl⟩ := exists_hash hinner
      exact ⟨.publicKeyHash hash, rfl, by simp [Template.bytes]⟩
    | pay2ScriptHash =>
      rw [accepts, hd.isP2sh, ScriptBytes.isP2sh, decide_eq_true_eq] at h
      obtain ⟨hlen, h0, h1, h2⟩ := h
      obtain ⟨rest, rfl⟩ := exists_cons h0
      obtain ⟨rest, rfl⟩ := exists_cons h1
      obtain ⟨inner, hinner, rfl⟩ := exists_concat (n := 20) (by simpa using hlen) h2
      obtain ⟨hash, rfl⟩ := exists_hash hinner
      exact ⟨.scriptHash hash, rfl, rfl⟩
    | witnessProgram =>
      rw [accepts, hd.isWitnessProgram] at h
      obtain _ | ⟨opcode, _ | ⟨push, program⟩⟩ := script
      · simp [ScriptBytes.isWitnessProgram] at h
      · simp [ScriptBytes.isWitnessProgram] at h
      · rw [ScriptBytes.isWitnessProgram, decide_eq_true_eq, UInt8.le_iff_toNat_le,
          UInt8.le_iff_toNat_le] at h
        obtain ⟨hversion, hlo, hhi, hlen⟩ := h
        obtain ⟨version, rfl⟩ := exists_version hversion
        refine ⟨.witness version ⟨program, by rw [hlen]; exact ⟨hlo, hhi⟩⟩, rfl, ?_⟩
        change versionOp version :: UInt8.ofNat program.length :: program = _
        rw [hlen, UInt8.ofNat_toNat]
    | opReturn =>
      rw [accepts, hd.isOpReturn, ScriptBytes.isOpReturn, decide_eq_true_eq] at h
      obtain ⟨payload, rfl⟩ := exists_cons h
      exact ⟨.data payload, rfl, rfl⟩
    | pay2MultiSig =>
      obtain ⟨m, keys, check, h⟩ := (accepts_multisig_iff hd).mp h
      obtain ⟨parts, hparts⟩ := exists_parts h
      exact ⟨.multisig parts, rfl, hparts⟩
    | pay2WitnessPublicKeyHash => exact absurd hp (by decide)
    | pay2WitnessScriptHash => exact absurd hp (by decide)
    | notRecognised => exact absurd hp (by decide)
  · rintro ⟨t, rfl, rfl⟩
    exact accepts_bytes hd t

end Documented

/-! ## Unique reading -/

theorem opN_inj {m n : Nat} (hm : m ≤ 16) (hn : n ≤ 16) (h : opN m = opN n) : m = n := by
  have := congrArg UInt8.toNat h
  rw [toNat_opN hm, toNat_opN hn] at this
  omega

/-- The bytes of a push are those of one datum only. -/
theorem Push.bytes_injective : Function.Injective Push.bytes := by
  rintro ⟨data, bytes, h⟩ ⟨data', bytes', h'⟩ hbytes
  obtain rfl : bytes = bytes' := hbytes
  have hread := ScriptBytes.inverts_pushBytes.mpr h []
  rw [ScriptBytes.inverts_pushBytes.mpr h' []] at hread
  obtain rfl := Instruction.pushBytes.inj (Prod.mk.inj (Option.some.inj hread)).1
  rfl

/-- The parts of a multi-signature script, as words. -/
theorem MultisigParts.words (parts : MultisigParts) :
    List.Forall₂ ScriptBytes.instruction.Inverts
      (multisigChunks parts.m (parts.pushes.map Push.data) parts.check)
      ([opN parts.m] ::
        (parts.pushes.map Push.bytes ++ [[opN parts.pushes.length], [parts.check]])) := by
  have h := parts.numbers
  have hm := push_lt_opN h.one_le h.le_sixteen
  have hn := push_lt_opN h.keys_pos h.keys_le
  refine .cons (ScriptBytes.inverts_op.mpr ⟨rfl, hm⟩) (List.rel_append ?_ ?_)
  · rw [List.map_map]
    exact List.forall₂_map_left_iff.mpr (List.forall₂_map_right_iff.mpr
      (List.forall₂_same.mpr fun push _ => ScriptBytes.inverts_pushBytes.mpr push.isPush))
  · refine .cons (ScriptBytes.inverts_op.mpr ⟨by rw [List.length_map], hn⟩) ?_
    exact .cons (ScriptBytes.inverts_op.mpr ⟨rfl, h.push_lt_check⟩) .nil

theorem MultisigParts.bytes_eq (parts : MultisigParts) :
    (Template.multisig parts).bytes = ([opN parts.m] ::
      (parts.pushes.map Push.bytes ++ [[opN parts.pushes.length], [parts.check]])).flatten := by
  simp [Template.bytes]

/-- A multi-signature script has its parts in one way only. -/
theorem MultisigParts.bytes_injective {parts parts' : MultisigParts}
    (h : (Template.multisig parts).bytes = (Template.multisig parts').bytes) : parts = parts' := by
  rw [parts.bytes_eq, parts'.bytes_eq] at h
  obtain ⟨-, hwords⟩ := ScriptBytes.advances_instruction.words_unique parts.words parts'.words h
  obtain ⟨hm, hrest⟩ := List.cons.inj hwords
  obtain ⟨hpushes, hend⟩ := List.append_inj' hrest rfl
  obtain ⟨m, pushes, check, hnum⟩ := parts
  obtain ⟨m', pushes', check', hnum'⟩ := parts'
  obtain rfl := List.map_injective_iff.mpr Push.bytes_injective hpushes
  obtain rfl := opN_inj hnum.le_sixteen hnum'.le_sixteen (List.cons.inj hm).1
  obtain rfl := (List.cons.inj (List.cons.inj (List.cons.inj hend).2).1).1
  rfl

/-- **Different templates have different scripts.** -/
theorem Template.bytes_injective : Function.Injective Template.bytes := by
  intro t t' h
  -- the kind is that of the only test that accepts the script
  have hd := RustScript.documented_ofBytes (fun _ => 0) (fun _ => none)
  have hkind : t.kind = t'.kind :=
    accepts_unique hd t.kind_mem t'.kind_mem (accepts_bytes hd t) (h ▸ accepts_bytes hd t')
  cases t with
  | publicKey key =>
    cases t' with
    | publicKey key' =>
      obtain ⟨-, h⟩ := List.cons.inj h
      rw [Subtype.ext (List.append_cancel_right h)]
    | _ => cases hkind
  | publicKeyHash hash =>
    cases t' with
    | publicKeyHash hash' =>
      rw [hashBytes_injective (List.append_cancel_right (List.append_cancel_left h))]
    | _ => cases hkind
  | scriptHash hash =>
    cases t' with
    | scriptHash hash' =>
      rw [hashBytes_injective (List.append_cancel_right (List.append_cancel_left h))]
    | _ => cases hkind
  | witness version program =>
    cases t' with
    | witness version' program' =>
      obtain ⟨hversion, h⟩ := List.cons.inj h
      rw [versionOp_injective _ _ hversion, Subtype.ext (List.cons.inj h).2]
    | _ => cases hkind
  | data payload =>
    cases t' with
    | data payload' => rw [(List.cons.inj h).2]
    | _ => cases hkind
  | multisig parts =>
    cases t' with
    | multisig parts' => rw [MultisigParts.bytes_injective h]
    | _ => cases hkind

/-! ## Evaluating the script of a template -/

/-- A witness program of version 0 and of a length. -/
theorem version0_bytes_iff (version : Fin 17) (program : Program) (push : UInt8) :
    (Template.witness version program).bytes.length = push.toNat + 2 ∧
        (Template.witness version program).bytes[0]? = some 0x00 ∧
        (Template.witness version program).bytes[1]? = some push ↔
      version = 0 ∧ program.1.length = push.toNat := by
  simp only [Template.bytes, List.length_cons, List.getElem?_cons_zero, List.getElem?_cons_succ,
    Option.some.injEq, versionOp_eq_zero_iff]
  constructor
  · rintro ⟨hlen, h0, -⟩
    exact ⟨h0, by omega⟩
  · rintro ⟨h0, hlen⟩
    exact ⟨by omega, h0, by rw [hlen, UInt8.ofNat_toNat]⟩

section Documented

variable {rs : RustScript} (hd : rs.Documented)
include hd

/-- No test but that of its kind accepts the script of a template. -/
theorem not_accepts_bytes (t : Template) {p : ScriptType} (hp : p ∈ kinds) (hne : p ≠ t.kind) :
    accepts rs t.bytes p ≠ true := fun h =>
  hne (accepts_unique hd hp t.kind_mem h (accepts_bytes hd t))

theorem isP2wpkh_bytes (version : Fin 17) (program : Program) :
    rs.isP2wpkh (Template.witness version program).bytes = true ↔
      version = 0 ∧ program.1.length = 20 := by
  rw [hd.isP2wpkh, ScriptBytes.isP2wpkh, decide_eq_true_eq]
  exact version0_bytes_iff version program 0x14

theorem isP2wsh_bytes (version : Fin 17) (program : Program) :
    rs.isP2wsh (Template.witness version program).bytes = true ↔
      version = 0 ∧ program.1.length = 32 := by
  rw [hd.isP2wsh, ScriptBytes.isP2wsh, decide_eq_true_eq]
  exact version0_bytes_iff version program 0x20

/-- The script of a template has its pattern. -/
theorem firstPattern_bytes (t : Template) : firstPattern rs t.bytes testOrder = t.pattern := by
  by_cases hkind : t.kind = .witnessProgram
  · cases t with
    | witness version program =>
      rw [Template.pattern]
      split_ifs with hpkh hsh
      · exact firstPattern_of_accepts hd (p := .pay2WitnessPublicKeyHash)
          ((isP2wpkh_bytes hd version program).mpr hpkh) (by decide)
      · exact firstPattern_of_accepts hd (p := .pay2WitnessScriptHash)
          ((isP2wsh_bytes hd version program).mpr hsh) (by decide)
      · -- neither specific test accepts it, so the general one decides
        have hwitness := accepts_bytes hd (.witness version program)
        obtain ⟨p, hp⟩ := (exists_decides hd (Template.witness version program).bytes).resolve_right
          fun hnone => hnone _ hwitness
        rw [hp.firstPattern specificFirst_testOrder]
        rcases hp.others _ hwitness with h | ⟨-, rfl | rfl⟩
        · exact h.symm
        · exact absurd ((isP2wpkh_bytes hd version program).mp hp.accepts) hpkh
        · exact absurd ((isP2wsh_bytes hd version program).mp hp.accepts) hsh
    | _ => cases hkind
  · have hpattern : t.pattern = t.kind := by
      cases t with
      | witness version program => exact absurd rfl hkind
      | _ => rfl
    rw [hpattern]
    exact firstPattern_of_accepts hd (accepts_bytes hd t) hkind

/-- A pay-to-public-key script is the push of the key and `OP_CHECKSIG`. -/
theorem instructions_publicKey (key : KeyBytes) :
    rs.instructions (Template.publicKey key).bytes =
      [some (.pushBytes key.1), some (.op 0xac)] := by
  have hlen : key.1.length ≤ 0x4b := by
    rcases key.2 with h | h <;> omega
  rw [hd.instructions]
  change _ = [Instruction.pushBytes key.1, .op 0xac].map some
  refine ScriptBytes.instructions_iff.mpr
    ⟨[UInt8.ofNat key.1.length :: key.1, [0xac]], ?_, by simp [Template.bytes]⟩
  exact .cons (ScriptBytes.inverts_pushBytes.mpr (.pushbytes hlen))
    (.cons (ScriptBytes.inverts_op.mpr ⟨rfl, by decide⟩) .nil)

end Documented

section Exact

variable {rs : RustScript} (hrs : rs.Exact) (net : Network)
include hrs

/-- `Address::from_script` on the script of a witness program. -/
theorem addressFromScript_witness (version : Fin 17) (program : Program) :
    rs.addressFromScript (Template.witness version program).bytes net =
      if version = 0 ∧ program.1.length ≠ 20 ∧ program.1.length ≠ 32 then none
      else some ⟨net, .segwit (UInt8.ofNat version) program.1⟩ := by
  have hd := hrs.toDocumented
  have haccepts : accepts rs (Template.witness version program).bytes .witnessProgram = true :=
    accepts_bytes hd (.witness version program)
  have hpkh := not_accepts_bytes hd (.witness version program) (p := .pay2PublicKeyHash)
    (by decide) fun h => by cases h
  have hsh := not_accepts_bytes hd (.witness version program) (p := .pay2ScriptHash)
    (by decide) fun h => by cases h
  have hsome : (rs.addressFromScript (Template.witness version program).bytes net).isSome = true ↔
      ¬ (version = 0 ∧ program.1.length ≠ 20 ∧ program.1.length ≠ 32) := by
    rw [addressFromScript_isSome_iff hd, or_iff_right hpkh, or_iff_right hsh,
      and_iff_right haccepts]
    simp only [accepts, isP2wpkh_bytes hd, isP2wsh_bytes hd]
    simp only [Template.bytes, List.getElem?_cons_zero, Option.some.injEq, versionOp_eq_zero_iff]
    tauto
  rw [hrs.address] at hsome ⊢
  rw [accepts, hd.isP2pkh] at hpkh
  rw [accepts, hd.isP2sh] at hsh
  rw [ScriptBytes.addressFromScript, if_neg hpkh, if_neg hsh] at hsome ⊢
  split_ifs at hsome ⊢ with haddress hnone hnone
  · exact absurd hnone (hsome.mp rfl)
  · rw [Template.bytes, List.headD_cons, version_versionOp]
    rfl
  · rfl
  · exact absurd (hsome.mpr hnone) (by decide)

/-- **The addresses listed for the script of a template are those it pays to.** -/
theorem patternAddresses_bytes (t : Template) :
    patternAddresses rs t.bytes net t.pattern = .ok (t.addresses rs net) := by
  have hd := hrs.toDocumented
  cases t with
  | publicKey key =>
    have hp2pk : rs.isP2pk (Template.publicKey key).bytes = true :=
      accepts_bytes hd (.publicKey key)
    change (do return (← p2pkToAddress rs (Template.publicKey key).bytes).toList) = _
    rw [p2pkToAddress, hp2pk, if_neg (by decide), instructions_publicKey hd key]
    rfl
  | publicKeyHash hash =>
    have hpkh : ScriptBytes.isP2pkh (Template.publicKeyHash hash).bytes = true := by
      rw [← hd.isP2pkh]
      exact accepts_bytes hd (.publicKeyHash hash)
    have hhash := hashAt_append [0x76, 0xa9, 0x14] hash [0x88, 0xac]
    change Outcome.ok (rs.addressFromScript (Template.publicKeyHash hash).bytes net).toList = _
    rw [hrs.address, ScriptBytes.addressFromScript, if_pos hpkh]
    exact congrArg (fun hash => Outcome.ok [Address.mk net (.p2pkh hash)]) hhash
  | scriptHash hash =>
    have hpkh : ¬ ScriptBytes.isP2pkh (Template.scriptHash hash).bytes = true := by
      rw [← hd.isP2pkh]
      exact not_accepts_bytes hd (.scriptHash hash) (p := .pay2PublicKeyHash) (by decide)
        fun h => by cases h
    have hsh : ScriptBytes.isP2sh (Template.scriptHash hash).bytes = true := by
      rw [← hd.isP2sh]
      exact accepts_bytes hd (.scriptHash hash)
    have hhash := hashAt_append [0xa9, 0x14] hash [0x87]
    change Outcome.ok (rs.addressFromScript (Template.scriptHash hash).bytes net).toList = _
    rw [hrs.address, ScriptBytes.addressFromScript, if_neg hpkh, if_pos hsh]
    exact congrArg (fun hash => Outcome.ok [Address.mk net (.p2sh hash)]) hhash
  | witness version program =>
    have hpattern : patternAddresses rs (Template.witness version program).bytes net
        (Template.witness version program).pattern =
        .ok (rs.addressFromScript (Template.witness version program).bytes net).toList := by
      rw [Template.pattern]
      split_ifs <;> rfl
    rw [hpattern, addressFromScript_witness hrs, Template.addresses]
    split_ifs <;> rfl
  | data payload =>
    have hnone : ∀ p ∈ kinds, p ≠ .opReturn →
        accepts rs (Template.data payload).bytes p ≠ true := fun p hp hne =>
      not_accepts_bytes hd (.data payload) hp hne
    change Outcome.ok (rs.addressFromScript (Template.data payload).bytes net).toList = _
    rw [addressFromScript_eq_none hd (hnone _ (by decide) (by decide))
      (hnone _ (by decide) (by decide)) (hnone _ (by decide) (by decide))]
    rfl
  | multisig parts => exact patternAddresses_multisig hd parts.multisigScript net

/-- **`evaluate_script` reads the templates back.** Different templates have different scripts, the
script of a template is evaluated to its pattern and the addresses it pays to, and every other
script is not recognised and has no address. -/
theorem evaluateScript_templates :
    Function.Injective Template.bytes ∧
      (∀ t : Template, evaluateScript rs t.bytes net = .ok ⟨t.addresses rs net, t.pattern⟩) ∧
      ∀ script, (∀ t : Template, t.bytes ≠ script) →
        evaluateScript rs script net = .ok ⟨[], .notRecognised⟩ := by
  have hd := hrs.toDocumented
  refine ⟨Template.bytes_injective, fun t => ?_, fun script hscript => ?_⟩
  · rw [evaluateScript_eq]
    dsimp only
    rw [firstPattern_bytes hd, patternAddresses_bytes hrs]
    rfl
  · have hkinds : ∀ p ∈ kinds, accepts rs script p ≠ true := by
      intro p hp h
      obtain ⟨t, -, ht⟩ := (accepts_iff_template hd hp).mp h
      exact hscript t ht
    have hpattern : firstPattern rs script testOrder = .notRecognised := by
      by_contra hne
      have haccepts := accepts_firstPattern hne
      rcases mem_kinds_or (firstPattern rs script testOrder) with hk | hpkh | hsh | hnot
      · exact hkinds _ hk haccepts
      · rw [hpkh] at haccepts
        exact hkinds .witnessProgram (by decide) (isWitnessProgram_of_isP2wpkh hd haccepts)
      · rw [hsh] at haccepts
        exact hkinds .witnessProgram (by decide) (isWitnessProgram_of_isP2wsh hd haccepts)
      · exact hne hnot
    rw [evaluateScript_eq]
    dsimp only
    rw [hpattern, patternAddresses, addressFromScript_eq_none hd (hkinds _ (by decide))
      (hkinds _ (by decide)) (hkinds _ (by decide))]
    · rfl
    all_goals simp

end Exact

/-- An output of version 1 that pays to the first key. -/
theorem evaluateScript_templates_firstKey :
    evaluateScript twoKeys (Template.witness 1 ⟨firstKey.tail, by decide⟩).bytes .testnet =
      .ok ⟨[⟨.testnet, .segwit 1 firstKey.tail⟩], .witnessProgram⟩ :=
  (evaluateScript_templates (RustScript.exact_ofBytes _ _) .testnet).2.1
    (.witness 1 ⟨firstKey.tail, by decide⟩)

end BitcoinExplorer
