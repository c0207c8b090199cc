import BitcoinExplorer.Parser.Instructions

/-!
# Multi-signature scripts, as bytes

`MultisigScript m keys check script` is the grammar of a multi-signature script: `OP_m`, one data
push for each key, `OP_n` for their number `n`, and `OP_CHECKMULTISIG` or `OP_CHECKMULTISIGVERIFY`.
On a crate whose `Script::instructions` is the documented one:

* `isMultisig_iff_grammar`: `is_multisig` accepts exactly the scripts of the grammar.
* `multisig_all_or_nothing`: what `evaluate_script` lists for such a script is the address of every
  pushed key, in order, or nothing when one of them does not parse.
-/

namespace BitcoinExplorer

open Rust
open ScriptBytes (IsPush)

/-- The grammar of a multi-signature script. -/
structure MultisigScript (m : Nat) (keys : List (List UInt8)) (check : UInt8)
    (script : List UInt8) : Prop where
  numbers : IsMultisigOf m keys check
  bytes : ∃ pushes, List.Forall₂ IsPush keys pushes ∧
    script = opN m :: (pushes.flatten ++ [opN keys.length, check])

theorem forall₂_append_left_iff {α β : Type} {R : α → β → Prop} {as bs : List α} {l : List β} :
    List.Forall₂ R (as ++ bs) l ↔
      ∃ u v, List.Forall₂ R as u ∧ List.Forall₂ R bs v ∧ l = u ++ v := by
  constructor
  · intro h
    exact ⟨_, _, (List.forall₂_take_append l as bs h.flip).flip,
      (List.forall₂_drop_append l as bs h.flip).flip, (List.take_append_drop as.length l).symm⟩
  · rintro ⟨u, v, hu, hv, rfl⟩
    exact List.rel_append hu hv

theorem push_lt_opN {n : Nat} (h1 : 1 ≤ n) (h2 : n ≤ 16) : 0x4e < opN n := by
  rw [UInt8.lt_iff_toNat_lt, toNat_opN h2]
  change 0x4e < 0x50 + n
  omega

theorem IsMultisigOf.push_lt_check {m : Nat} {keys : List (List UInt8)} {check : UInt8}
    (h : IsMultisigOf m keys check) : 0x4e < check := by
  rcases h.check_eq with rfl | rfl <;> decide

/-- The chunks of a multi-signature script are the parse of its bytes. -/
theorem instructions_multisig {m : Nat} {keys : List (List UInt8)} {check : UInt8}
    {script : List UInt8} (h : IsMultisigOf m keys check) :
    ScriptBytes.instructions script = (multisigChunks m keys check).map some ↔
      MultisigScript m keys check script := by
  have hm := push_lt_opN h.one_le h.le_sixteen
  have hn := push_lt_opN h.keys_pos h.keys_le
  rw [ScriptBytes.instructions_iff]
  constructor
  · rintro ⟨words, hwords, rfl⟩
    obtain ⟨first, rest, hfirst, hrest, rfl⟩ := List.forall₂_cons_left_iff.mp hwords
    obtain ⟨pushes, ending, hpushes, hending, rfl⟩ := forall₂_append_left_iff.mp hrest
    obtain ⟨second, tail, hsecond, htail, rfl⟩ := List.forall₂_cons_left_iff.mp hending
    obtain ⟨last, none, hlast, hnone, rfl⟩ := List.forall₂_cons_left_iff.mp htail
    obtain rfl := List.forall₂_nil_left_iff.mp hnone
    obtain ⟨rfl, -⟩ := ScriptBytes.inverts_op.mp hfirst
    obtain ⟨rfl, -⟩ := ScriptBytes.inverts_op.mp hsecond
    obtain ⟨rfl, -⟩ := ScriptBytes.inverts_op.mp hlast
    refine ⟨h, pushes, ?_, by simp⟩
    exact (List.forall₂_map_left_iff.mp hpushes).imp fun _ _ => ScriptBytes.inverts_pushBytes.mp
  · rintro ⟨-, pushes, hpushes, rfl⟩
    have hkeys : List.Forall₂ ScriptBytes.instruction.Inverts (keys.map Instruction.pushBytes)
        pushes :=
      List.forall₂_map_left_iff.mpr (hpushes.imp fun _ _ => ScriptBytes.inverts_pushBytes.mpr)
    refine ⟨[opN m] :: (pushes ++ [[opN keys.length], [check]]), ?_, by simp⟩
    refine .cons (ScriptBytes.inverts_op.mpr ⟨rfl, hm⟩) (List.rel_append hkeys ?_)
    exact .cons (ScriptBytes.inverts_op.mpr ⟨rfl, hn⟩)
      (.cons (ScriptBytes.inverts_op.mpr ⟨rfl, h.push_lt_check⟩) .nil)

/-- **What `is_multisig` accepts, on bytes.** -/
theorem isMultisig_eq_true {rs : RustScript} (hrs : rs.instructions = ScriptBytes.instructions)
    {script : List UInt8} :
    isMultisig rs script = .ok true ↔ ∃ m keys check, MultisigScript m keys check script := by
  rw [isMultisig_iff_chunks, hrs]
  constructor
  · rintro ⟨m, keys, check, h, hchunks⟩
    exact ⟨m, keys, check, (instructions_multisig h).mp hchunks⟩
  · rintro ⟨m, keys, check, h⟩
    exact ⟨m, keys, check, h.numbers, (instructions_multisig h.numbers).mpr h⟩

/-- **`is_multisig` accepts exactly its grammar**, and returns on every script. -/
theorem isMultisig_iff_grammar {rs : RustScript} (hrs : rs.instructions = ScriptBytes.instructions)
    (script : List UInt8) :
    (isMultisig rs script = .ok true ↔ ∃ m keys check, MultisigScript m keys check script) ∧
      (isMultisig rs script = .ok false ↔
        ¬ ∃ m keys check, MultisigScript m keys check script) := by
  refine ⟨isMultisig_eq_true hrs, ?_⟩
  rw [← isMultisig_eq_true hrs]
  obtain ⟨b, hb⟩ := isMultisig_total rs script
  rw [hb]
  cases b <;> simp

/-- The public key of the secret key 1. -/
def firstKey : List UInt8 :=
  [0x02, 0x79, 0xbe, 0x66, 0x7e, 0xf9, 0xdc, 0xbb, 0xac, 0x55, 0xa0, 0x62, 0x95, 0xce, 0x87, 0x0b,
    0x07, 0x02, 0x9b, 0xfc, 0xdb, 0x2d, 0xce, 0x28, 0xd9, 0x59, 0xf2, 0x81, 0x5b, 0x16, 0xf8, 0x17,
    0x98]

/-- The public key of the secret key 2. -/
def secondKey : List UInt8 :=
  [0x02, 0xc6, 0x04, 0x7f, 0x94, 0x41, 0xed, 0x7d, 0x6d, 0x30, 0x45, 0x40, 0x6e, 0x95, 0xc0, 0x7c,
    0xd8, 0x5c, 0x77, 0x8e, 0x4b, 0x8c, 0xef, 0x3c, 0xa7, 0xab, 0xac, 0x09, 0xb9, 0x5c, 0x70, 0x9e,
    0xe5]

/-- The hashes of the two keys. -/
def keyHash (key : List UInt8) : Option (BitVec 160) :=
  if key = firstKey then some 0x751e76e8199196d454941c45d1b3a323f1433bd6#160
  else if key = secondKey then some 0x06afd46bcdfd22ef94ac122aa11f241244a37ecc#160
  else none

/-- The crate, where only the two keys parse. -/
def twoKeys : RustScript := .ofBytes (fun key => (keyHash key).getD 0) keyHash

/-- One of the two keys. -/
def oneOfTwo : List UInt8 :=
  [0x51, 0x21] ++ firstKey ++ [0x21] ++ secondKey ++ [0x52, 0xae]

theorem isMultisig_iff_grammar_oneOfTwo : isMultisig twoKeys oneOfTwo = .ok true ∧
    ∃ m keys check, MultisigScript m keys check oneOfTwo :=
  have hrun : isMultisig twoKeys oneOfTwo = .ok true := by decide +kernel
  ⟨hrun, (isMultisig_iff_grammar rfl oneOfTwo).1.mp hrun⟩

/-! ## The addresses of a multi-signature script -/

theorem keyAddresses_eq_some {rs : RustScript} {keys : List (List UInt8)}
    {addresses : List Address} :
    keyAddresses rs keys = some addresses ↔
      ∃ hashes, List.Forall₂ (fun key hash => rs.publicKeyHash key = some hash) keys hashes ∧
        addresses = hashes.map (Address.p2pkh · .bitcoin) := by
  induction keys generalizing addresses with
  | nil => simp [keyAddresses, eq_comm]
  | cons key keys ih =>
    rw [keyAddresses, List.mapM_cons, ← keyAddresses]
    cases hkey : rs.publicKeyHash key with
    | none =>
      simp only [Option.map_none, List.forall₂_cons_left_iff, hkey]
      simp
    | some hash =>
      constructor
      · intro h
        obtain ⟨rest, hrest, hout⟩ :=
          Option.bind_eq_some_iff.mp ((Option.bind_some ..).symm.trans h)
        obtain ⟨hashes, hall, rfl⟩ := ih.mp hrest
        exact ⟨hash :: hashes, .cons hkey hall, (Option.some.inj hout).symm⟩
      · rintro ⟨hashes, hall, rfl⟩
        obtain ⟨hash', rest, hkey', hall', rfl⟩ := List.forall₂_cons_left_iff.mp hall
        obtain rfl := Option.some.inj (hkey.symm.trans hkey')
        rw [ih.mpr ⟨rest, hall', rfl⟩]
        rfl

theorem keyAddresses_eq_none {rs : RustScript} {keys : List (List UInt8)} :
    keyAddresses rs keys = none ↔ ∃ key ∈ keys, rs.publicKeyHash key = none := by
  induction keys with
  | nil => simp [keyAddresses]
  | cons key keys ih =>
    rw [keyAddresses, List.mapM_cons, ← keyAddresses]
    cases hkey : rs.publicKeyHash key with
    | none => simp [hkey]
    | some hash =>
      simp only [List.exists_mem_cons_iff, hkey, reduceCtorEq, false_or, ← ih]
      cases keyAddresses rs keys <;> simp

/-- What `evaluate_script` computes for a script it reports as multi-signature. -/
theorem evaluateScript_multisig {rs : RustScript} {script : List UInt8} {net : Network}
    {info : ScriptInfo} (h : evaluateScript rs script net = .ok info)
    (hp : info.pattern = .pay2MultiSig) :
    isMultisig rs script = .ok true ∧ multisigAddresses rs script = .ok info.addresses := by
  obtain ⟨hpattern, haddresses⟩ := evaluateScript_eq_ok h
  have haccepts : accepts rs script (firstPattern rs script testOrder) = true :=
    accepts_firstPattern (by rw [← hpattern, hp]; decide)
  rw [← hpattern, hp] at haccepts
  rw [hp] at haddresses
  exact ⟨of_decide_eq_true haccepts, haddresses⟩

/-- **All or nothing, in order.** For a script reported as multi-signature, the addresses are those
of the pushed keys, in order, or none when a key does not parse. -/
theorem multisig_all_or_nothing {rs : RustScript}
    (hrs : rs.instructions = ScriptBytes.instructions) {script : List UInt8} {net : Network}
    {info : ScriptInfo} (h : evaluateScript rs script net = .ok info)
    (hp : info.pattern = .pay2MultiSig) :
    (∃ m keys check, MultisigScript m keys check script) ∧
      ∀ m keys check, MultisigScript m keys check script →
        (∃ hashes, List.Forall₂ (fun key hash => rs.publicKeyHash key = some hash) keys hashes ∧
            info.addresses = hashes.map (Address.p2pkh · .bitcoin)) ∨
          (∃ key ∈ keys, rs.publicKeyHash key = none) ∧ info.addresses = [] := by
  obtain ⟨hmulti, haddresses⟩ := evaluateScript_multisig h hp
  refine ⟨(isMultisig_eq_true hrs).mp hmulti, fun m keys check hscript => ?_⟩
  rw [multisigAddresses_eq hscript.numbers (by
    rw [hrs]
    exact (instructions_multisig hscript.numbers).mpr hscript)] at haddresses
  have hout : info.addresses = (keyAddresses rs keys).getD [] := (Outcome.ok.inj haddresses).symm
  cases hk : keyAddresses rs keys with
  | none => exact Or.inr ⟨keyAddresses_eq_none.mp hk, by rw [hout, hk, Option.getD_none]⟩
  | some addresses =>
    obtain ⟨hashes, hall, rfl⟩ := keyAddresses_eq_some.mp hk
    exact Or.inl ⟨hashes, hall, by rw [hout, hk, Option.getD_some]⟩

theorem multisigScript_oneOfTwo :
    MultisigScript 1 [firstKey, secondKey] opCheckmultisig oneOfTwo where
  numbers := ⟨by decide, by decide, by decide, by decide, Or.inl rfl⟩
  bytes := ⟨[0x21 :: firstKey, 0x21 :: secondKey],
    .cons (.pushbytes (by decide)) (.cons (.pushbytes (by decide)) .nil), rfl⟩

theorem multisig_all_or_nothing_oneOfTwo :
    (∃ hashes, List.Forall₂ (fun key hash => twoKeys.publicKeyHash key = some hash)
        [firstKey, secondKey] hashes ∧
      [Address.p2pkh 0x751e76e8199196d454941c45d1b3a323f1433bd6#160 .bitcoin,
        .p2pkh 0x06afd46bcdfd22ef94ac122aa11f241244a37ecc#160 .bitcoin] =
        hashes.map (Address.p2pkh · .bitcoin)) ∨
    (∃ key ∈ [firstKey, secondKey], twoKeys.publicKeyHash key = none) ∧
      [Address.p2pkh 0x751e76e8199196d454941c45d1b3a323f1433bd6#160 .bitcoin,
        .p2pkh 0x06afd46bcdfd22ef94ac122aa11f241244a37ecc#160 .bitcoin] = [] :=
  have hrun : evaluateScript twoKeys oneOfTwo .bitcoin =
      .ok ⟨[.p2pkh 0x751e76e8199196d454941c45d1b3a323f1433bd6#160 .bitcoin,
        .p2pkh 0x06afd46bcdfd22ef94ac122aa11f241244a37ecc#160 .bitcoin], .pay2MultiSig⟩ := by
    decide +kernel
  (multisig_all_or_nothing rfl hrun rfl).2 _ _ _ multisigScript_oneOfTwo

end BitcoinExplorer
