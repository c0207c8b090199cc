import BitcoinExplorer.Parser.Multisig

/-!
# The kinds of scripts

On a crate that behaves as documented, the tests of `evaluate_script` exclude each other: the first
byte of a script leaves one of them, or a witness program and a multi-signature script, which the
length of the first push tells apart (`accepts_unique`). So the pattern does not depend on the order
of the tests as long as the two specific witness tests come before the general one, and the pattern
fixes how many addresses there are (`classification_unambiguous`).

The addresses carry the network that `evaluate_script` was called with, except on the two paths that
build them from a public key (`network_honoured_iff`).
-/

namespace BitcoinExplorer

open Rust

/-- The patterns whose tests exclude each other. -/
def kinds : List ScriptType :=
  [.pay2PublicKey, .pay2PublicKeyHash, .pay2ScriptHash, .witnessProgram, .opReturn, .pay2MultiSig]

/-- The patterns left by the first byte of a script. -/
def candidates (b : UInt8) : List ScriptType :=
  if b = 0x21 ∨ b = 0x41 then [.pay2PublicKey]
  else if b = 0x76 then [.pay2PublicKeyHash]
  else if b = 0xa9 then [.pay2ScriptHash]
  else if b = 0x6a then [.opReturn]
  else if b = 0x00 then [.pay2WitnessPublicKeyHash, .pay2WitnessScriptHash, .witnessProgram]
  else if 0x51 ≤ b ∧ b ≤ 0x60 then [.witnessProgram, .pay2MultiSig]
  else []

theorem candidates_number {b : UInt8} (h1 : 0x51 ≤ b) (h2 : b ≤ 0x60) :
    candidates b = [.witnessProgram, .pay2MultiSig] := by
  have hne : ∀ c : UInt8, c < 0x51 ∨ 0x60 < c → b ≠ c := by
    rintro c hc rfl
    rcases hc with hc | hc
    · exact absurd h1 (UInt8.not_le.mpr hc)
    · exact absurd h2 (UInt8.not_le.mpr hc)
  rw [candidates, if_neg (not_or.mpr ⟨hne _ (by decide), hne _ (by decide)⟩),
    if_neg (hne _ (by decide)), if_neg (hne _ (by decide)), if_neg (hne _ (by decide)),
    if_neg (hne _ (by decide)), if_pos ⟨h1, h2⟩]

/-- Two patterns that the same first byte leaves. -/
theorem candidates_kinds {b : UInt8} {p q : ScriptType} (hp : p ∈ kinds) (hq : q ∈ kinds)
    (hpb : p ∈ candidates b) (hqb : q ∈ candidates b) :
    p = q ∨ p = .witnessProgram ∧ q = .pay2MultiSig ∨ p = .pay2MultiSig ∧ q = .witnessProgram := by
  -- Version 0 also leaves the two specific witness tests, which are not among the kinds.
  have hkinds : ∀ l ∈ [[ScriptType.pay2PublicKey], [.pay2PublicKeyHash], [.pay2ScriptHash],
        [.opReturn], [.pay2WitnessPublicKeyHash, .pay2WitnessScriptHash, .witnessProgram],
        [.witnessProgram, .pay2MultiSig], []],
      ∀ p ∈ l, p ∈ kinds → ∀ q ∈ l, q ∈ kinds → p = q ∨ p = .witnessProgram ∧ q = .pay2MultiSig ∨
        p = .pay2MultiSig ∧ q = .witnessProgram := by
    decide
  refine hkinds (candidates b) ?_ p hpb hp q hqb hq
  unfold candidates
  split_ifs <;> simp

/-- A version, a push and a program of that length. -/
theorem isWitnessProgram_of_version0 {push : UInt8} {script : List UInt8}
    (hlen : script.length = push.toNat + 2) (h0 : script[0]? = some 0x00)
    (h1 : script[1]? = some push) (hpush : 0x02 ≤ push ∧ push ≤ 0x28) :
    ScriptBytes.isWitnessProgram script = true := by
  match script with
  | [] => cases h0
  | [_] => cases h1
  | version :: push' :: program =>
    obtain rfl := Option.some.inj h0
    obtain rfl := Option.some.inj h1
    have hprogram : program.length = push'.toNat := by
      simpa using hlen
    simp [ScriptBytes.isWitnessProgram, ScriptBytes.isVersion, hprogram, hpush]

theorem exists_cons {script : List UInt8} {b : UInt8} (h : script[0]? = some b) :
    ∃ rest, script = b :: rest := by
  cases script with
  | nil => cases h
  | cons c rest => exact ⟨rest, congrArg (· :: rest) (Option.some.inj h)⟩

section Documented

variable {rs : RustScript} (hd : rs.Documented) {script : List UInt8}
include hd

theorem accepts_multisig_iff : accepts rs script .pay2MultiSig = true ↔
    ∃ m keys check, MultisigScript m keys check script := by
  rw [accepts, decide_eq_true_eq, isMultisig_eq_true hd.instructions]

theorem isWitnessProgram_of_isP2wpkh (h : rs.isP2wpkh script = true) :
    rs.isWitnessProgram script = true := by
  rw [hd.isP2wpkh, ScriptBytes.isP2wpkh, decide_eq_true_eq] at h
  obtain ⟨hlen, h0, h1⟩ := h
  rw [hd.isWitnessProgram]
  exact isWitnessProgram_of_version0 (by exact hlen) h0 h1 (by decide)

theorem isWitnessProgram_of_isP2wsh (h : rs.isP2wsh script = true) :
    rs.isWitnessProgram script = true := by
  rw [hd.isP2wsh, ScriptBytes.isP2wsh, decide_eq_true_eq] at h
  obtain ⟨hlen, h0, h1⟩ := h
  rw [hd.isWitnessProgram]
  exact isWitnessProgram_of_version0 (by exact hlen) h0 h1 (by decide)

theorem not_isP2wpkh_and_isP2wsh : ¬ (rs.isP2wpkh script = true ∧ rs.isP2wsh script = true) := by
  rw [hd.isP2wpkh, hd.isP2wsh]
  simp only [ScriptBytes.isP2wpkh, ScriptBytes.isP2wsh, decide_eq_true_eq]
  rintro ⟨⟨hlen, -⟩, hlen', -⟩
  omega

/-- A test that accepts is one of those the first byte leaves. -/
theorem mem_candidates {p : ScriptType} (hp : p ∈ kinds) (h : accepts rs script p = true) :
    ∃ b rest, script = b :: rest ∧ p ∈ candidates b := by
  cases p with
  | opReturn =>
    rw [accepts, hd.isOpReturn, ScriptBytes.isOpReturn, decide_eq_true_eq] at h
    obtain ⟨rest, rfl⟩ := exists_cons h
    exact ⟨_, rest, rfl, by simp [candidates]⟩
  | pay2MultiSig =>
    obtain ⟨m, keys, check, hnum, pushes, -, rfl⟩ := (accepts_multisig_iff hd).mp h
    refine ⟨_, _, rfl, ?_⟩
    have hm := toNat_opN hnum.le_sixteen
    have hone := hnum.one_le
    rw [candidates_number (UInt8.le_iff_toNat_le.mpr (by rw [hm]; change 0x51 ≤ _; omega))
      (UInt8.le_iff_toNat_le.mpr (by rw [hm]; change _ ≤ 0x60; have := hnum.le_sixteen; omega))]
    decide
  | pay2PublicKey =>
    rw [accepts, hd.isP2pk, ScriptBytes.isP2pk, decide_eq_true_eq] at h
    rcases h with ⟨-, h0, -⟩ | ⟨-, h0, -⟩
    · obtain ⟨rest, rfl⟩ := exists_cons h0
      exact ⟨_, rest, rfl, by simp [candidates]⟩
    · obtain ⟨rest, rfl⟩ := exists_cons h0
      exact ⟨_, rest, rfl, by simp [candidates]⟩
  | pay2PublicKeyHash =>
    rw [accepts, hd.isP2pkh, ScriptBytes.isP2pkh, decide_eq_true_eq] at h
    obtain ⟨rest, rfl⟩ := exists_cons h.2.1
    exact ⟨_, rest, rfl, by simp [candidates]⟩
  | pay2ScriptHash =>
    rw [accepts, hd.isP2sh, ScriptBytes.isP2sh, decide_eq_true_eq] at h
    obtain ⟨rest, rfl⟩ := exists_cons h.2.1
    exact ⟨_, rest, rfl, by simp [candidates]⟩
  | pay2WitnessPublicKeyHash => simp [kinds] at hp
  | pay2WitnessScriptHash => simp [kinds] at hp
  | witnessProgram =>
    rw [accepts, hd.isWitnessProgram] at h
    rcases script with _ | ⟨version, _ | ⟨push, program⟩⟩
    · cases h
    · cases h
    · rw [ScriptBytes.isWitnessProgram, decide_eq_true_eq] at h
      have hv := h.1
      rw [ScriptBytes.isVersion, decide_eq_true_eq] at hv
      refine ⟨_, _, rfl, ?_⟩
      rcases hv with rfl | ⟨h1, h2⟩
      · simp [candidates]
      · simp [candidates_number h1 h2]
  | notRecognised => simp [kinds] at hp

/-- The first push of a multi-signature script leaves at least two bytes after it. -/
theorem not_witnessProgram_of_multisig (hw : rs.isWitnessProgram script = true) {m : Nat}
    {keys : List (List UInt8)} {check : UInt8} : ¬ MultisigScript m keys check script := by
  rintro ⟨hnum, pushes, hpushes, rfl⟩
  rw [hd.isWitnessProgram] at hw
  cases hpushes with
  | nil => exact absurd hnum.keys_pos (by decide)
  | @cons data word keys pushes hword hrest =>
    have hpush : ∀ push program, ScriptBytes.isWitnessProgram (opN m :: push :: program) = true →
        push ≤ 0x28 ∧ program.length = push.toNat := by
      intro push program h
      rw [ScriptBytes.isWitnessProgram, decide_eq_true_eq] at h
      exact ⟨h.2.2.1, h.2.2.2⟩
    cases hword with
    | pushbytes h =>
      obtain ⟨-, hlen⟩ := hpush _ _ hw
      rw [UInt8.toNat_ofNat', Nat.mod_eq_of_lt (by omega)] at hlen
      simp only [List.length_append, List.length_cons, List.append_eq] at hlen
      omega
    | pushdata1 h => exact absurd (hpush _ _ hw).1 (by decide)
    | pushdata2 h => exact absurd (hpush _ _ hw).1 (by decide)
    | pushdata4 h => exact absurd (hpush _ _ hw).1 (by decide)

/-- **The tests exclude each other.** -/
theorem accepts_unique {p q : ScriptType} (hp : p ∈ kinds) (hq : q ∈ kinds)
    (hpa : accepts rs script p = true) (hqa : accepts rs script q = true) : p = q := by
  obtain ⟨b, rest, rfl, hpb⟩ := mem_candidates hd hp hpa
  obtain ⟨b', rest', hscript, hqb⟩ := mem_candidates hd hq hqa
  obtain ⟨rfl, rfl⟩ := List.cons.inj hscript
  rcases candidates_kinds hp hq hpb hqb with h | ⟨rfl, rfl⟩ | ⟨rfl, rfl⟩
  · exact h
  · obtain ⟨m, keys, check, h⟩ := (accepts_multisig_iff hd).mp hqa
    exact absurd h (not_witnessProgram_of_multisig hd hpa)
  · obtain ⟨m, keys, check, h⟩ := (accepts_multisig_iff hd).mp hpa
    exact absurd h (not_witnessProgram_of_multisig hd hqa)

end Documented

/-! ## The order of the tests -/

/-- The first element that is accepted, when every other accepted one comes later. -/
theorem find?_eq_some_of_first {α : Type} [DecidableEq α] {accept : α → Bool}
    {order : List α} {p : α} (hmem : p ∈ order) (hp : accept p = true)
    (hlater : ∀ q ∈ order, accept q = true → q = p ∨ order.idxOf p < order.idxOf q) :
    order.find? accept = some p := by
  obtain ⟨before, after, rfl, hbefore⟩ := List.eq_append_cons_of_mem hmem
  refine List.find?_eq_some_iff_append.mpr ⟨hp, before, after, rfl, fun q hq => ?_⟩
  have hidx : (before ++ p :: after).idxOf p = before.length := by
    rw [List.idxOf_append_of_notMem hbefore, List.idxOf_cons_self, Nat.add_zero]
  have hidxq : (before ++ p :: after).idxOf q < before.length := by
    rw [List.idxOf_append_of_mem hq]
    exact List.idxOf_lt_length_of_mem hq
  cases hacc : accept q with
  | false => rfl
  | true =>
    rcases hlater q (List.mem_append_left _ hq) hacc with rfl | hlt
    · exact absurd hq hbefore
    · omega

/-- An order of the tests that keeps the two specific witness tests before the general one. -/
structure SpecificFirst (order : List ScriptType) : Prop where
  perm : order.Perm testOrder
  p2wpkh : order.idxOf .pay2WitnessPublicKeyHash < order.idxOf .witnessProgram
  p2wsh : order.idxOf .pay2WitnessScriptHash < order.idxOf .witnessProgram

theorem specificFirst_testOrder : SpecificFirst testOrder := ⟨.refl _, by decide, by decide⟩

/-- The pattern that decides a script: its test accepts, and no other does but the general witness
test behind a specific one. -/
structure Decides (rs : RustScript) (script : List UInt8) (p : ScriptType) : Prop where
  accepts : accepts rs script p = true
  others : ∀ q, BitcoinExplorer.accepts rs script q = true → q = p ∨ q = .witnessProgram ∧
    (p = .pay2WitnessPublicKeyHash ∨ p = .pay2WitnessScriptHash)

theorem mem_testOrder {p : ScriptType} (h : p ≠ .notRecognised) : p ∈ testOrder := by
  revert h
  cases p <;> decide

theorem Decides.firstPattern {rs : RustScript} {script : List UInt8} {p : ScriptType}
    (h : Decides rs script p) {order : List ScriptType} (ho : SpecificFirst order) :
    firstPattern rs script order = p := by
  have hmem : p ∈ order := by
    refine ho.perm.mem_iff.mpr (mem_testOrder ?_)
    rintro rfl
    exact absurd h.accepts (by simp [BitcoinExplorer.accepts])
  rw [BitcoinExplorer.firstPattern, find?_eq_some_of_first hmem h.accepts, Option.getD_some]
  rintro q - hq
  rcases h.others q hq with rfl | ⟨rfl, rfl | rfl⟩
  · exact Or.inl rfl
  · exact Or.inr ho.p2wpkh
  · exact Or.inr ho.p2wsh

theorem mem_kinds_or (p : ScriptType) : p ∈ kinds ∨ p = .pay2WitnessPublicKeyHash ∨
    p = .pay2WitnessScriptHash ∨ p = .notRecognised := by
  cases p <;> decide

section Documented

variable {rs : RustScript} (hd : rs.Documented) {script : List UInt8}
include hd

/-- A specific witness test decides a script it accepts. -/
theorem decides_of_specific {p other : ScriptType} (hp : accepts rs script p = true)
    (hspecific : p = .pay2WitnessPublicKeyHash ∧ other = .pay2WitnessScriptHash ∨
      p = .pay2WitnessScriptHash ∧ other = .pay2WitnessPublicKeyHash)
    (hwitness : rs.isWitnessProgram script = true) (hother : accepts rs script other ≠ true) :
    Decides rs script p := by
  refine ⟨hp, fun q hq => ?_⟩
  rcases mem_kinds_or q with hk | rfl | rfl | rfl
  · refine Or.inr ⟨?_, hspecific.imp And.left And.left⟩
    exact accepts_unique hd hk (q := .witnessProgram) (by decide) hq hwitness
  · rcases hspecific with ⟨rfl, rfl⟩ | ⟨rfl, rfl⟩
    · exact Or.inl rfl
    · exact absurd hq hother
  · rcases hspecific with ⟨rfl, rfl⟩ | ⟨rfl, rfl⟩
    · exact absurd hq hother
    · exact Or.inl rfl
  · cases hq

/-- One pattern decides a script, or no test accepts it. -/
theorem exists_decides (script : List UInt8) :
    (∃ p, Decides rs script p) ∨ ∀ q, accepts rs script q ≠ true := by
  by_cases hpkh : accepts rs script .pay2WitnessPublicKeyHash = true
  · exact Or.inl ⟨_, decides_of_specific hd hpkh (Or.inl ⟨rfl, rfl⟩)
      (isWitnessProgram_of_isP2wpkh hd hpkh) fun hsh => not_isP2wpkh_and_isP2wsh hd ⟨hpkh, hsh⟩⟩
  by_cases hsh : accepts rs script .pay2WitnessScriptHash = true
  · exact Or.inl ⟨_, decides_of_specific hd hsh (Or.inr ⟨rfl, rfl⟩)
      (isWitnessProgram_of_isP2wsh hd hsh) hpkh⟩
  have hkinds : ∀ q, accepts rs script q = true → q ∈ kinds := by
    intro q hq
    rcases mem_kinds_or q with hk | rfl | rfl | rfl
    · exact hk
    · exact absurd hq hpkh
    · exact absurd hq hsh
    · cases hq
  by_cases hany : ∃ p, accepts rs script p = true
  · obtain ⟨p, hp⟩ := hany
    exact Or.inl ⟨p, hp, fun q hq => Or.inl (accepts_unique hd (hkinds q hq) (hkinds p hp) hq hp)⟩
  · exact Or.inr fun q hq => hany ⟨q, hq⟩

/-- The pattern does not depend on the order of the tests. -/
theorem firstPattern_insensitive {order order' : List ScriptType} (ho : SpecificFirst order)
    (ho' : SpecificFirst order') :
    firstPattern rs script order = firstPattern rs script order' := by
  rcases exists_decides hd script with ⟨p, hp⟩ | hnone
  · rw [hp.firstPattern ho, hp.firstPattern ho']
  · have hnotFound : ∀ l : List ScriptType, firstPattern rs script l = .notRecognised := by
      intro l
      rw [firstPattern, List.find?_eq_none.mpr fun q _ => hnone q, Option.getD_none]
    rw [hnotFound, hnotFound]

/-- A script that some test accepts has the pattern of that test, unless it is the general one. -/
theorem firstPattern_of_accepts {p : ScriptType} (hp : accepts rs script p = true)
    (hne : p ≠ .witnessProgram) : firstPattern rs script testOrder = p := by
  rcases exists_decides hd script with ⟨q, hq⟩ | hnone
  · rcases hq.others p hp with rfl | ⟨rfl, -⟩
    · exact hq.firstPattern specificFirst_testOrder
    · exact absurd rfl hne
  · exact absurd hp (hnone p)

end Documented

/-! ## How many addresses a pattern has -/

/-- The number of addresses that a pattern fixes. -/
def AddressCount : ScriptType → Nat → Prop
  | .pay2PublicKey | .pay2PublicKeyHash | .pay2ScriptHash | .pay2WitnessPublicKeyHash
  | .pay2WitnessScriptHash => fun n => n = 1
  | .witnessProgram => fun n => n ≤ 1
  | .opReturn | .notRecognised => fun n => n = 0
  | .pay2MultiSig => fun _ => True

section Documented

variable {rs : RustScript} (hd : rs.Documented) {script : List UInt8}
include hd

/-- The patterns `Address::from_script` finds an address for. -/
theorem addressFromScript_isSome_iff (net : Network) :
    (rs.addressFromScript script net).isSome = true ↔
      accepts rs script .pay2PublicKeyHash = true ∨ accepts rs script .pay2ScriptHash = true ∨
        accepts rs script .witnessProgram = true ∧ (script[0]? = some 0x00 →
          accepts rs script .pay2WitnessPublicKeyHash = true ∨
            accepts rs script .pay2WitnessScriptHash = true) := by
  rw [hd.addressFromScript, ScriptBytes.hasAddress, decide_eq_true_eq]
  simp only [accepts, hd.isP2pkh, hd.isP2sh, hd.isWitnessProgram, hd.isP2wpkh, hd.isP2wsh]

theorem addressFromScript_eq_none {net : Network} (h1 : accepts rs script .pay2PublicKeyHash ≠ true)
    (h2 : accepts rs script .pay2ScriptHash ≠ true)
    (h3 : accepts rs script .witnessProgram ≠ true) :
    rs.addressFromScript script net = none := by
  rw [← Option.not_isSome_iff_eq_none, addressFromScript_isSome_iff hd]
  rintro (h | h | h)
  · exact h1 h
  · exact h2 h
  · exact h3 h.1

/-- No test accepts a script that is not recognised. -/
theorem not_accepts (h : firstPattern rs script testOrder = .notRecognised) (q : ScriptType) :
    accepts rs script q ≠ true := by
  rcases exists_decides hd script with ⟨p, hp⟩ | hnone
  · rw [hp.firstPattern specificFirst_testOrder] at h
    subst h
    exact absurd hp.accepts Bool.false_ne_true
  · exact hnone q

/-- The pattern of a script fixes how many addresses it has. -/
theorem addressCount_of_ok {net : Network} {addresses : List Address}
    (h : patternAddresses rs script net (firstPattern rs script testOrder) = .ok addresses) :
    AddressCount (firstPattern rs script testOrder) addresses.length := by
  have haccepts : firstPattern rs script testOrder ≠ .notRecognised →
      accepts rs script (firstPattern rs script testOrder) = true := accepts_firstPattern
  have hnone : firstPattern rs script testOrder = .notRecognised →
      ∀ q, accepts rs script q ≠ true :=
    not_accepts hd
  have hone : (rs.addressFromScript script net).isSome = true →
      (rs.addressFromScript script net).toList.length = 1 := by
    intro hsome
    obtain ⟨address, ha⟩ := Option.isSome_iff_exists.mp hsome
    rw [ha, Option.toList_some, List.length_singleton]
  have hzero : accepts rs script .pay2PublicKeyHash ≠ true →
      accepts rs script .pay2ScriptHash ≠ true →
      accepts rs script .witnessProgram ≠ true →
      (rs.addressFromScript script net).toList.length = 0 := by
    intro h1 h2 h3
    rw [addressFromScript_eq_none hd h1 h2 h3, Option.toList_none, List.length_nil]
  generalize firstPattern rs script testOrder = p at h haccepts hnone
  cases p with
  | opReturn =>
    obtain rfl := Outcome.ok.inj h
    have hp := haccepts (by simp)
    have hother : ∀ q ∈ kinds, q ≠ .opReturn → accepts rs script q ≠ true := fun q hk hne hq =>
      hne (accepts_unique hd hk (by decide) hq hp)
    exact hzero (hother _ (by decide) (by decide)) (hother _ (by decide) (by decide))
      (hother _ (by decide) (by decide))
  | pay2MultiSig => trivial
  | pay2PublicKey =>
    obtain ⟨hash, ha⟩ := p2pkToAddress_total (haccepts (by simp))
    rw [patternAddresses, ha] at h
    obtain rfl := Outcome.ok.inj h
    rfl
  | pay2PublicKeyHash =>
    obtain rfl := Outcome.ok.inj h
    exact hone ((addressFromScript_isSome_iff hd net).mpr (Or.inl (haccepts (by simp))))
  | pay2ScriptHash =>
    obtain rfl := Outcome.ok.inj h
    exact hone ((addressFromScript_isSome_iff hd net).mpr (Or.inr (Or.inl (haccepts (by simp)))))
  | pay2WitnessPublicKeyHash =>
    obtain rfl := Outcome.ok.inj h
    have hp := haccepts (by simp)
    exact hone ((addressFromScript_isSome_iff hd net).mpr
      (Or.inr (Or.inr ⟨isWitnessProgram_of_isP2wpkh hd hp, fun _ => Or.inl hp⟩)))
  | pay2WitnessScriptHash =>
    obtain rfl := Outcome.ok.inj h
    have hp := haccepts (by simp)
    exact hone ((addressFromScript_isSome_iff hd net).mpr
      (Or.inr (Or.inr ⟨isWitnessProgram_of_isP2wsh hd hp, fun _ => Or.inr hp⟩)))
  | witnessProgram =>
    obtain rfl := Outcome.ok.inj h
    change _ ≤ 1
    cases rs.addressFromScript script net <;> simp
  | notRecognised =>
    obtain rfl := Outcome.ok.inj h
    exact hzero (hnone rfl _) (hnone rfl _) (hnone rfl _)

/-- **Classification is unambiguous**: the tests exclude each other, the specific witness tests
imply the general one and exclude each other, the pattern is the same for every order that keeps
them before it, and it fixes the number of addresses. -/
theorem classification_unambiguous (script : List UInt8) :
    (∀ p ∈ kinds, ∀ q ∈ kinds, accepts rs script p = true → accepts rs script q = true → p = q) ∧
    (rs.isP2wpkh script = true → rs.isWitnessProgram script = true) ∧
    (rs.isP2wsh script = true → rs.isWitnessProgram script = true) ∧
    ¬ (rs.isP2wpkh script = true ∧ rs.isP2wsh script = true) ∧
    ∀ net info, evaluateScript rs script net = .ok info →
      (∀ order, SpecificFirst order → info.pattern = firstPattern rs script order) ∧
      AddressCount info.pattern info.addresses.length := by
  refine ⟨fun p hp q hq => accepts_unique hd hp hq, isWitnessProgram_of_isP2wpkh hd,
    isWitnessProgram_of_isP2wsh hd, not_isP2wpkh_and_isP2wsh hd, fun net info h => ?_⟩
  obtain ⟨hpattern, haddresses⟩ := evaluateScript_eq_ok h
  constructor
  · intro order ho
    rw [hpattern]
    exact firstPattern_insensitive hd specificFirst_testOrder ho
  · rw [hpattern] at haddresses ⊢
    exact addressCount_of_ok hd haddresses

end Documented

/-- The pay-to-witness-public-key-hash script of the first key. -/
def payToFirstKeyHash : List UInt8 :=
  [0x00, 0x14, 0x75, 0x1e, 0x76, 0xe8, 0x19, 0x91, 0x96, 0xd4, 0x54, 0x94, 0x1c, 0x45, 0xd1, 0xb3,
    0xa3, 0x23, 0xf1, 0x43, 0x3b, 0xd6]

theorem classification_unambiguous_firstKeyHash :
    .pay2WitnessPublicKeyHash = firstPattern twoKeys payToFirstKeyHash
      [.pay2MultiSig, .opReturn, .pay2WitnessScriptHash, .pay2WitnessPublicKeyHash, .witnessProgram,
        .pay2ScriptHash, .pay2PublicKeyHash, .pay2PublicKey] :=
  have hrun : evaluateScript twoKeys payToFirstKeyHash .testnet = .ok
      ⟨[⟨.testnet, .segwit 0 (payToFirstKeyHash.drop 2)⟩], .pay2WitnessPublicKeyHash⟩ := by
    decide +kernel
  ((classification_unambiguous (RustScript.documented_ofBytes _ _) payToFirstKeyHash).2.2.2.2
    _ _ hrun).1 _ ⟨by decide, by decide, by decide⟩

/-! ## The network of the addresses -/

/-- An address of a public key that the script pushes, which `evaluate_script` puts on the main
network. -/
def PushesKey (rs : RustScript) (script : List UInt8) : Prop :=
  rs.isP2pk script = true ∨ ∃ m keys check, MultisigScript m keys check script ∧
    ∀ key ∈ keys, rs.publicKeyHash key ≠ none

section Documented

variable {rs : RustScript} (hd : rs.Documented) {script : List UInt8}
include hd

/-- The addresses of a multi-signature script whose keys parse. -/
theorem patternAddresses_multisig {m : Nat} {keys : List (List UInt8)} {check : UInt8}
    (h : MultisigScript m keys check script) (net : Network) :
    patternAddresses rs script net .pay2MultiSig = .ok ((keyAddresses rs keys).getD []) :=
  multisigAddresses_eq h.numbers (by
    rw [hd.instructions]
    exact (instructions_multisig h.numbers).mpr h)

/-- The addresses of public keys are on the main network. -/
theorem network_of_key {net : Network} {info : ScriptInfo}
    (h : evaluateScript rs script net = .ok info) (hk : PushesKey rs script) :
    info.addresses ≠ [] ∧ ∀ address ∈ info.addresses, address.network = .bitcoin := by
  obtain ⟨hpattern, haddresses⟩ := evaluateScript_eq_ok h
  rw [hpattern] at haddresses
  rcases hk with hpk | ⟨m, keys, check, hscript, hkeys⟩
  · rw [firstPattern_of_accepts hd (p := .pay2PublicKey) hpk (by decide)] at haddresses
    obtain ⟨hash, ha⟩ := p2pkToAddress_total hpk
    rw [patternAddresses, ha] at haddresses
    obtain hout : [Address.p2pkh hash .bitcoin] = info.addresses := Outcome.ok.inj haddresses
    rw [← hout]
    exact ⟨List.cons_ne_nil _ _, List.forall_mem_singleton.mpr rfl⟩
  · have hmulti := (accepts_multisig_iff hd).mpr ⟨m, keys, check, hscript⟩
    rw [firstPattern_of_accepts hd hmulti (by decide), patternAddresses_multisig hd hscript]
      at haddresses
    have hout := Outcome.ok.inj haddresses
    cases hall : keyAddresses rs keys with
    | none =>
      obtain ⟨key, hmem, hkey⟩ := keyAddresses_eq_none.mp hall
      exact absurd hkey (hkeys key hmem)
    | some addresses =>
      obtain ⟨hashes, hmatch, rfl⟩ := keyAddresses_eq_some.mp hall
      rw [hall, Option.getD_some] at hout
      rw [← hout]
      constructor
      · intro hnil
        have hlen := hmatch.length_eq
        rw [List.map_eq_nil_iff.mp hnil] at hlen
        exact absurd hlen (Nat.ne_of_gt hscript.numbers.keys_pos)
      · intro address ha
        obtain ⟨hash, -, rfl⟩ := List.mem_map.mp ha
        rfl

/-- The other addresses are on the network asked for. -/
theorem network_of_not_key {net : Network} {info : ScriptInfo}
    (h : evaluateScript rs script net = .ok info) (hk : ¬ PushesKey rs script) :
    ∀ address ∈ info.addresses, address.network = net := by
  obtain ⟨hpattern, haddresses⟩ := evaluateScript_eq_ok h
  have haccepts : info.pattern ≠ .notRecognised → accepts rs script info.pattern = true := by
    rw [hpattern]
    exact accepts_firstPattern
  have hbuilt : ∀ address ∈ (rs.addressFromScript script net).toList, address.network = net :=
    fun address ha => hd.network script net address (Option.mem_toList.mp ha)
  generalize info.pattern = p at haddresses haccepts
  cases p with
  | pay2PublicKey => exact absurd (Or.inl (haccepts nofun)) hk
  | pay2MultiSig =>
    obtain ⟨m, keys, check, hscript⟩ := (accepts_multisig_iff hd).mp (haccepts nofun)
    have hnone : keyAddresses rs keys = none := by
      rw [keyAddresses_eq_none]
      by_contra hall
      exact hk (Or.inr ⟨m, keys, check, hscript, fun key hmem hkey => hall ⟨key, hmem, hkey⟩⟩)
    rw [patternAddresses_multisig hd hscript, hnone, Option.getD_none] at haddresses
    rw [← Outcome.ok.inj haddresses]
    exact List.forall_mem_nil _
  | opReturn => exact Outcome.ok.inj haddresses ▸ hbuilt
  | pay2PublicKeyHash => exact Outcome.ok.inj haddresses ▸ hbuilt
  | pay2ScriptHash => exact Outcome.ok.inj haddresses ▸ hbuilt
  | pay2WitnessPublicKeyHash => exact Outcome.ok.inj haddresses ▸ hbuilt
  | pay2WitnessScriptHash => exact Outcome.ok.inj haddresses ▸ hbuilt
  | witnessProgram => exact Outcome.ok.inj haddresses ▸ hbuilt
  | notRecognised => exact Outcome.ok.inj haddresses ▸ hbuilt

/-- **`evaluate_script` honours its network** on the main network, and else exactly on the scripts
whose addresses are not made of a public key they push. -/
theorem network_honoured_iff (script : List UInt8) (net : Network) :
    (∀ info, evaluateScript rs script net = .ok info →
      ∀ address ∈ info.addresses, address.network = net) ↔
    net = .bitcoin ∨ ¬ PushesKey rs script := by
  obtain ⟨info, h⟩ := evaluateScript_total rs script net
  constructor
  · intro hall
    by_contra hcon
    obtain ⟨hnet, hk⟩ := not_or.mp hcon
    obtain ⟨hne, hmain⟩ := network_of_key hd h (not_not.mp hk)
    obtain ⟨address, ha⟩ := List.exists_mem_of_ne_nil _ hne
    exact hnet ((hall info h address ha).symm.trans (hmain address ha))
  · intro hcond info' h'
    obtain rfl := Outcome.ok.inj (h.symm.trans h')
    by_cases hk : PushesKey rs script
    · obtain rfl : net = .bitcoin := hcond.resolve_right (not_not.mpr hk)
      exact (network_of_key hd h hk).2
    · exact network_of_not_key hd h hk

end Documented

/-- The pay-to-public-key script of the first key. -/
def payToFirstKey : List UInt8 := [0x21] ++ firstKey ++ [0xac]

theorem network_honoured_iff_firstKey :
    ¬ (Network.testnet = .bitcoin ∨ ¬ PushesKey twoKeys payToFirstKey) := by
  intro h
  have hrun : evaluateScript twoKeys payToFirstKey .testnet = .ok
      ⟨[.p2pkh 0x751e76e8199196d454941c45d1b3a323f1433bd6#160 .bitcoin], .pay2PublicKey⟩ := by
    decide +kernel
  exact absurd ((network_honoured_iff (RustScript.documented_ofBytes _ _) payToFirstKey
    .testnet).mpr h _ hrun _ (List.mem_singleton.mpr rfl)) (by decide)

/-- A pay-to-public-key script evaluated for the test network gets an address of the main one. -/
theorem network_lost_firstKey : ∃ info, evaluateScript twoKeys payToFirstKey .testnet = .ok info ∧
    ∃ address ∈ info.addresses, address.network ≠ .testnet :=
  ⟨⟨[.p2pkh 0x751e76e8199196d454941c45d1b3a323f1433bd6#160 .bitcoin], .pay2PublicKey⟩,
    by decide +kernel, _, List.mem_singleton.mpr rfl, by decide⟩

end BitcoinExplorer
