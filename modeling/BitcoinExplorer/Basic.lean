import BitcoinExplorer.Lib.Bytes
import BitcoinExplorer.Lib.Outcome
import BitcoinExplorer.Lib.Stream

/-!
# The data model: `bitcoin` types and the crate's errors

The types of the `bitcoin` crate that the explorer reads, with the fields it reads, and
`src/parser/error.rs`. `i32` fields are `Int`, `u32` and `u64` fields `UInt32` and `UInt64`,
`usize` is `Nat`. A 256-bit hash is a `BitVec 256` (Bitcoin's `uint256`); its byte array is the
little-endian one.

What the crate computes itself (hashes, the consensus codec, the byte patterns of scripts) is not
part of this repository: `RustBitcoin` collects it as parameters, and a result that relies on the
codec says so in a hypothesis.
-/

namespace BitcoinExplorer

open Rust

/-- `bitcoin::Txid`. -/
abbrev Txid := BitVec 256

/-- `bitcoin::BlockHash`. -/
abbrev BlockHash := BitVec 256

/-- `as_byte_array`: the 32 bytes of a hash. -/
def asByteArray (h : BitVec 256) : List UInt8 := Bytes.leBytes 32 h.toNat

theorem asByteArray_inj {a b : BitVec 256} (h : asByteArray a = asByteArray b) : a = b := by
  have ha : a.toNat < 256 ^ 32 := a.isLt
  have hb : b.toNat < 256 ^ 32 := b.isLt
  exact BitVec.eq_of_toNat_eq (Bytes.leBytes_inj ha hb h)

@[simp] theorem length_asByteArray (h : BitVec 256) : (asByteArray h).length = 32 :=
  Bytes.length_leBytes 32 _

/-! ## Transactions and blocks -/

/-- `bitcoin::OutPoint`. -/
structure OutPoint where
  txid : Txid
  vout : UInt32
  deriving DecidableEq, Repr

/-- `OutPoint::null`. -/
def OutPoint.null : OutPoint := ⟨0, 0xffffffff⟩

/-- `OutPoint::is_null`. -/
def OutPoint.isNull (o : OutPoint) : Bool := o = OutPoint.null

/-- `bitcoin::TxIn`. -/
structure TxIn where
  previousOutput : OutPoint
  scriptSig : List UInt8
  sequence : UInt32
  witness : List (List UInt8)
  deriving DecidableEq, Repr

/-- `bitcoin::TxOut`. -/
structure TxOut where
  value : UInt64
  scriptPubkey : List UInt8
  deriving DecidableEq, Repr

/-- `bitcoin::Transaction`. Every transaction comes out of a block whose length prefix is a `u32`,
or out of one file read of at most that size, so it has fewer than `2 ^ 32` outputs. -/
structure Transaction where
  version : Int
  lockTime : UInt32
  input : List TxIn
  output : List TxOut
  output_lt : output.length < 2 ^ 32
  deriving DecidableEq, Repr

/-- `Transaction::is_coinbase`: exactly one input, and it is null. -/
def Transaction.isCoinbase (tx : Transaction) : Bool :=
  match tx.input with
  | [i] => i.previousOutput.isNull
  | _ => false

/-- `bitcoin::block::Header`. -/
structure BlockHeader where
  version : Int
  prevBlockhash : BlockHash
  merkleRoot : BitVec 256
  time : UInt32
  bits : UInt32
  nonce : UInt32
  deriving DecidableEq, Repr

/-- `bitcoin::Block`. -/
structure Block where
  header : BlockHeader
  txdata : List Transaction
  deriving DecidableEq, Repr

/-! ## Scripts and addresses -/

/-- `bitcoin::Network`. -/
inductive Network where
  | bitcoin
  | testnet
  | signet
  | regtest
  deriving DecidableEq, Repr

/-- `bitcoin::address::AddressData`. -/
inductive AddressData where
  | p2pkh (pubkeyHash : BitVec 160)
  | p2sh (scriptHash : BitVec 160)
  | segwit (version : UInt8) (program : List UInt8)
  deriving DecidableEq, Repr

/-- `bitcoin::Address`. -/
structure Address where
  network : Network
  data : AddressData
  deriving DecidableEq, Repr

/-- `Address::p2pkh`. -/
def Address.p2pkh (pubkeyHash : BitVec 160) (network : Network) : Address :=
  ⟨network, .p2pkh pubkeyHash⟩

/-- `bitcoin::script::Instruction`. -/
inductive Instruction where
  | pushBytes (data : List UInt8)
  | op (opcode : UInt8)
  deriving DecidableEq, Repr

/-- What the `bitcoin` crate computes on scripts. -/
structure RustScript where
  /-- The items of `Script::instructions`; `none` is an `Err` item. -/
  instructions : List UInt8 → List (Option Instruction)
  isP2pk : List UInt8 → Bool
  isP2pkh : List UInt8 → Bool
  isP2sh : List UInt8 → Bool
  isP2wpkh : List UInt8 → Bool
  isP2wsh : List UInt8 → Bool
  isWitnessProgram : List UInt8 → Bool
  isOpReturn : List UInt8 → Bool
  /-- `Address::from_script(..).ok()`. -/
  addressFromScript : List UInt8 → Network → Option Address
  /-- `hash160::Hash::hash`. -/
  hash160 : List UInt8 → BitVec 160
  /-- `PublicKey::from_slice(..).ok()`, then `pubkey_hash`. -/
  publicKeyHash : List UInt8 → Option (BitVec 160)
  /-- A pay-to-public-key script is a direct push of the key followed by `OP_CHECKSIG`. -/
  isP2pk_push : ∀ script, isP2pk script = true →
    ∃ pk, (instructions script).head? = some (some (.pushBytes pk))

/-- What the `bitcoin` crate computes for the explorer. -/
structure RustBitcoin where
  script : RustScript
  /-- `Transaction::compute_txid`. -/
  computeTxid : Transaction → Txid
  /-- `Header::block_hash`. -/
  blockHash : BlockHeader → BlockHash
  /-- `TxOut::consensus_encode` into a fresh vector. -/
  encodeTxOut : TxOut → List UInt8
  /-- `TxOut::consensus_decode(..).ok()` on a slice. -/
  decodeTxOut : List UInt8 → Option TxOut
  /-- `Header::consensus_decode`. -/
  headerDecoder : ByteStream.Decoder BlockHeader
  /-- `Transaction::consensus_decode`. -/
  txDecoder : ByteStream.Decoder Transaction
  /-- `Block::consensus_decode`. -/
  blockDecoder : ByteStream.Decoder Block

/-- No script but the empty one, which has no instructions, address or pattern. -/
def RustScript.empty : RustScript where
  instructions _ := []
  isP2pk _ := false
  isP2pkh _ := false
  isP2sh _ := false
  isP2wpkh _ := false
  isP2wsh _ := false
  isWitnessProgram _ := false
  isOpReturn _ := false
  addressFromScript _ _ := none
  hash160 _ := 0
  publicKeyHash _ := none
  isP2pk_push _ h := absurd h Bool.false_ne_true

/-- What the crate computes on a few transactions and headers whose hashes are given, with outputs
that have an empty script: the parameter of the concrete chains below. -/
def RustBitcoin.ofTables (txids : List (Transaction × Txid))
    (hashes : List (BlockHeader × BlockHash)) : RustBitcoin where
  script := .empty
  computeTxid tx := (txids.lookup tx).getD 0
  blockHash header := (hashes.lookup header).getD 0
  encodeTxOut out := Bytes.leBytes 8 out.value.toNat ++
    UInt8.ofNat out.scriptPubkey.length :: out.scriptPubkey
  decodeTxOut bytes :=
    if bytes.length = 9 ∧ bytes[8]? = some 0 then
      some ⟨UInt64.ofNat (Bytes.ofLeBytes (bytes.take 8)), []⟩
    else none
  headerDecoder := .fail
  txDecoder := .fail
  blockDecoder := .fail

/-- `Error` of `src/parser/error.rs`: the variants the modelled functions return. -/
inductive Error where
  | emptyBlockFiles
  | blockFileNotFound (nFile : Int)
  | blockIndexRecordNotFound (height : Nat)
  | blockHashNotFound (hash : BlockHash)
  | transactionRecordNotFound (txid : Txid)
  | missingOutputs (expected got : Nat)
  | cannotFindHeightForTransaction (txid : Txid)
  | txDbUnavailable
  | io
  | bitcoinIo
  | encode
  | leveldb
  deriving DecidableEq, Repr

/-! ## What a block spends and creates -/

/-- The outpoints an input list spends: the previous outputs that are not null, in order. -/
def spends (inputs : List TxIn) : List OutPoint :=
  inputs.filterMap fun i => if i.previousOutput.isNull then none else some i.previousOutput

/-- The outpoints a block spends, in order. -/
def Block.spends (b : Block) : List OutPoint :=
  b.txdata.flatMap fun tx => BitcoinExplorer.spends tx.input

@[simp] theorem spends_nil : spends [] = [] := rfl

theorem spends_cons_null {i : TxIn} (h : i.previousOutput.isNull = true) (is : List TxIn) :
    spends (i :: is) = spends is := by
  simp [spends, h]

theorem spends_cons {i : TxIn} (h : i.previousOutput.isNull = false) (is : List TxIn) :
    spends (i :: is) = i.previousOutput :: spends is := by
  simp [spends, h]

theorem mem_spends {inputs : List TxIn} {o : OutPoint} :
    o ∈ spends inputs ↔ ∃ i ∈ inputs, i.previousOutput.isNull = false ∧ i.previousOutput = o := by
  simp only [spends, List.mem_filterMap, Option.ite_none_left_eq_some, Option.some.injEq,
    Bool.not_eq_true]

end BitcoinExplorer
