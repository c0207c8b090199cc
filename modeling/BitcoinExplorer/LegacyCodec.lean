import BitcoinExplorer.Basic
import BitcoinExplorer.Lib.Codec

/-!
# The consensus encoding without witnesses

Headers, transactions and blocks in the encoding that Bitcoin started with, and their decoders: an
instance of what the queries assume about the codec of the `bitcoin` crate, for transactions that
have no witness.

* **`inverts_block`**: the decoder of blocks undoes the encoding; `inverts_header` and `inverts_tx`
  are the same for the parts.
-/

namespace BitcoinExplorer

open Bytes ByteStream ByteStream.Decoder

/-! ## Encoding -/

def encodeI32 (i : Int) : List UInt8 := leBytes 4 (i % 2 ^ 32).toNat

def encodeHeader (h : BlockHeader) : List UInt8 :=
  encodeI32 h.version ++ (asByteArray h.prevBlockhash ++ (asByteArray h.merkleRoot ++
    (leBytes 4 h.time.toNat ++ (leBytes 4 h.bits.toNat ++ leBytes 4 h.nonce.toNat))))

def encodeTxIn (i : TxIn) : List UInt8 :=
  asByteArray i.previousOutput.txid ++ (leBytes 4 i.previousOutput.vout.toNat ++
    (counted i.scriptSig ++ leBytes 4 i.sequence.toNat))

def encodeOutput (out : TxOut) : List UInt8 :=
  leBytes 8 out.value.toNat ++ counted out.scriptPubkey

def encodeTx (tx : Transaction) : List UInt8 :=
  encodeI32 tx.version ++ ((compactSize tx.input.length ++ tx.input.flatMap encodeTxIn) ++
    ((compactSize tx.output.length ++ tx.output.flatMap encodeOutput) ++
      leBytes 4 tx.lockTime.toNat))

/-- A block: the header, the number of transactions, the transactions. -/
def encodeBlock (header : BlockHeader → List UInt8) (tx : Transaction → List UInt8) (blk : Block) :
    List UInt8 :=
  header blk.header ++ (compactSize blk.txdata.length ++ blk.txdata.flatMap tx)

/-! ## Decoding -/

def readI32 : Decoder Int := (readLE 4).bind fun n => done (Int.bmod n (2 ^ 32))

def readHash : Decoder (BitVec 256) := (readLE 32).bind fun n => done (BitVec.ofNat 256 n)

def readUInt32 : Decoder UInt32 := (readLE 4).bind fun n => done (UInt32.ofNat n)

def readUInt64 : Decoder UInt64 := (readLE 8).bind fun n => done (UInt64.ofNat n)

def readHeader : Decoder BlockHeader :=
  readI32.bind fun version =>
  readHash.bind fun prevBlockhash =>
  readHash.bind fun merkleRoot =>
  readUInt32.bind fun time =>
  readUInt32.bind fun bits =>
  readUInt32.bind fun nonce =>
  done ⟨version, prevBlockhash, merkleRoot, time, bits, nonce⟩

def readTxIn : Decoder TxIn :=
  readHash.bind fun txid =>
  readUInt32.bind fun vout =>
  readCounted.bind fun scriptSig =>
  readUInt32.bind fun sequence =>
  done ⟨⟨txid, vout⟩, scriptSig, sequence, []⟩

def readOutput : Decoder TxOut :=
  readUInt64.bind fun value =>
  readCounted.bind fun scriptPubkey =>
  done ⟨value, scriptPubkey⟩

def readTx : Decoder Transaction :=
  readI32.bind fun version =>
  (readList readTxIn).bind fun input =>
  (readList readOutput).bind fun output =>
  readUInt32.bind fun lockTime =>
  if h : output.length < 2 ^ 32 then done ⟨version, lockTime, input, output, h⟩ else fail

def readBlk : Decoder Block :=
  readHeader.bind fun header =>
  (readList readTx).bind fun txdata =>
  done ⟨header, txdata⟩

/-- The crate with this codec. -/
def RustBitcoin.withLegacyCodec (rb : RustBitcoin) : RustBitcoin :=
  { rb with
    encodeTxOut := encodeOutput
    decodeTxOut bytes := (readOutput.run bytes).map Prod.fst
    headerDecoder := readHeader
    txDecoder := readTx
    blockDecoder := readBlk }

/-! ## The decoders undo the encoding -/

/-- An `i32`. -/
def IsI32 (i : Int) : Prop := -2 ^ 31 ≤ i ∧ i < 2 ^ 31

instance (i : Int) : Decidable (IsI32 i) := inferInstanceAs (Decidable (_ ∧ _))

/-- A transaction this encoding can hold. -/
structure Legacy (tx : Transaction) : Prop where
  version : IsI32 tx.version
  inputs : tx.input.length < 2 ^ 64
  input : ∀ i ∈ tx.input, i.witness = [] ∧ i.scriptSig.length < 2 ^ 64
  output : ∀ out ∈ tx.output, out.scriptPubkey.length < 2 ^ 64

theorem bmod_emod_of_isI32 {i : Int} (h : IsI32 i) :
    Int.bmod (i % 2 ^ 32).toNat (2 ^ 32) = i := by
  obtain ⟨hle, hlt⟩ := h
  rw [Int.toNat_of_nonneg (Int.emod_nonneg _ (by decide))]
  exact (Int.emod_bmod i (2 ^ 32)).trans (Int.bmod_eq_of_le (by omega) (by omega))

theorem inverts_readI32 {i : Int} (h : IsI32 i) : readI32.Inverts i (encodeI32 i) := by
  have hlt : (i % 2 ^ 32).toNat < 256 ^ 4 := by omega
  have := (inverts_readLE hlt).bind_done fun n => Int.bmod n (2 ^ 32)
  rwa [bmod_emod_of_isI32 h] at this

theorem inverts_readHash (h : BitVec 256) : readHash.Inverts h (asByteArray h) := by
  have hlt : h.toNat < 256 ^ 32 := h.isLt
  have := (inverts_readLE hlt).bind_done fun n => BitVec.ofNat 256 n
  rwa [BitVec.ofNat_toNat, BitVec.setWidth_eq] at this

theorem inverts_readUInt32 (n : UInt32) : readUInt32.Inverts n (leBytes 4 n.toNat) := by
  have hlt : n.toNat < 256 ^ 4 := n.toNat_lt
  have := (inverts_readLE hlt).bind_done UInt32.ofNat
  rwa [UInt32.ofNat_toNat] at this

theorem inverts_readUInt64 (n : UInt64) : readUInt64.Inverts n (leBytes 8 n.toNat) := by
  have hlt : n.toNat < 256 ^ 8 := n.toNat_lt
  have := (inverts_readLE hlt).bind_done UInt64.ofNat
  rwa [UInt64.ofNat_toNat] at this

/-- **Headers.** -/
theorem inverts_header {h : BlockHeader} (hv : IsI32 h.version) :
    readHeader.Inverts h (encodeHeader h) := by
  refine (inverts_readI32 hv).bind ((inverts_readHash _).bind ((inverts_readHash _).bind
    ((inverts_readUInt32 _).bind ((inverts_readUInt32 _).bind ?_))))
  exact (inverts_readUInt32 h.nonce).bind_done
    (BlockHeader.mk h.version h.prevBlockhash h.merkleRoot h.time h.bits)

theorem inverts_txIn {i : TxIn} (hw : i.witness = []) (hlen : i.scriptSig.length < 2 ^ 64) :
    readTxIn.Inverts i (encodeTxIn i) := by
  obtain ⟨⟨txid, vout⟩, scriptSig, sequence, witness⟩ := i
  obtain rfl : witness = [] := hw
  refine (inverts_readHash txid).bind ((inverts_readUInt32 vout).bind
    ((inverts_readCounted hlen).bind ?_))
  exact (inverts_readUInt32 sequence).bind_done (TxIn.mk ⟨txid, vout⟩ scriptSig · [])

theorem inverts_output {out : TxOut} (hlen : out.scriptPubkey.length < 2 ^ 64) :
    readOutput.Inverts out (encodeOutput out) :=
  (inverts_readUInt64 out.value).bind
    ((inverts_readCounted hlen).bind_done (TxOut.mk out.value))

/-- **Transactions.** -/
theorem inverts_tx {tx : Transaction} (h : Legacy tx) : readTx.Inverts tx (encodeTx tx) := by
  have hinput : (readList readTxIn).Inverts tx.input
      (compactSize tx.input.length ++ tx.input.flatMap encodeTxIn) :=
    inverts_readList h.inputs fun i hi => inverts_txIn (h.input i hi).1 (h.input i hi).2
  have houtput : (readList readOutput).Inverts tx.output
      (compactSize tx.output.length ++ tx.output.flatMap encodeOutput) :=
    inverts_readList (tx.output_lt.trans (by decide)) fun out hout =>
      inverts_output (h.output out hout)
  refine (inverts_readI32 h.version).bind (hinput.bind (houtput.bind ?_))
  rw [← List.append_nil (leBytes 4 _)]
  refine (inverts_readUInt32 tx.lockTime).bind ?_
  rw [dif_pos tx.output_lt]
  exact inverts_done tx

/-- **Blocks.** -/
theorem inverts_block {blk : Block} (hv : IsI32 blk.header.version)
    (hlen : blk.txdata.length < 2 ^ 64) (htxs : ∀ tx ∈ blk.txdata, Legacy tx) :
    readBlk.Inverts blk (encodeBlock encodeHeader encodeTx blk) :=
  (inverts_header hv).bind
    ((inverts_readList hlen fun tx htx => inverts_tx (htxs tx htx)).bind_done
      (Block.mk blk.header))

theorem consumes_readI32 : readI32.Consumes encodeI32 := by
  refine Consumes.of_readLE fun n hn => ?_
  have hback : (Int.bmod n (2 ^ 32) % 2 ^ 32).toNat = n := by
    have hmod : Int.bmod n (2 ^ 32) % 2 ^ 32 = (n : Int) % 2 ^ 32 := Int.bmod_emod
    rw [hmod]
    omega
  rw [encodeI32, hback]

theorem consumes_readHash : readHash.Consumes asByteArray :=
  Consumes.of_readLE fun n hn => by
    rw [asByteArray, BitVec.toNat_ofNat, Nat.mod_eq_of_lt (show n < 2 ^ 256 from hn)]

theorem consumes_readUInt32 : readUInt32.Consumes fun n => leBytes 4 n.toNat :=
  Consumes.of_readLE fun n hn => by
    rw [UInt32.toNat_ofNat_of_lt' (show n < 2 ^ 32 from hn)]

/-- **A header is decoded from its own encoding only.** -/
theorem consumes_header : readHeader.Consumes encodeHeader := by
  intro s header rest h
  obtain ⟨version, _, hversion, h⟩ := run_bind_eq_some.mp h
  obtain ⟨prevBlockhash, _, hprev, h⟩ := run_bind_eq_some.mp h
  obtain ⟨merkleRoot, _, hmerkle, h⟩ := run_bind_eq_some.mp h
  obtain ⟨time, _, htime, h⟩ := run_bind_eq_some.mp h
  obtain ⟨bits, _, hbits, h⟩ := run_bind_eq_some.mp h
  obtain ⟨nonce, _, hnonce, h⟩ := run_bind_eq_some.mp h
  obtain ⟨rfl, rfl⟩ := Prod.mk.inj (Option.some.inj h)
  rw [consumes_readI32 _ _ _ hversion, consumes_readHash _ _ _ hprev,
    consumes_readHash _ _ _ hmerkle, consumes_readUInt32 _ _ _ htime,
    consumes_readUInt32 _ _ _ hbits, consumes_readUInt32 _ _ _ hnonce]
  simp only [encodeHeader, List.append_assoc]

theorem consumes_readUInt64 : readUInt64.Consumes fun n => leBytes 8 n.toNat :=
  Consumes.of_readLE fun n hn => by
    rw [UInt64.toNat_ofNat_of_lt' (show n < 2 ^ 64 from hn)]

theorem consumes_txIn : readTxIn.Consumes encodeTxIn := by
  intro s i rest h
  obtain ⟨txid, _, htxid, h⟩ := run_bind_eq_some.mp h
  obtain ⟨vout, _, hvout, h⟩ := run_bind_eq_some.mp h
  obtain ⟨scriptSig, _, hsig, h⟩ := run_bind_eq_some.mp h
  obtain ⟨sequence, _, hsequence, h⟩ := run_bind_eq_some.mp h
  obtain ⟨rfl, rfl⟩ := Prod.mk.inj (Option.some.inj h)
  rw [consumes_readHash _ _ _ htxid, consumes_readUInt32 _ _ _ hvout,
    consumes_readCounted _ _ _ hsig, consumes_readUInt32 _ _ _ hsequence]
  simp only [encodeTxIn, List.append_assoc]

theorem consumes_output : readOutput.Consumes encodeOutput := by
  intro s out rest h
  obtain ⟨value, _, hvalue, h⟩ := run_bind_eq_some.mp h
  obtain ⟨scriptPubkey, _, hpubkey, h⟩ := run_bind_eq_some.mp h
  obtain ⟨rfl, rfl⟩ := Prod.mk.inj (Option.some.inj h)
  rw [consumes_readUInt64 _ _ _ hvalue, consumes_readCounted _ _ _ hpubkey, encodeOutput,
    List.append_assoc]

theorem consumes_tx : readTx.Consumes encodeTx := by
  intro s tx rest h
  obtain ⟨version, _, hversion, h⟩ := run_bind_eq_some.mp h
  obtain ⟨input, _, hinput, h⟩ := run_bind_eq_some.mp h
  obtain ⟨output, _, houtput, h⟩ := run_bind_eq_some.mp h
  obtain ⟨lockTime, _, hlock, h⟩ := run_bind_eq_some.mp h
  split at h
  · obtain ⟨rfl, rfl⟩ := Prod.mk.inj (Option.some.inj h)
    rw [consumes_readI32 _ _ _ hversion, consumes_readList consumes_txIn _ _ _ hinput,
      consumes_readList consumes_output _ _ _ houtput, consumes_readUInt32 _ _ _ hlock]
    simp only [encodeTx, List.append_assoc]
  · cases h

/-- **So is a block.** -/
theorem consumes_block : readBlk.Consumes (encodeBlock encodeHeader encodeTx) := by
  intro s blk rest h
  obtain ⟨header, _, hheader, h⟩ := run_bind_eq_some.mp h
  obtain ⟨txdata, _, htxdata, h⟩ := run_bind_eq_some.mp h
  obtain ⟨rfl, rfl⟩ := Prod.mk.inj (Option.some.inj h)
  rw [consumes_header _ _ _ hheader, consumes_readList consumes_tx _ _ _ htxdata, encodeBlock]
  simp only [List.append_assoc]

theorem length_encodeHeader (h : BlockHeader) : (encodeHeader h).length = 80 := by
  simp [encodeHeader, encodeI32]

end BitcoinExplorer
