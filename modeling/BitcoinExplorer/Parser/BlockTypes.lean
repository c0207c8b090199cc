import BitcoinExplorer.Parser.Script

/-!
# `src/parser/block_types`: compact and full blocks, and the connected-block traits

The two output formats of the crate, with the conversions that build them, and the traits
`ConnectedTx` and `ConnectedBlock` through which the iterator is generic in the format. A trait is a
structure of its methods; `compactConnectedBlock` and `fullConnectedBlock` are its two
implementations. The trait method `connect` is in `ConnectedBlock.lean`.
-/

namespace BitcoinExplorer

open Rust

/-! ## The compact format -/

/-- `CompactBlockHeader`. -/
structure CompactBlockHeader where
  blockHash : BlockHash
  time : UInt32
  deriving DecidableEq, Repr

/-- `CompactBlockHeader::new`. -/
def CompactBlockHeader.new (blk : BlockHeader) (blockHash : BlockHash) : CompactBlockHeader :=
  { blockHash, time := blk.time }

/-- `CompactTxOut`. -/
structure CompactTxOut where
  value : UInt64
  addresses : List Address
  deriving DecidableEq, Repr

/-- `impl From<TxOut> for CompactTxOut`. -/
def CompactTxOut.ofTxOut (rb : RustBitcoin) (out : TxOut) : CompactTxOut :=
  let eval := scriptInfo rb.script out.scriptPubkey .bitcoin
  { value := out.value, addresses := eval.addresses }

/-- `CompactTxIn`. -/
structure CompactTxIn where
  txid : Txid
  vout : UInt32
  deriving DecidableEq, Repr

/-- `impl From<TxIn> for CompactTxIn`. -/
def CompactTxIn.ofTxIn (txIn : TxIn) : CompactTxIn :=
  { txid := txIn.previousOutput.txid, vout := txIn.previousOutput.vout }

/-- `CompactTransaction`. -/
structure CompactTransaction where
  txid : Txid
  input : List CompactTxIn
  output : List CompactTxOut
  deriving DecidableEq, Repr

/-- `impl From<Transaction> for CompactTransaction`. -/
def CompactTransaction.ofTransaction (rb : RustBitcoin) (tx : Transaction) : CompactTransaction :=
  { txid := rb.computeTxid tx
    input := if tx.isCoinbase then [] else tx.input.map CompactTxIn.ofTxIn
    output := tx.output.map (CompactTxOut.ofTxOut rb) }

/-- `CompactBlock`. -/
structure CompactBlock where
  header : CompactBlockHeader
  txdata : List CompactTransaction
  deriving DecidableEq, Repr

/-- `impl From<Block> for CompactBlock`. -/
def CompactBlock.ofBlock (rb : RustBitcoin) (block : Block) : CompactBlock :=
  let blockHash := rb.blockHash block.header
  { header := .new block.header blockHash
    txdata := block.txdata.map (CompactTransaction.ofTransaction rb) }

/-- `CompactConnectedTransaction`. -/
structure CompactConnectedTransaction where
  txid : Txid
  input : List CompactTxOut
  output : List CompactTxOut
  deriving DecidableEq, Repr

/-- `CompactConnectedBlock`. -/
structure CompactConnectedBlock where
  header : CompactBlockHeader
  txdata : List CompactConnectedTransaction
  deriving DecidableEq, Repr

/-! ## The full format -/

/-- `FullBlockHeader`. -/
structure FullBlockHeader where
  version : Int
  prevBlockhash : BlockHash
  merkleRoot : BitVec 256
  time : UInt32
  bits : UInt32
  nonce : UInt32
  blockHash : BlockHash
  deriving DecidableEq, Repr

/-- `FullBlockHeader::parse`. -/
def FullBlockHeader.parse (b : BlockHeader) (blockHash : BlockHash) : FullBlockHeader :=
  { version := b.version
    blockHash
    prevBlockhash := b.prevBlockhash
    merkleRoot := b.merkleRoot
    time := b.time
    bits := b.bits
    nonce := b.nonce }

/-- `FullTxOut`. -/
structure FullTxOut where
  value : UInt64
  scriptPubkey : List UInt8
  scriptType : ScriptType
  addresses : List Address
  deriving DecidableEq, Repr

/-- `impl From<TxOut> for FullTxOut`. -/
def FullTxOut.ofTxOut (rb : RustBitcoin) (out : TxOut) : FullTxOut :=
  let eval := scriptInfo rb.script out.scriptPubkey .bitcoin
  { value := out.value
    scriptPubkey := out.scriptPubkey
    scriptType := eval.pattern
    addresses := eval.addresses }

/-- `FullTransaction`. -/
structure FullTransaction where
  version : Int
  lockTime : UInt32
  input : List TxIn
  txid : Txid
  output : List FullTxOut
  deriving DecidableEq, Repr

/-- `impl From<Transaction> for FullTransaction`. -/
def FullTransaction.ofTransaction (rb : RustBitcoin) (tx : Transaction) : FullTransaction :=
  { version := tx.version
    lockTime := tx.lockTime
    txid := rb.computeTxid tx
    input := if tx.isCoinbase then [] else tx.input
    output := tx.output.map (FullTxOut.ofTxOut rb) }

/-- `FullBlock`. -/
structure FullBlock where
  header : FullBlockHeader
  txdata : List FullTransaction
  deriving DecidableEq, Repr

/-- `impl From<Block> for FullBlock`. -/
def FullBlock.ofBlock (rb : RustBitcoin) (block : Block) : FullBlock :=
  let blockHash := rb.blockHash block.header
  { header := .parse block.header blockHash
    txdata := block.txdata.map (FullTransaction.ofTransaction rb) }

/-- `FullConnectedTransaction`. -/
structure FullConnectedTransaction where
  version : Int
  lockTime : UInt32
  txid : Txid
  input : List FullTxOut
  output : List FullTxOut
  deriving DecidableEq, Repr

/-- `FullConnectedBlock`. -/
structure FullConnectedBlock where
  header : FullBlockHeader
  txdata : List FullConnectedTransaction
  deriving DecidableEq, Repr

/-! ## The traits -/

/-- `trait ConnectedTx`, with the conversion its `TxOut` type promises. -/
structure ConnectedTx (Tx Out : Type) where
  /-- `From<TxOut>`. -/
  into : TxOut → Out
  /-- `from`. -/
  ofTx : Transaction → Tx
  /-- `add_input`. -/
  addInput : Tx → Out → Tx

/-- `trait ConnectedBlock`. -/
structure ConnectedBlock (Blk Tx Out : Type) where
  /-- The implementation of `ConnectedTx` for the associated type. -/
  tx : ConnectedTx Tx Out
  /-- `from`. -/
  ofHeader : BlockHeader → BlockHash → Blk
  /-- `add_tx`. -/
  addTx : Blk → Tx → Blk

/-- `impl ConnectedTx for CompactConnectedTransaction`. -/
def compactConnectedTx (rb : RustBitcoin) :
    ConnectedTx CompactConnectedTransaction CompactTxOut where
  into := CompactTxOut.ofTxOut rb
  ofTx tx :=
    { txid := rb.computeTxid tx, input := [], output := tx.output.map (CompactTxOut.ofTxOut rb) }
  addInput tx input := { tx with input := tx.input ++ [input] }

/-- `impl ConnectedTx for FullConnectedTransaction`. -/
def fullConnectedTx (rb : RustBitcoin) : ConnectedTx FullConnectedTransaction FullTxOut where
  into := FullTxOut.ofTxOut rb
  ofTx tx :=
    { version := tx.version
      lockTime := tx.lockTime
      txid := rb.computeTxid tx
      input := []
      output := tx.output.map (FullTxOut.ofTxOut rb) }
  addInput tx input := { tx with input := tx.input ++ [input] }

/-- `impl ConnectedBlock for CompactConnectedBlock`. -/
def compactConnectedBlock (rb : RustBitcoin) :
    ConnectedBlock CompactConnectedBlock CompactConnectedTransaction CompactTxOut where
  tx := compactConnectedTx rb
  ofHeader header hash := { header := .new header hash, txdata := [] }
  addTx blk tx := { blk with txdata := blk.txdata ++ [tx] }

/-- `impl ConnectedBlock for FullConnectedBlock`. -/
def fullConnectedBlock (rb : RustBitcoin) :
    ConnectedBlock FullConnectedBlock FullConnectedTransaction FullTxOut where
  tx := fullConnectedTx rb
  ofHeader header hash := { header := .parse header hash, txdata := [] }
  addTx blk tx := { blk with txdata := blk.txdata ++ [tx] }

end BitcoinExplorer
