import LiteVision.Truth.Transaction

/-!
# Blocks

A header and the transactions it commits to, as in `block.rs`.
-/

namespace LiteVision.Truth

structure BlockHeader where
  height : UInt64
  timestamp : UInt64
  parentHash : Bytes 32
  stateRoot : Bytes 32
  receiptsRoot : Bytes 32
  validatorSetHash : Bytes 32
  deriving DecidableEq

structure ValidatorSignature where
  validatorId : Bytes 32
  signature : List UInt8
  deriving DecidableEq

structure Block where
  header : BlockHeader
  transactions : List Transaction
  signatures : List ValidatorSignature
  deriving DecidableEq

def Block.new (header : BlockHeader) (transactions : List Transaction) : Block where
  header
  transactions
  signatures := []

end LiteVision.Truth
