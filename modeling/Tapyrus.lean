import Tapyrus.Framework.Embedding
import Tapyrus.Framework.PrefixCode
import Tapyrus.Serialize
import Tapyrus.Serialize.VarInt
import Tapyrus.Primitives.Block
import Tapyrus.Validation.BlockHeader
import Tapyrus.Consensus.Merkle
import Tapyrus.Script.Script
import Tapyrus.Primitives.Transaction
import Tapyrus.Script.SigHash
import Tapyrus.Framework.Overlay
import Tapyrus.Coins.Cache
import Tapyrus.Coins.Refinement
import Tapyrus.Framework.Outcome
import Tapyrus.Script.Contracts
import Tapyrus.Script.Verify
import Tapyrus.Framework.ParentWalk
import Tapyrus.Framework.LowerBound
import Tapyrus.Chain.BlockIndex
import Tapyrus.Chain.ActiveChain
import Tapyrus.Validation.CheckBlock
import Tapyrus.Net.BlockEncodings
import Tapyrus.Framework.BitMask
import Tapyrus.Consensus.TxVerify
import Tapyrus.Script.MultiSig
import Tapyrus.Script.Builder
import Tapyrus.Consensus.TxInputs
import Tapyrus.Coins.Compressor
import Tapyrus.Framework.FirstMatch
import Tapyrus.Script.Standard
import Tapyrus.Framework.Radix
import Tapyrus.Util.StrEncodings
import Tapyrus.Util.FixedPoint
import Tapyrus.Util.Base58
import Tapyrus.Framework.Fill
import Tapyrus.Script.PSBT
import Tapyrus.Framework.BinaryPoly
import Tapyrus.Util.Bech32
import Tapyrus.Util.MoneyStr
import Tapyrus.Framework.EntrySum
import Tapyrus.Coins.Usage
import Tapyrus.Framework.Closure
import Tapyrus.Mining.Miner
import Tapyrus.Mining.Accounting
import Tapyrus.Util.Prevector
import Tapyrus.Framework.Worklist
import Tapyrus.Mempool.Walks
import Tapyrus.Mining.BlockLimits
import Tapyrus.Framework.ReadyOrder
import Tapyrus.Mining.BlockOrder
import Tapyrus.Consensus.PartialMerkle
import Tapyrus.Consensus.PartialMerkleProofs
import Tapyrus.Consensus.PartialMerkleWire
import Tapyrus.Chain.VersionBits
import Tapyrus.Chain.VersionBitsProofs
import Tapyrus.Framework.Median
import Tapyrus.Validation.AcceptHeader
import Tapyrus.Chain.VersionBitsOrder
import Tapyrus.Chain.VersionBitsQueries
