import Riecoin.Lib.Bytes
import Riecoin.Base.Uint256
import Riecoin.Pow.PrimeTable
import Riecoin.Pow.Target
import Riecoin.Pow.Check
import Riecoin.Lib.HashTree
import Riecoin.Consensus.Merkle
import Riecoin.Consensus.MerklePath
import Riecoin.Lib.KeyedFold
import Riecoin.Coins.Coin
import Riecoin.Coins.Cache
import Riecoin.Coins.Invariant
import Riecoin.Coins.Flush
import Riecoin.Coins.Refinement
import Riecoin.Lib.BitPack
import Riecoin.Util.Strencodings
import Riecoin.Util.Bech32
import Riecoin.Util.Bech32Errors
import Riecoin.Script.Solver
import Riecoin.Address.Destination
import Riecoin.Address.KeyIO
import Riecoin.Lib.Codec
import Riecoin.Serialize.Integers
import Riecoin.Coins.Compressor
import Riecoin.Coins.Undo
import Riecoin.Validation.Utxo
import Riecoin.Validation.Connect
import Riecoin.Validation.Disconnect
import Riecoin.Validation.Reorg
import Riecoin.Lib.Ancestry
import Riecoin.Chain.BlockIndex
import Riecoin.Chain.CChain
import Riecoin.Lib.Median
import Riecoin.Chain.MedianTime
import Riecoin.Consensus.TxVerify
import Riecoin.Lib.CheckedInt
import Riecoin.Pow.Asert
import Riecoin.Lib.Memo
import Riecoin.Consensus.Versionbits
import Riecoin.Script.ConditionStack
import Riecoin.Lib.SignMagnitude
import Riecoin.Script.ScriptNum
import Riecoin.Script.Push
import Riecoin.Lib.BigEndian
import Riecoin.Lib.ExceptPost
import Riecoin.Script.SignatureEncoding
import Riecoin.PubKey.ParseDerLax
import Riecoin.Primitives.Transaction
import Riecoin.Lib.Limbs
import Riecoin.Base.ArithUint256
import Riecoin.Base.Compact
import Riecoin.Base.BaseUintOps
import Riecoin.Lib.Cells
import Riecoin.Prevector.Memory
import Riecoin.Prevector.Methods
import Riecoin.Prevector.Layout
import Riecoin.Prevector.Capacity
import Riecoin.Prevector.Spec
import Riecoin.Prevector.Transfer
import Riecoin.Prevector.Refinement
import Riecoin.Lib.BitPrefix
import Riecoin.Net.NetAddress
import Riecoin.Lib.Diagram
import Riecoin.Util.FeeFrac
import Riecoin.Util.CompareChunks
import Riecoin.Lib.Chunking
import Riecoin.Cluster.ChunkLinearization
import Riecoin.Lib.FiniteRelation
import Riecoin.Cluster.DepGraph
import Riecoin.Lib.PopCount
import Riecoin.Lib.BitScan
import Riecoin.Util.Bitset
import Riecoin.Util.BitsetIter
import Riecoin.Util.Asmap
import Riecoin.Util.AsmapTree
import Riecoin.Lib.RollingLabels
import Riecoin.Common.Bloom
import Riecoin.Lib.BlockStream
import Riecoin.Crypto.ChaCha20
import Riecoin.Crypto.ChaCha20Stream
import Riecoin.Lib.InclusionTree
import Riecoin.Wallet.CoinSelection
import Riecoin.Wallet.CoinGrinder
import Riecoin.Wallet.CoinGrinderSearch
import Riecoin.Wallet.BranchAndBound
import Riecoin.Wallet.BranchAndBoundSearch
