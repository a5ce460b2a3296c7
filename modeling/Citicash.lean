import Citicash.Basic.Types
import Citicash.Serialization.BinaryArchive
import Citicash.Serialization.Varint
import Citicash.Lib.BlockCodec
import Citicash.Common.Base58
import Citicash.CryptonoteCore.Address
import Citicash.Wallet.Uri
import Citicash.Ringct.RctOps
import Citicash.Ringct.Mlsag
import Citicash.Ringct.RctSigs
import Citicash.Basic.TxExtra
import Citicash.CryptonoteCore.TxExtraCodec
import Citicash.Lib.MerkleTree
import Citicash.Crypto.TreeHash
import Citicash.CryptonoteCore.BlockHash
import Citicash.Lib.AppendTable
import Citicash.Lib.StateRun
import Citicash.Lib.MultiIndex
import Citicash.BlockchainDb.Lmdb
import Citicash.BlockchainDb.BlockchainDb
import Citicash.BlockchainDb.Frames
import Citicash.BlockchainDb.BlockRows
import Citicash.BlockchainDb.KeyImages
import Citicash.BlockchainDb.Aliases
import Citicash.CryptonoteCore.TxPool
import Citicash.CryptonoteCore.BlockTemplate
import Citicash.CryptonoteCore.FormatUtils
import Citicash.CryptonoteCore.Consensus
import Citicash.CryptonoteCore.ProofOfWork
import Citicash.CryptonoteCore.MinerOutputs
import Citicash.CryptonoteCore.Blockchain
import Citicash.CryptonoteCore.Reorganize
import Citicash.CryptonoteCore.ChainRuns
import Citicash.CryptonoteCore.ChainInvariant
import Citicash.CryptonoteCore.SpentKeys
import Citicash.CryptonoteCore.DifficultyCache
import Citicash.CryptonoteCore.ChainHistory
import Citicash.CryptonoteCore.Emission
import Citicash.CryptonoteCore.HardFork
import Citicash.CryptonoteCore.HardForkInvariant
import Citicash.CryptonoteCore.HardForkRebuild
import Citicash.CryptonoteCore.ScanTable
import Citicash.CryptonoteCore.DynamicFee
import Citicash.CryptonoteProtocol.Handler
import Citicash.CryptonoteProtocol.Synchronisation
import Citicash.P2p.NetPeerlist
import Citicash.Mnemonics.ElectrumWords
