import Dgrid.Go.Basic
import Dgrid.Go.Bytes
import Dgrid.Go.Sort
import Dgrid.Go.Binary
import Dgrid.Lib.BitString
import Dgrid.Lib.KeyedList
import Dgrid.Lib.Transition
import Dgrid.Common.BitArray
import Dgrid.Common.BitArraySpec
import Dgrid.Types.Validator
import Dgrid.Types.ValidatorSet
import Dgrid.Types.ValidatorSetSpec
import Dgrid.Types.ValidatorSetInvariant
import Dgrid.Types.Vote
import Dgrid.Types.VoteSet
import Dgrid.Types.Commit
import Dgrid.Types.VoteSetInvariant
import Dgrid.Types.CommitSpec
import Dgrid.Types.CommitSound
import Dgrid.Types.VoteSetOrder
import Dgrid.Types.Evidence
import Dgrid.Types.WeightedTime
import Dgrid.Lib.MerkleTree
import Dgrid.Crypto.Merkle
import Dgrid.Crypto.MerkleSpec
import Dgrid.Go.Encoding
import Dgrid.Crypto.KeyPath
import Dgrid.Crypto.CompactBitArray
import Dgrid.Crypto.CompactBitArraySpec
import Dgrid.Crypto.Multisig
import Dgrid.Crypto.MultisigSpec
import Dgrid.Types.ValidatorSetUpdate
import Dgrid.Types.PartSet
import Dgrid.Types.PartSetSpec
import Dgrid.Consensus.FilePV
import Dgrid.Consensus.FilePVSpec
import Dgrid.Consensus.FilePVSignature
import Dgrid.Lib.LinkedList
import Dgrid.Clist.CList
import Dgrid.Clist.CListSpec
import Dgrid.Go.ContainerList
import Dgrid.Blockchain.Storage
import Dgrid.Blockchain.StorageSpec
import Dgrid.Lib.LRU
import Dgrid.Blockchain.Reap
import Dgrid.Blockchain.TxCache
import Dgrid.Blockchain.Reactor
import Dgrid.Blockchain.Recheck
import Dgrid.Blockchain.TxsAvailable
import Dgrid.Blockchain.ReapGas
import Dgrid.Lib.GoMap
import Dgrid.Lib.Float64
import Dgrid.P2p.NetAddress
import Dgrid.Pex.AddrBook
import Dgrid.Pex.AddrBookSpec
import Dgrid.Pex.AddrBookWf
import Dgrid.Pex.AddrBookInvariant
import Dgrid.Pex.AddrBookFile
import Dgrid.Go.Heap
import Dgrid.P2p.PeerSet
import Dgrid.Go.BytesOrder
import Dgrid.Go.Strconv
import Dgrid.Types.Amino
import Dgrid.Db.MemDB
import Dgrid.Db.MemBatch
import Dgrid.Db.PrefixDB
import Dgrid.Lite.Commit
import Dgrid.Lite.DynamicVerifier
import Dgrid.Lite.Verify
import Dgrid.Lite.DBProvider
import Dgrid.Lite.DBProviderKeys
import Dgrid.Lite.DBProviderSave
import Dgrid.Lite.DBProviderLatest
import Dgrid.Lib.MessageStream
import Dgrid.P2p.Connection
import Dgrid.P2p.ConnectionSpec
import Dgrid.P2p.ConnectionDelivery
import Dgrid.P2p.ConnectionFlush
import Dgrid.P2p.SecretConnection
import Dgrid.P2p.SecretConnectionStream
