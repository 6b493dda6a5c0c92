import Etherzero.Lib.StateExcept
import Etherzero.Lib.BigEndian
import Etherzero.Rlp.Types
import Etherzero.Rlp.Encode
import Etherzero.Rlp.Stream
import Etherzero.Rlp.Decode
import Etherzero.Rlp.Item
import Etherzero.Lemmas.RlpValue
import Etherzero.Lemmas.RlpEncbuf
import Etherzero.Lemmas.RlpWriter
import Etherzero.Lemmas.RlpStream
import Etherzero.Lemmas.RlpRead
import Etherzero.Lemmas.RlpDecoder
import Etherzero.Lemmas.RlpLoops
import Etherzero.Lemmas.RlpPointer
import Etherzero.Lemmas.RlpRoundTrip
import Etherzero.Lemmas.RlpCanonical
import Etherzero.Theorems.Rlp
import Etherzero.Devote.DevoteDB
import Etherzero.Devote.Snapshot
import Etherzero.Lemmas.DevoteStats
import Etherzero.Lemmas.DevoteElection
import Etherzero.Theorems.Devote
import Etherzero.Lib.GoMap
import Etherzero.TxPool.TxList
import Etherzero.Lemmas.TxList
import Etherzero.Theorems.TxPool
import Etherzero.Lib.Journal
import Etherzero.State.StateDB
import Etherzero.Vm.Sstore
import Etherzero.Lemmas.StateView
import Etherzero.Lemmas.Refund
import Etherzero.Theorems.Refund
import Etherzero.State.Power
import Etherzero.Core.StateTransition
import Etherzero.Lemmas.Power
import Etherzero.Lemmas.StateTransition
import Etherzero.Theorems.StateTransition
import Etherzero.Theorems.Transfer
import Etherzero.Types.Signing
import Etherzero.Lemmas.Signing
import Etherzero.Theorems.Signing
import Etherzero.Vm.Analysis
import Etherzero.Lemmas.Analysis
import Etherzero.Theorems.Analysis
import Etherzero.Vm.Memory
import Etherzero.Theorems.MemoryGas
import Etherzero.Lib.Digits
import Etherzero.Common.Hexutil
import Etherzero.Lemmas.Hexutil
import Etherzero.Theorems.Hexutil
import Etherzero.Lib.Bitset
import Etherzero.Common.Bitutil
import Etherzero.Lemmas.Bitutil
import Etherzero.Theorems.Bitutil
import Etherzero.Lib.Search
import Etherzero.Lib.KeySort
import Etherzero.P2p.Discover
import Etherzero.Lemmas.Discover
import Etherzero.Theorems.Discover
import Etherzero.P2p.Netutil
import Etherzero.P2p.Table
import Etherzero.Lemmas.Table
import Etherzero.Theorems.Table
import Etherzero.Contracts.Masternode
import Etherzero.Lemmas.Masternode
import Etherzero.Theorems.Masternode
import Etherzero.Devote.Engine
import Etherzero.Lemmas.DevoteEngine
import Etherzero.Theorems.DevoteEngine
import Etherzero.Lib.GoList
import Etherzero.P2p.Udp
import Etherzero.Lemmas.Udp
import Etherzero.Theorems.Udp
import Etherzero.Eth.MasternodeBackend
import Etherzero.Theorems.MasternodeBackend
import Etherzero.Trie.Encoding
import Etherzero.Theorems.TrieEncoding
import Etherzero.Theorems.RandomNodes
import Etherzero.Les.Flowcontrol
import Etherzero.Theorems.Flowcontrol
import Etherzero.Swarm.Pot
import Etherzero.Theorems.Pot
import Etherzero.Swarm.Bmt
import Etherzero.Lemmas.Bmt
import Etherzero.Theorems.Bmt
import Etherzero.Lib.FoldM
import Etherzero.Trie.Trie
import Etherzero.Lemmas.TrieCache
import Etherzero.Theorems.TrieCache
import Etherzero.Lib.BinTree
import Etherzero.Lib.Threads
import Etherzero.Swarm.BmtTree
import Etherzero.Lemmas.BmtTree
import Etherzero.Lemmas.BmtRef
import Etherzero.Theorems.BmtTree
import Etherzero.Lemmas.TrieMap
import Etherzero.Lemmas.TrieTotal
import Etherzero.Theorems.TrieMap
import Etherzero.Lemmas.TrieCanon
import Etherzero.Lemmas.TrieHash
import Etherzero.Theorems.TrieHash
import Etherzero.Trie.Database
