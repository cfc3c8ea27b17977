import Embark.Lib.BinTree
import Embark.Lib.Machine
import Embark.Tree.Scapegoat
import Embark.Tree.Invariant
import Embark.Lib.Dyadic
import Embark.Lib.Scale
import Embark.Ope.Gaps
import Embark.Ope.PrefixMatch
import Embark.Gateway.Fields
import Embark.Gateway.Flow
import Embark.Gateway.Reverse
import Embark.BlindBox.Filter
import Embark.Crypto.LazySample
import Embark.Crypto.Ope
import Embark.Dpi.Pool
import Embark.Dpi.Push
import Embark.Proxy.Codec
import Embark.Trie.TrieSet
import Embark.Dpi.Coverage
import Embark.Dpi.Payload
import Embark.Dpi.Safety
import Embark.Gateway.Assertions
import Embark.Gateway.Encryptor
import Embark.Lib.Levels
import Embark.Ope.Height
import Embark.Proxy.Checksum
import Embark.Proxy.Reads
import Embark.Proxy.Survival
import Embark.BlindBox.Pending
import Embark.Crypto.Termination
import Embark.Gateway.Benchmark
import Embark.Gateway.Decode
import Embark.Gateway.HotSwap
import Embark.Gateway.LoaderErrors
import Embark.Ope.Construction
import Embark.Ope.Moves
import Embark.Proxy.Client
import Embark.Dpi.Agreement
import Embark.Dpi.Chain
import Embark.Dpi.SnortText
import Embark.Gateway.AesForward
import Embark.Tree.Remove
import Embark.Lib.LinkedTree
import Embark.Tree.Nodes
import Embark.BlindBox.McsLock
import Embark.BlindBox.GlobalTable
import Embark.Gateway.Decision
import Embark.Lib.Aes
import Embark.Crypto.AesNi
import Embark.Dpi.TokenCipher
import Embark.Lib.Buckets
import Embark.Click.HashContainer
import Embark.Click.HashTable
import Embark.Gateway.FlowTables
import Embark.Proxy.Server
