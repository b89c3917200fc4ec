import Lcryp.Address.Canonical
import Lcryp.Chain.BaseUint
import Lcryp.Chain.HeaderTargets
import Lcryp.Chain.Locator
import Lcryp.Coins.Compression
import Lcryp.Coins.Usage
import Lcryp.Net.Asmap
import Lcryp.Net.BlockDownload
import Lcryp.Net.Reconstruction
import Lcryp.Net.RollingBloom
import Lcryp.Net.TxRequestRuns
import Lcryp.Net.HeadersMessage
import Lcryp.Net.HeadersRelease
import Lcryp.Mempool.Agreement
import Lcryp.Mempool.FeeOverflow
import Lcryp.Mempool.PackageLimits
import Lcryp.Mempool.PackageOrder
import Lcryp.Mempool.Repair
import Lcryp.Mempool.Scores
import Lcryp.Merkle.Extraction
import Lcryp.Mining.CoinbaseHeight
import Lcryp.Mining.Coverage
import Lcryp.Mining.Template
import Lcryp.Pow.Factor
import Lcryp.Pow.Schedule
import Lcryp.Script.ConditionStack
import Lcryp.Script.DescriptorChecksum
import Lcryp.Script.SignatureHash
import Lcryp.Script.Signatures
import Lcryp.Storage.BlockFiles
import Lcryp.Validation.CheckQueue
import Lcryp.Validation.Money
import Lcryp.Validation.Recovery
import Lcryp.Validation.Uniqueness
import Lcryp.Wallet.AddressGroups
import Lcryp.Wallet.FeeCoverage
import Lcryp.Wallet.Solvers
