import Pegasos2.Bytes
import Pegasos2.ByteLooks
import Pegasos2.Nvram
import Pegasos2.BootKernel
import Pegasos2.BootPlacement
import Pegasos2.PciConfig
import Pegasos2.PciFabric
import Pegasos2.PciWalker
import Pegasos2.PciFunction
import Pegasos2.PciTraversal
import Pegasos2.PciNumbering
import Pegasos2.Packing
import Pegasos2.PciAllocation
import Pegasos2.PciWindows
import Pegasos2.PciBars
import Pegasos2.PciResources
import Pegasos2.Console
import Pegasos2.ClientInterface
import Pegasos2.Program
import Pegasos2.Tokens
import Pegasos2.AmigaRdb
import Pegasos2.PartitionPkg
import Pegasos2.PartitionMethods
import Pegasos2.FileSystem
import Pegasos2.IdeDma
import Pegasos2.Generators
import Pegasos2.FfsRoundTrip
import Pegasos2.ExfatAddresses
import Pegasos2.ExfatContents
import Pegasos2.ExfatDirectory
import Pegasos2.AmigaFfs
import Pegasos2.FfsContents
import Pegasos2.FfsPaths
import Pegasos2.PciStatus
import Pegasos2.SmartBoot
import Pegasos2.DramSizing
import Pegasos2.PciTree
import Pegasos2.PciTreeEntries
import Pegasos2.PciTreeAgrees
import Pegasos2.PciTreeWalk
import Pegasos2.PciTreeHost
import Pegasos2.Iso9660
import Pegasos2.IsoReads
import Pegasos2.IsoWalk
import Pegasos2.Iso9660Compat
import Pegasos2.IsoVersions
import Pegasos2.FfsOpen
import Pegasos2.BootAcceptance
import Pegasos2.BootReads
import Pegasos2.RdbSelection
import Pegasos2.PartitionReads
import Pegasos2.VolumeBlocks
import Pegasos2.SfsExtents
import Pegasos2.PfsAnodes
import Pegasos2.PathWalks
import Pegasos2.SfsDirectories
import Pegasos2.SfsPaths
import Pegasos2.PfsDirectories
import Pegasos2.PfsPaths
import Pegasos2.ListedFound
import Pegasos2.PciTranslation
import Pegasos2.FfsTermination
import Pegasos2.FileChains
import Pegasos2.ExfatChains
import Pegasos2.FfsTables
import Pegasos2.WholeFiles
import Pegasos2.Timer
import Pegasos2.NextProp
import Pegasos2.PciBarSizes
import Pegasos2.PciForwarding
import Pegasos2.BlockReads
import Pegasos2.SfsBounds
import Pegasos2.FfsBounds
import Pegasos2.FileStores
import Pegasos2.PfsBounds
import Pegasos2.ExfatBounds
import Pegasos2.RdbBounds
import Pegasos2.DiskBounds
import Pegasos2.MemoryNode
import Pegasos2.ForthSystem
