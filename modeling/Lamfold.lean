import Lamfold.Effects
import Lamfold.Bytes
import Lamfold.Substrate
import Lamfold.HashTree
import Lamfold.Verity
import Lamfold.VerityTree
import Lamfold.VerityBinding
import Lamfold.VerityBlocks
import Lamfold.Utf8
import Lamfold.Path
import Lamfold.PathResolution
import Lamfold.Streams
import Lamfold.Cpio
import Lamfold.CpioTree
import Lamfold.CpioGrammar
import Lamfold.CpioChain
import Lamfold.CpioLastRecord
import Lamfold.Codec
import Lamfold.ErofsIndex
import Lamfold.BitPack
import Lamfold.ErofsCompact
import Lamfold.ErofsRoundTrip
import Lamfold.ErofsDecode
import Lamfold.ErofsVolume
import Lamfold.Erofs
import Lamfold.ErofsState
import Lamfold.ErofsPlacement
import Lamfold.ErofsShepherd
import Lamfold.PathReading
import Lamfold.ErofsTrusted
import Lamfold.Cramfs
import Lamfold.Intern
import Lamfold.Romfs
import Lamfold.Udf
import Lamfold.Answers
import Lamfold.CramfsPages
import Lamfold.UdfState
import Lamfold.UdfAddresses
import Lamfold.Squash
import Lamfold.SquashOffsets
import Lamfold.SquashState
import Lamfold.ElTorito
import Lamfold.Iso9660
import Lamfold.IsoState
import Lamfold.Chains
import Lamfold.IsoAnswers
import Lamfold.Flock
import Lamfold.NodeKinds
import Lamfold.Probes
import Lamfold.ZisofsBlocks
import Lamfold.WholeReads
import Lamfold.CpioRuns
import Lamfold.CpioSound
import Lamfold.ErofsAgreement
import Lamfold.ErofsChecked
import Lamfold.ErofsCaches
import Lamfold.ErofsSums
import Lamfold.ErofsOffsets
import Lamfold.ErofsContent
import Lamfold.ErofsStreams
import Lamfold.SquashContent
import Lamfold.NodeIdentity
import Lamfold.NodeTables
import Lamfold.StableNodes
import Lamfold.CpioNames
import Lamfold.CpioLinks
import Lamfold.Loops
import Lamfold.DecodeStream
import Lamfold.StreamBounds
import Lamfold.Noted
import Lamfold.Requests
import Lamfold.CramfsRequests
import Lamfold.UdfRequests
import Lamfold.PlainRequests
import Lamfold.SquashRequests
import Lamfold.IsoRequests
import Lamfold.ErofsRequests
import Lamfold.RequestCaps
import Lamfold.CramfsPlaces
import Lamfold.RomfsChain
import Lamfold.ZisofsTable
import Lamfold.UdfContent
import Lamfold.UdfListing
import Lamfold.Crc
import Lamfold.GzipMember
import Lamfold.ErofsListing
import Lamfold.SquashListing
import Lamfold.RockRidgeSplit
import Lamfold.IsoListing
import Lamfold.IsoFiles
import Lamfold.VerityRounds
import Lamfold.ElToritoCatalog
import Lamfold.VerityMembership
import Lamfold.SquashSpans
import Lamfold.Lz4Framing
import Lamfold.BlockCache
import Lamfold.CacheRuns
import Lamfold.Fields
import Lamfold.FileGraph
import Lamfold.Presents
import Lamfold.RomfsFiles
import Lamfold.CramfsFiles
import Lamfold.TableFiles
import Lamfold.SquashFiles
import Lamfold.ErofsStored
import Lamfold.ErofsFiles
import Lamfold.UdfFiles
import Lamfold.RockRidgeRecords
import Lamfold.IsoDescriptors
import Lamfold.IsoStored
import Lamfold.CpioStored
import Lamfold.StreamReaders
import Lamfold.Initramfs
