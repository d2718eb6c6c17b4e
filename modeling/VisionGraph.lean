import VisionGraph.Command.World
import VisionGraph.Main
import VisionGraph.Proofs.Accounting
import VisionGraph.Proofs.Accumulation
import VisionGraph.Proofs.Allocation
import VisionGraph.Proofs.ChannelInverse
import VisionGraph.Proofs.ConstantScalar
import VisionGraph.Proofs.DeferredFailure
import VisionGraph.Proofs.Duality
import VisionGraph.Proofs.FilterSymmetry
import VisionGraph.Proofs.FusionGroups
import VisionGraph.Proofs.HelperOrder
import VisionGraph.Proofs.Histogram
import VisionGraph.Proofs.InsertionOrder
import VisionGraph.Proofs.ItemViews
import VisionGraph.Proofs.LeastSchedule
import VisionGraph.Proofs.LevelExtents
import VisionGraph.Proofs.LumaThreshold
import VisionGraph.Proofs.Pinning
import VisionGraph.Proofs.PyramidLevels
import VisionGraph.Proofs.Serialization
import VisionGraph.Proofs.StoragePartition
import VisionGraph.Proofs.StoreHistory
import VisionGraph.Proofs.ToolchainIdentity
