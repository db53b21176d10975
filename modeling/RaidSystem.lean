import RaidSystem.CacheTransparency
import RaidSystem.MirrorGuarantees
import RaidSystem.Capacity
import RaidSystem.TableBounds
import RaidSystem.FailureCount
import RaidSystem.Destruction
import RaidSystem.Forgetting
import RaidSystem.UserBuffer
import RaidSystem.BlockTransfers
import RaidSystem.Serialisability
import RaidSystem.FailureOrder
import RaidSystem.Pipes
import RaidSystem.BufferCache
import RaidSystem.MkfsAgreement
import RaidSystem.ReserveDisk
import RaidSystem.MetadataCopies
import RaidSystem.MetadataPage
import RaidSystem.ParityInverse
import RaidSystem.StripeLoading
import RaidSystem.ForkExec
import RaidSystem.CrashedWrites
import RaidSystem.SleepLocks
