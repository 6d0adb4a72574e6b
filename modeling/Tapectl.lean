import Tapectl.Collection.Batches
import Tapectl.Dar.CutJoin
import Tapectl.Pipeline.Transparent
import Tapectl.Policy.NewTape
import Tapectl.Policy.Reclaimable
import Tapectl.Restore.ChunkSource
import Tapectl.Restore.FewestLoads
import Tapectl.Restore.ReadBound
import Tapectl.Staging.Covered
import Tapectl.Tape.BlockProtection
import Tapectl.Volume.AcceptedSeals
import Tapectl.Volume.Adopted
import Tapectl.Volume.ReadbackDates
import Tapectl.Volume.SealRoom
import Tapectl.Volume.SpanFinish
import Tapectl.Volume.TenantIndex
