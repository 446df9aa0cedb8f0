import Bifrox.ConsumerGroup.Survival
import Bifrox.Coordinator.Identity
import Bifrox.Coordinator.JoinWindow
import Bifrox.Metadata.Configs
import Bifrox.Metadata.Roster
import Bifrox.Protocol.BatchContents
import Bifrox.Replication.CatchUp
import Bifrox.Replication.Isr
import Bifrox.Replication.Votes
import Bifrox.Sasl.Exchange
import Bifrox.Segment.AbortVerdict
import Bifrox.Segment.CompactionFault
import Bifrox.Segment.Expiry
import Bifrox.Segment.IndexFile
import Bifrox.Segment.LogFile
import Bifrox.Server.ConsumerLoop
import Bifrox.Server.Deletion
import Bifrox.Server.Interleaved
import Bifrox.Server.Placement
import Bifrox.Server.ProducerSnapshot
import Bifrox.Server.Recovery
import Bifrox.Share.DeadLetter
import Bifrox.Share.Fetch
import Bifrox.Share.Locking
import Bifrox.Share.Watermark
import Bifrox.Share.Window
import Bifrox.Transactions.Coordinated
import Bifrox.Transactions.ProducerFencing
import Bifrox.Transactions.ProducerIds
import Bifrox.Transactions.StableOffset
