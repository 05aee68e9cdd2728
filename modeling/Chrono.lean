import Chrono.Cache.Compaction
import Chrono.Cache.Consumer
import Chrono.Cache.Durability
import Chrono.Cache.Expiry
import Chrono.Cache.InitWorker
import Chrono.Cache.Restored
import Chrono.Cache.Sections
import Chrono.Cache.Sessions
import Chrono.Client.Client
import Chrono.Cache.Topic
import Chrono.Client.Methods
import Chrono.KvStore.Alone
import Chrono.KvStore.Identity
import Chrono.KvStore.LoadFactor
import Chrono.KvStore.Nodes
import Chrono.KvStore.Serial
import Chrono.KvStore.Progress
import Chrono.Server.Deletions
import Chrono.Server.EventLoop
import Chrono.Server.FrameAccesses
import Chrono.Server.ManyClients
import Chrono.Server.Numerals
import Chrono.Server.ParserBounds
import Chrono.Server.ScoreTexts
import Chrono.SortedSets.Depth
import Chrono.SortedSets.HeapSets
import Chrono.SortedSets.Rank
import Chrono.SortedSets.ScoreMaps
