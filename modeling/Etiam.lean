import Etiam.Vote.Pow
import Etiam.Vote.Tally
import Etiam.Vote.Conservation
import Etiam.Producer.GenericIndex
import Etiam.Producer.Overflow
import Etiam.Producer.Restart
import Etiam.Producer.Hardfork
import Etiam.Chain.History
import Etiam.Chain.TreeRoute
import Etiam.Host.BlockHeaders
import Etiam.Chain.BloomSearch
import Etiam.Chain.Blooms
import Etiam.Chain.VerifyBlock
import Etiam.Block.Deferred
import Etiam.Block.HeaderMemo
import Etiam.Producer.Production
import Etiam.Producer.SlotHistory
import Etiam.Producer.RaceCalls
import Etiam.Producer.LapLoop
import Etiam.Producer.PowLoop
import Etiam.Devcore.RlpStream
import Etiam.Vote.Readers
import Etiam.Queue.Priority
import Etiam.Queue.BlockPlaces
import Etiam.Queue.BlockOrder
import Etiam.Sync.Requests
import Etiam.Sync.LastBlocks
import Etiam.Sync.Bodies
import Etiam.Sync.Links
import Etiam.Sync.Search
import Etiam.Devcore.RlpCursor
