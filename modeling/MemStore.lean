import MemStore.Expiry.Forecast
import MemStore.Expiry.Reapplying
import MemStore.Expiry.Reinitialising
import MemStore.Expiry.Retention
import MemStore.Expiry.Revival
import MemStore.KeyValue.DanglingCache
import MemStore.KeyValue.Enumeration
import MemStore.KeyValue.FailedWrites
import MemStore.KeyValue.LastWrite
import MemStore.Memory.Growth
import MemStore.Memory.Leaks
import MemStore.Memory.QuotaArithmetic
import MemStore.Natives.Counters
import MemStore.Natives.Handing
import MemStore.Ranking.Commuting
import MemStore.Ranking.Increments
import MemStore.Ranking.Pages
import MemStore.Ranking.Positions
import MemStore.Ranking.Resubmission
import MemStore.Ranking.RowBuffer
import MemStore.Ranking.Scoreboard
import MemStore.Reading.LazyPurging
import MemStore.Runs.Arrangement
