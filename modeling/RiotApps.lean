import RiotApps.Lib.Representative
import RiotApps.Lib.StepSystem
import RiotApps.Caching.BeaconingLaws
import RiotApps.Caching.PacketAccounting
import RiotApps.Caching.OwnData
import RiotApps.Caching.Takeover
import RiotApps.Caching.Relief
import RiotApps.Caching.ShiftLength
import RiotApps.Caching.Exits
import RiotApps.Caching.NameBounds
import RiotApps.Caching.NewestFlag
import RiotApps.Caching.DutyCycle
import RiotApps.Caching.Rejection
import RiotApps.Caching.OwnPaths
import RiotApps.L2Routing.Fetch
import RiotApps.L2Routing.Forwarding
import RiotApps.SixLowApp.PingLaws
import RiotApps.Caching.Hardwired
import RiotApps.Caching.SleepProbability
import RiotApps.Caching.Duplicates
import RiotApps.Caching.Presence
import RiotApps.Caching.OwnPrefix
import RiotApps.Caching.WaitBudget
import RiotApps.Caching.PeriodCounter
import RiotApps.Caching.RefreshCount
import RiotApps.Caching.PrioCount
import RiotApps.Computation.Refactoring
import RiotApps.InriaIndustry.Sense
import RiotApps.DagstuhlDemo.Record
import RiotApps.DagstuhlDemo.Topics
import RiotApps.SixLowApp.WaitTimeout
import RiotApps.L2Routing.RouteLookup
import RiotApps.L2Routing.Bookkeeping
import RiotApps.L2Routing.Accounting
import RiotApps.L2Routing.Completion
import RiotApps.L2Routing.Conservation
import RiotApps.Caching.Seeding
import RiotApps.Lib.ByteOrder
import RiotApps.Lib.Recurrence
import RiotApps.Lib.Streaming
import RiotApps.Sha1Test.Rfc
import RiotApps.Sha1Test.Pd
import RiotApps.Sha1Test.Libsha1
import RiotApps.Sha1Test.Oryx
import RiotApps.Sha1Test.Google
import RiotApps.Caching.Cadence
import RiotApps.Caching.Broadcasts
import RiotApps.Caching.Mesh
import RiotApps.Caching.Provenance
import RiotApps.Caching.Rendezvous
