import ManagedObject.Lib.Outcome
import ManagedObject.Lib.Run
import ManagedObject.Lib.Handles
import ManagedObject.Lib.Lists
import ManagedObject.Lib.Bytes
import ManagedObject.Lib.Tiling
import ManagedObject.Lib.Probe
import ManagedObject.Lib.Assoc
import ManagedObject.Lib.Dfs
import ManagedObject.Format.Layout
import ManagedObject.Format.Objects
import ManagedObject.Metadata.Table
import ManagedObject.Metadata.Slots
import ManagedObject.Metadata.Invariant
import ManagedObject.Metadata.Operations
import ManagedObject.Metadata.Runs
import ManagedObject.Metadata.Refinement
import ManagedObject.Metadata.Scanning
import ManagedObject.State.Global
import ManagedObject.Collector.Model
import ManagedObject.Collector.Mark
import ManagedObject.Collector.Invariant
import ManagedObject.Collector.Destroy
import ManagedObject.Collector.Sweep
import ManagedObject.Collector.Visit
import ManagedObject.Collector.Complete
import ManagedObject.Collector.Collect
import ManagedObject.Collector.Runs
import ManagedObject.Collector.Liveness
import ManagedObject.Collector.Destruction
import ManagedObject.Format.Region
import ManagedObject.Format.Methods
import ManagedObject.Format.Walk
import ManagedObject.Pages.Page
import ManagedObject.Pages.PageList
import ManagedObject.Pages.Clients
import ManagedObject.Metadata.Load
import ManagedObject.Metadata.Growth
import ManagedObject.State.Counters
import ManagedObject.Hashmap.Model
import ManagedObject.Hashmap.Probing
import ManagedObject.Hashmap.Region
import ManagedObject.Collector.Entries
import ManagedObject.Collector.Reclaim
import ManagedObject.Collector.Builds
import ManagedObject.Collector.Sharing
import ManagedObject.Collector.Slots
import ManagedObject.Collector.Trail
import ManagedObject.Collector.Reset
import ManagedObject.State.Time
import ManagedObject.Metadata.Extent
import ManagedObject.Metadata.Intern
import ManagedObject.Hashmap.Entries
import ManagedObject.Hashmap.Errors
import ManagedObject.Hashmap.Handover
import ManagedObject.Pages.Resize
import ManagedObject.Pages.Occupancy
import ManagedObject.Lib.Lifetime
import ManagedObject.Pages.Lifetime
import ManagedObject.Format.Blocks
import ManagedObject.Format.Fixing
import ManagedObject.Format.ScanRegion
import ManagedObject.Hashmap.Calls
import ManagedObject.Hashmap.Capacity
import ManagedObject.Hashmap.Collisions
import ManagedObject.Hashmap.Iteration
import ManagedObject.Hashmap.Removing
import ManagedObject.State.Memory
import ManagedObject.Collector.Discipline
import ManagedObject.Collector.Exact
import ManagedObject.Collector.Intact
import ManagedObject.Collector.Schedule
import ManagedObject.Collector.Shutdown
import ManagedObject.Hashmap.Strings
import ManagedObject.Hashmap.Updating
import ManagedObject.Metadata.Pool
