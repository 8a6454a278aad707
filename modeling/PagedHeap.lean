import PagedHeap.Lock.Contention
import PagedHeap.Machine
import PagedHeap.Proofs.Action
import PagedHeap.Proofs.SizeTable.Probing
import PagedHeap.Proofs.SizeTable.Removal
import PagedHeap.Proofs.SizeTable.FiniteMap
import PagedHeap.Proofs.SizeTable.Ledger
import PagedHeap.Proofs.Kernel.InUse
import PagedHeap.Proofs.Page.Ranges
import PagedHeap.Proofs.Page.Cache
import PagedHeap.Proofs.Page.Evictions
import PagedHeap.Proofs.Page.Coalescing
import PagedHeap.Proofs.Page.Sound
import PagedHeap.Proofs.Page.Obtaining
import PagedHeap.Proofs.Page.Supplier
import PagedHeap.Proofs.Large.Extent
import PagedHeap.Proofs.Large.Sound
import PagedHeap.Proofs.Large.Operations
import PagedHeap.Proofs.Block.Chains
import PagedHeap.Proofs.Block.Pool
import PagedHeap.Proofs.Block.Lists
import PagedHeap.Proofs.Block.Operations
import PagedHeap.Proofs.Block.Cache
import PagedHeap.Proofs.Heap.Counting
import PagedHeap.Proofs.Process.Reallocation
import PagedHeap.Proofs.Process.Conservation
import PagedHeap.Proofs.Heap.Lists
import PagedHeap.Proofs.Process.Lists
import PagedHeap.Proofs.Kernel.Calls
import PagedHeap.Proofs.Page.Trail
import PagedHeap.Proofs.Private.Party
import PagedHeap.Proofs.Private.Serving
import PagedHeap.Proofs.Site.Owners
import PagedHeap.Proofs.Site.Steps
import PagedHeap.Proofs.Site.Order
import PagedHeap.Proofs.Site.Ownership
import PagedHeap.Proofs.Site.ZeroFill
import PagedHeap.Proofs.Site.Breaks
import PagedHeap.Proofs.Site.Books
import PagedHeap.Proofs.Process.Accounting
import PagedHeap.Proofs.Process.Contract
import PagedHeap.Proofs.Site.Failures
import PagedHeap.Proofs.Process.Clients
import PagedHeap.Proofs.Process.Exhaustion
import PagedHeap.Proofs.Process.Reports
import PagedHeap.Proofs.Process.Zeroing
import PagedHeap.Proofs.Process.ThreadCaches
import PagedHeap.Proofs.Process.Detection
import PagedHeap.Proofs.Lock.Exclusion
import PagedHeap.Proofs.Lock.Progress
import PagedHeap.Proofs.Block.Walks
import PagedHeap.Proofs.Block.Stacks
import PagedHeap.Proofs.Site.Stacks
import PagedHeap.Proofs.Site.Coalescing
import PagedHeap.Proofs.Mirrored
import PagedHeap.Proofs.Page.Plain
import PagedHeap.Proofs.Block.Plain
import PagedHeap.Proofs.Large.Plain
import PagedHeap.Proofs.Heap.Unshared
import PagedHeap.Proofs.Heap.Agreement
import PagedHeap.Proofs.Heap.Sessions
import PagedHeap.Proofs.Kernel.Moves
import PagedHeap.Proofs.Page.Descents
import PagedHeap.Proofs.Page.Returning
import PagedHeap.Proofs.Page.Counting
import PagedHeap.Proofs.Site.Trimming
import PagedHeap.Proofs.Site.BreakOrder
import PagedHeap.Proofs.Site.Evictions
import PagedHeap.Proofs.Site.Counters
import PagedHeap.Proofs.Process.Trimming
import PagedHeap.Proofs.Page.Huge
import PagedHeap.Proofs.Page.Extending
import PagedHeap.Proofs.Page.Reclaiming
import PagedHeap.Proofs.Large.Returning
import PagedHeap.Proofs.Site.HugePages
import PagedHeap.Proofs.Site.Extending
import PagedHeap.Proofs.Site.LargeAllocations
import PagedHeap.Proofs.Kernel.Sending
import PagedHeap.Proofs.Kernel.LastWords
import PagedHeap.Proofs.Heap.Limits
