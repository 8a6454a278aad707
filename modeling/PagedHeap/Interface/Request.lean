import PagedHeap.Interface.Answer
import PagedHeap.Interface.CFunctions
import PagedHeap.Interface.Layout

/-!
# Requests to the heap

Everything that a thread can ask of the process-wide heap, as data.  `Heap.serve` is the
heap as a server of requests; a run of the heap is a list of requests served one after
the other.
-/

namespace PagedHeap

/-- What a thread asks of the heap.  A pointer may be missing. -/
inductive HeapRequest where
  | allocate (size : Nat) (opts : AllocOptions)
  | reallocate (pointer? : Option Nat) (size : Nat) (opts : AllocOptions)
  | reclaim (pointer? : Option Nat)
  | reclaimSized (pointer? : Option Nat) (size : Nat)
  | allocatedSize (pointer? : Option Nat)
  | trim (pad : Nat)
  | trimPages (pad : Nat)
  | flushOwn
  | flushFallback
  | tryAllocateLayout (l : Layout)
  | allocateLayout (l : Layout) (zeroed : Bool)
  | deallocateLayout (pointer? : Option Nat) (l : Layout)
  | reallocateLayout (pointer? : Option Nat) (l : Layout) (size : Nat)
  | allocateSlice (l : Layout) (zeroed : Bool)
  | deallocateSlice (pointer? : Option Nat) (l : Layout)
  | resizeSlice (pointer? : Option Nat) (old new : Layout)
  | growSliceZeroed (pointer? : Option Nat) (old new : Layout)
  | malloc (size : Nat)
  | calloc (count size : Nat)
  | realloc (pointer? : Option Nat) (size : Nat)
  | alignedAlloc (align size : Nat)
  | posixMemalign (align size : Nat)

namespace Heap

/-- Serve a request of thread `t`. -/
def serve (t : Nat) : HeapRequest → Action Heap Answer
  | .allocate size opts => .pointer <$> allocate t size opts
  | .reallocate pointer? size opts => .pointer <$> reallocate t pointer? size opts
  | .reclaim pointer? => (fun _ => .done) <$> reclaim t pointer?
  | .reclaimSized pointer? size => (fun _ => .done) <$> reclaimSized t pointer? size
  | .allocatedSize pointer? => .size <$> allocatedSize pointer?
  | .trim pad => .flag <$> trim t pad
  | .trimPages pad => .size <$> trimPages pad
  | .flushOwn => (fun _ => .done) <$> flushOwn t
  | .flushFallback => (fun _ => .done) <$> flushFallback
  | .tryAllocateLayout l => .ofExcept <$> tryAllocateLayout t l
  | .allocateLayout l zeroed => .pointer <$> allocateLayout t l zeroed
  | .deallocateLayout pointer? l => (fun _ => .done) <$> deallocateLayout t pointer? l
  | .reallocateLayout pointer? l size => .pointer <$> reallocateLayout t pointer? l size
  | .allocateSlice l zeroed => .slice <$> allocateSlice t l zeroed
  | .deallocateSlice pointer? l => (fun _ => .done) <$> deallocateLayout t pointer? l
  | .resizeSlice pointer? _ new => .slice <$> resizeSlice t pointer? new
  | .growSliceZeroed pointer? old new => .slice <$> growSliceZeroed t pointer? old new
  | .malloc size => .pointer <$> malloc t size
  | .calloc count size => .pointer <$> calloc t count size
  | .realloc pointer? size => .pointer <$> realloc t pointer? size
  | .alignedAlloc align size => .pointer <$> alignedAlloc t align size
  | .posixMemalign align size => .aligned <$> posixMemalign t align size

end Heap
end PagedHeap
