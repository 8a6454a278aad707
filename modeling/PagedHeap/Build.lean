import PagedHeap.Page.Supplier

/-!
# Builds

The allocator is built in four ways.  They differ in whether threads share it, in where
pages come from, and in what happens when memory runs out.
-/

namespace PagedHeap

/-- Whether many threads use the allocator or only one. -/
inductive Threading where
  | shared
  | exclusive
  deriving DecidableEq, Repr

/-- The ways in which the allocator is built. -/
inductive Build where
  /-- Many threads, huge pages. -/
  | standard
  /-- One thread, plain pages. -/
  | singleThread
  /-- Many threads, huge pages, and the program break for everything else. -/
  | breakBacked
  /-- Many threads, huge pages, and running out of memory ends the process. -/
  | neverFailing
  deriving DecidableEq, Repr

namespace Build

/-- Who uses the allocator. -/
def threading : Build → Threading
  | singleThread => .exclusive
  | standard | breakBacked | neverFailing => .shared

/-- Whether running out of memory ends the process. -/
def neverFails : Build → Bool
  | neverFailing => true
  | standard | singleThread | breakBacked => false

/-- Where the pages of the process-wide heap come from. -/
def pageConfig : Build → PageConfig
  | standard | neverFailing => { useBreak := false, hugePages := true }
  | singleThread => { useBreak := false, hugePages := false }
  | breakBacked => { useBreak := true, hugePages := true }

end Build
end PagedHeap
