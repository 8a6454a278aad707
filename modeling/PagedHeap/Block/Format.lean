import PagedHeap.Memory
import PagedHeap.Category

/-!
# Runs and nodes in memory

A page of blocks is a run.  Its first block slot holds the header: the category in the
first four bytes and the number of live blocks in the next four.

Free blocks are linked through the blocks themselves.  A node is a span of free blocks
in a row; the first of them holds the address of the next node in eight bytes, zero for
none, and the number of blocks in the span in four bytes behind.
-/

namespace PagedHeap

/-- A span of free blocks. -/
structure Node where
  next? : Option Nat
  count : Nat
  deriving DecidableEq, Repr

namespace Node

/-- The number of bytes that a node takes at the start of its span. -/
def width : Nat := 12

/-- The link of a node as a number. -/
def encodeLink : Option Nat → Nat
  | some address => address
  | none => 0

/-- The link that a number stands for. -/
def decodeLink (n : Nat) : Option Nat :=
  if n = 0 then none else some n

theorem decodeLink_encodeLink {link : Option Nat} (h : link ≠ some 0) :
    decodeLink (encodeLink link) = link := by
  cases link with
  | none => rfl
  | some address =>
    have : address ≠ 0 := fun h' => h (by rw [h'])
    simp [encodeLink, decodeLink, this]

end Node

namespace Memory

/-- The node at an address. -/
def loadNode (m : Memory) (address : Nat) : Node where
  next? := Node.decodeLink (m.load 8 address)
  count := m.load 4 (address + 8)

/-- Keep a node at an address. -/
def storeNode (m : Memory) (address : Nat) (node : Node) : Memory :=
  (m.store 8 address (Node.encodeLink node.next?)).store 4 (address + 8) node.count

/-- The category number in the header of a run. -/
def runCategory (m : Memory) (run : Nat) : Nat := m.load 4 run

/-- The live count in the header of a run. -/
def runLive (m : Memory) (run : Nat) : Nat := m.load 4 (run + 4)

/-- Set the category number in the header of a run. -/
def setRunCategory (m : Memory) (run category : Nat) : Memory := m.store 4 run category

/-- Set the live count in the header of a run. -/
def setRunLive (m : Memory) (run live : Nat) : Memory := m.store 4 (run + 4) live

/-- A node stored is the node loaded, if its link and its count fit. -/
theorem loadNode_storeNode (m : Memory) (address : Nat) (node : Node)
    (hlink : node.next? ≠ some 0) (hnext : Node.encodeLink node.next? < Word.limit)
    (hcount : node.count < 2 ^ 32) :
    (m.storeNode address node).loadNode address = node := by
  obtain ⟨next?, count⟩ := node
  simp only [loadNode, storeNode, Node.mk.injEq]
  constructor
  · rw [load_store_of_disjoint _ _ (by omega), load_store, Nat.mod_eq_of_lt
      (by simpa [Word.limit] using hnext), Node.decodeLink_encodeLink hlink]
  · rw [load_store, Nat.mod_eq_of_lt (by simpa using hcount)]

theorem runLive_setRunLive (m : Memory) (run live : Nat) (h : live < 2 ^ 32) :
    (m.setRunLive run live).runLive run = live := by
  rw [runLive, setRunLive, load_store, Nat.mod_eq_of_lt (by simpa using h)]

theorem runCategory_setRunLive (m : Memory) (run live : Nat) :
    (m.setRunLive run live).runCategory run = m.runCategory run := by
  rw [runCategory, setRunLive, load_store_of_disjoint _ _ (by omega)]
  rfl

end Memory
end PagedHeap
