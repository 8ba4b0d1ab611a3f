import Mathlib.Tactic
import CoroutineScheduler.Lib.Splice

/-!
# The paged byte array

`ByteArray` keeps its bytes in a linked list of nodes of `m_baseSize` bytes. The nodes are listed
from `m_root` on and a node pointer is the number of the node, so `next` of node `i` is `i + 1`,
or null when `i` is the last one. The cursor is kept twice, as `m_position` and as the node
`m_cur`, and `m_cur` is null when the cursor stands at the end of the last node.

The loops of the source walk along the list from `m_cur`; here they recurse on the nodes from
there on. Sizes are natural numbers: they stay far below `2 ^ 52`, where
`ceil(1.0 * size / m_baseSize)` is exact and no `size_t` wraps.
-/

namespace CoroutineScheduler

open Splice

/-- `BIN_LITTLE_ENDIAN` and `BIN_BIG_ENDIAN`. -/
inductive Endian
  | little | big
  deriving DecidableEq, Repr

/-- The fields of `ByteArray`. A node is the list of its bytes, `node->size` is their number.
`heap` is what fresh memory is going to contain: `new char[s]` does not initialise it, so nothing
is ever assumed of it. -/
structure ByteArray where
  baseSize : ℕ
  position : ℕ
  capacity : ℕ
  size : ℕ
  endian : Endian
  nodes : List (List UInt8)
  cur : Option ℕ
  heap : ℕ → UInt8

namespace ByteArray

/-- What ends an operation early: `std::out_of_range` with its text, a null node pointer that is
dereferenced, a store past the end of the local array `tmp`, or `std::length_error`. -/
inductive Fault
  | outOfRange (what : String)
  | nullNode
  | overrun
  | lengthError
  deriving DecidableEq, Repr

/-- Operations on the array. The state at a throw is the state the caller finds. -/
abbrev M := EStateM Fault ByteArray

/-- The bytes of a node that `new Node(base_size)` makes. -/
def fresh (baseSize : ℕ) (heap : ℕ → UInt8) : List UInt8 := (List.range baseSize).map heap

/-- `ByteArray(size_t base_size)`. -/
def new (baseSize : ℕ) (heap : ℕ → UInt8) : ByteArray where
  baseSize := baseSize
  position := 0
  capacity := baseSize
  size := 0
  endian := .big
  nodes := [fresh baseSize heap]
  cur := some 0
  heap := fun k => heap (baseSize + k)

/-- The pointer to node `i`, null past the last one. -/
def pointer (b : ByteArray) (i : ℕ) : Option ℕ := if i < b.nodes.length then some i else none

/-- The bytes of all nodes in a row. -/
def bytes (b : ByteArray) : List UInt8 := b.nodes.flatten

/-- `getReadSize()`; `m_position <= m_size` always holds (`Valid`), so nothing wraps. -/
def getReadSize (b : ByteArray) : ℕ := b.size - b.position

/-- `getCapacity()`: the bytes that can be written without a new node. -/
def getCapacity (b : ByteArray) : ℕ := b.capacity - b.position

/-- `setIsLittleEndian`. -/
def setIsLittleEndian (b : ByteArray) (val : Bool) : ByteArray :=
  { b with endian := if val then .little else .big }

/-! ## Capacity -/

/-- The loop of `addCapacity` that appends `count` nodes at the tail. -/
def addNodes : ℕ → ByteArray → ByteArray
  | 0, b => b
  | count + 1, b =>
    addNodes count
      { b with
        nodes := b.nodes ++ [fresh b.baseSize b.heap]
        capacity := b.capacity + b.baseSize
        heap := fun k => b.heap (b.baseSize + k) }

/-- `addCapacity`. The `ceil` is written with integers, and `first` is null if no node was
added. -/
def addCapacity (b : ByteArray) (size : ℕ) : ByteArray :=
  if size = 0 then b
  else
    let oldCap := b.getCapacity
    if oldCap ≥ size then b
    else
      let count := (size - oldCap + b.baseSize - 1) / b.baseSize
      let first := if 0 < count then some b.nodes.length else none
      let b' := b.addNodes count
      if oldCap = 0 then { b' with cur := first } else b'

/-- `clear`: all nodes but the root are deleted. -/
def clear (b : ByteArray) : ByteArray :=
  { b with
    position := 0
    size := 0
    capacity := b.baseSize
    nodes := b.nodes.take 1
    cur := some 0 }

/-! ## Copying -/

/-- The loop of `write`, on the nodes from `m_cur` on: those nodes afterwards, and how many of them
`m_cur` has left behind. It is `none` when `m_cur->size` is read and `m_cur` is null. -/
def writeLoop : List (List UInt8) → ℕ → List UInt8 → Option (List (List UInt8) × ℕ)
  | [], _, _ => none
  | node :: nodes, npos, buf =>
    let ncap := node.length - npos
    if buf.length = 0 then some (node :: nodes, 0)
    else if ncap ≥ buf.length then
      some (patch node npos buf :: nodes, if node.length = npos + buf.length then 1 else 0)
    else
      (writeLoop nodes 0 (buf.drop ncap)).map fun r =>
        (patch node npos (buf.take ncap) :: r.1, r.2 + 1)

/-- The loop of `read`: the bytes copied, and how many nodes `m_cur` has left behind. -/
def readLoop : List (List UInt8) → ℕ → ℕ → Option (List UInt8 × ℕ)
  | [], _, _ => none
  | node :: nodes, npos, size =>
    let ncap := node.length - npos
    if size = 0 then some ([], 0)
    else if ncap ≥ size then
      some (slice node npos size, if node.length = npos + size then 1 else 0)
    else
      (readLoop nodes 0 (size - ncap)).map fun r => (slice node npos ncap ++ r.1, r.2 + 1)

/-- `write(buf, size)`. -/
def write (buf : List UInt8) : M Unit := fun b =>
  if buf.length = 0 then .ok () b
  else
    let b := b.addCapacity buf.length
    match b.cur with
    | none => .error .nullNode b
    | some i =>
      match writeLoop (b.nodes.drop i) (b.position % b.baseSize) buf with
      | none => .error .nullNode b
      | some (nodes, k) =>
        let position := b.position + buf.length
        .ok ()
          { b with
            nodes := b.nodes.take i ++ nodes
            cur := b.pointer (i + k)
            position := position
            size := if position > b.size then position else b.size }

/-- `read(buf, size)`. The node is dereferenced for every size, also for zero. -/
def read (size : ℕ) : M (List UInt8) := fun b =>
  if size > b.getReadSize then .error (.outOfRange "not enough len") b
  else
    match b.cur with
    | none => .error .nullNode b
    | some i =>
      match readLoop (b.nodes.drop i) (b.position % b.baseSize) size with
      | none => .error .nullNode b
      | some (buf, k) => .ok buf { b with cur := b.pointer (i + k), position := b.position + size }

/-- The walk of `setPosition` from the root: the number of nodes it goes past. -/
def seek : List (List UInt8) → ℕ → Option ℕ
  | [], _ => none
  | node :: nodes, val =>
    if val > node.length then (seek nodes (val - node.length)).map (· + 1)
    else if val = node.length then some 1
    else some 0

/-- `setPosition`. -/
def setPosition (val : ℕ) : M Unit := fun b =>
  if val > b.capacity then .error (.outOfRange "set_position out of range") b
  else
    let b := { b with position := val, size := if val > b.size then val else b.size }
    match seek b.nodes val with
    | none => .error .nullNode b
    | some k => .ok () { b with cur := b.pointer k }

/-! ## Buffers for scatter and gather -/

/-- An `iovec` into the array: `iov_base` is `ptr + offset` of a node. -/
structure Iovec where
  node : ℕ
  offset : ℕ
  len : ℕ
  deriving DecidableEq, Repr

/-- The loop of `getReadBuffers` and `getWriteBuffers`, on the nodes from number `i` on. -/
def iovLoop : ℕ → List (List UInt8) → ℕ → ℕ → Option (List Iovec)
  | _, [], _, _ => none
  | i, node :: nodes, npos, len =>
    let ncap := node.length - npos
    if len = 0 then some []
    else if ncap ≥ len then some [⟨i, npos, len⟩]
    else (iovLoop (i + 1) nodes 0 (len - ncap)).map (⟨i, npos, ncap⟩ :: ·)

/-- The walk from `m_cur`: what is pushed to `buffers`. -/
def iovecs (b : ByteArray) (len : ℕ) : EStateM.Result Fault ByteArray (List Iovec) :=
  match b.cur.bind fun i => iovLoop i (b.nodes.drop i) (b.position % b.baseSize) len with
  | none => .error .nullNode b
  | some iovs => .ok iovs b

/-- `getReadBuffers(buffers, len)`. -/
def getReadBuffers (len : ℕ) : M (List Iovec) := fun b =>
  let len := if len > b.getReadSize then b.getReadSize else len
  if len = 0 then .ok [] b else b.iovecs len

/-- `getWriteBuffers(buffers, len)`. -/
def getWriteBuffers (len : ℕ) : M (List Iovec) := fun b =>
  if len = 0 then .ok [] b else (b.addCapacity len).iovecs len

end ByteArray

end CoroutineScheduler
