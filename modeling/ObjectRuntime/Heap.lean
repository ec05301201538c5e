import ObjectRuntime.Cell
import ObjectRuntime.Ratio

/-! The heap: an arena of slots addressed by index and generation. Freeing a slot
moves it to its next generation, so an old handle never names a newer cell.
Collection marks what the roots reach and sweeps the rest. -/

namespace ObjectRuntime

structure Slot where
  generation : UInt32 := 0
  cell : Option Cell := none
  pinned : Bool := false
deriving Inhabited

/-- Values kept alive on request, each under an id. A spent entry is reused, the latest spent first.
An id is the position of an entry in a word of 32 bits, so behind 2 ^ 32 entries ids repeat. -/
structure Roots where
  entries : Array (Option Val) := #[]
  free : List Nat := []
deriving Inhabited

namespace Roots

def register (rs : Roots) (v : Val) : UInt32 × Roots :=
  match rs.free with
  | i :: free => (.ofNat i, ⟨rs.entries.setIfInBounds i (some v), free⟩)
  | [] => (.ofNat rs.entries.size, ⟨rs.entries.push (some v), []⟩)

def unregister (rs : Roots) (id : UInt32) : Option Val × Roots :=
  match rs.entries.getD id.toNat none with
  | some v => (some v, ⟨rs.entries.setIfInBounds id.toNat none, id.toNat :: rs.free⟩)
  | none => (none, rs)

def count (rs : Roots) : Nat := rs.entries.size - rs.free.length

def values (rs : Roots) : List Val := rs.entries.toList.filterMap id

end Roots

structure Heap where
  slots : Array Slot := #[]
  free : List Nat := []
  live : Nat := 0
  pinned : Nat := 0
  roots : Roots := {}
  initialThreshold : Nat
  threshold : Nat
  ratio : Ratio
  collections : Nat := 0
  lastFreed : Nat := 0
deriving Inhabited

namespace Heap

def empty (threshold : Nat) (ratio : Ratio) : Heap :=
  { initialThreshold := threshold, threshold, ratio }

/-- Put a cell in the slot freed last, or else in a new one. -/
def alloc (h : Heap) (c : Cell) (pinned : Bool) : Ref × Heap :=
  let counted := { h with live := h.live + 1, pinned := h.pinned + if pinned then 1 else 0 }
  match h.free with
  | i :: free =>
    let generation := (h.slots.getD i default).generation
    (⟨i, generation⟩,
      { counted with slots := h.slots.setIfInBounds i ⟨generation, some c, pinned⟩, free })
  | [] => (⟨h.slots.size, 0⟩, { counted with slots := h.slots.push ⟨0, some c, pinned⟩ })

def cell? (h : Heap) (r : Ref) : Option Cell :=
  match h.slots[r.index]? with
  | some s => if s.generation = r.generation then s.cell else none
  | none => none

def isLive (h : Heap) (r : Ref) : Bool := (h.cell? r).isSome

def modify (h : Heap) (r : Ref) (f : Cell → Cell) : Heap :=
  { h with slots := h.slots.modify r.index fun s =>
      if s.generation = r.generation then { s with cell := s.cell.map f } else s }

def full (h : Heap) : Bool := h.threshold ≤ h.live

/-! ## Marking -/

structure Marking where
  marked : Array Bool
  pending : List Nat

/-- Reach a value: the slot of a live cell is marked once, and followed later. -/
def visit (h : Heap) (m : Marking) (v : Val) : Marking :=
  match v with
  | .cell _ r =>
    if h.isLive r && !m.marked.getD r.index true then
      ⟨m.marked.setIfInBounds r.index true, r.index :: m.pending⟩
    else m
  | _ => m

def cellAt? (h : Heap) (i : Nat) : Option Cell := (h.slots[i]?).bind (·.cell)

def follow (fs : Frames) (h : Heap) : Nat → Marking → Marking
  | 0, m => m
  | fuel + 1, m =>
    match m.pending with
    | [] => m
    | i :: pending =>
      let children := ((h.cellAt? i).map (·.children fs)).getD []
      follow fs h fuel (children.foldl h.visit { m with pending })

def pinnedValues (h : Heap) : List Val :=
  h.slots.toList.zipIdx.filterMap fun (s, i) =>
    match s with
    | ⟨generation, some c, true⟩ => some (.cell c.kind ⟨i, generation⟩)
    | _ => none

/-- The slots reached from `values`, from the registered roots and from the pinned cells. Every
slot is followed at most once. -/
def mark (fs : Frames) (h : Heap) (values : List Val) : Array Bool :=
  let start : Marking := ⟨Array.replicate h.slots.size false, []⟩
  let start := (values ++ h.roots.values ++ h.pinnedValues).foldl h.visit start
  (follow fs h h.slots.size start).marked

/-! ## Sweeping -/

/-- Free the cell in slot `i`: the slot enters its next generation, and is used next. -/
def freeSlot (h : Heap) (i : Nat) (s : Slot) : Heap :=
  { h with
    slots := h.slots.setIfInBounds i { generation := s.generation + 1 }
    free := i :: h.free
    live := h.live - 1 }

def sweepSlot (marked : Array Bool) (h : Heap) (i : Nat) : Heap :=
  match h.slots[i]? with
  | some s =>
    if s.cell.isSome && !s.pinned && !marked.getD i false then
      { h.freeSlot i s with lastFreed := h.lastFreed + 1 }
    else h
  | none => h

def sweep (marked : Array Bool) (h : Heap) : Heap :=
  (List.range h.slots.size).foldl (sweepSlot marked) { h with lastFreed := 0 }

/-- Free what `values`, the registered roots and the pinned cells do not reach, and set the
threshold by what is left. -/
def collect (fs : Frames) (h : Heap) (values : List Val) : Heap :=
  let h := sweep (mark fs h values) h
  { h with
    collections := h.collections + 1
    threshold := max h.initialThreshold (h.ratio.threshold h.live) }

def drainSlot (h : Heap) (i : Nat) : Heap :=
  match h.slots[i]? with
  | some s => if s.cell.isSome then h.freeSlot i s else h
  | none => h

def drain (h : Heap) : Heap :=
  { (List.range h.slots.size).foldl drainSlot h with pinned := 0, roots := {} }

structure Stats where
  live : Nat
  pinned : Nat
  roots : Nat
  collections : Nat
  lastFreed : Nat
  threshold : Nat
deriving DecidableEq

def stats (h : Heap) : Stats :=
  { live := h.live, pinned := h.pinned, roots := h.roots.count, collections := h.collections
    lastFreed := h.lastFreed, threshold := h.threshold }

end Heap
end ObjectRuntime
