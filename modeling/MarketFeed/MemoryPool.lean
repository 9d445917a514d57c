import MarketFeed.Lib.Run

/-!
# The memory pool

`MemoryPool` of `include/common/memory_pool.h`: `N` nodes, each with the storage of one object, and a free list threaded through
the nodes that are not in use. A pointer to an object is a pointer to its node, since the storage is the first member. `α` is the type
of the objects; what a constructor makes of its arguments is the argument of `alloc`.
-/

namespace MarketFeed

/-- A pointer to a node of the pool; `none` is `nullptr`. -/
abbrev PoolPtr (N : UInt64) := Option (Fin N.toNat)

/-- `MemoryPool`: of the nodes the object that is in the storage, if there is one, and `next`. -/
structure MemoryPool (α : Type) (N : UInt64) where
  storage : Fin N.toNat → Option α
  next : Fin N.toNat → PoolPtr N
  freeList : PoolPtr N
  inUse : UInt64

namespace MemoryPool

variable {α : Type} {N : UInt64}

/-- A node in front of the free list: `node->next = free_list_; free_list_ = node`. -/
def push (p : MemoryPool α N) (node : Fin N.toNat) : MemoryPool α N :=
  { p with next := Function.update p.next node p.freeList, freeList := some node }

/-- The members as they are initialised. -/
def blank (α : Type) (N : UInt64) : MemoryPool α N :=
  { storage := fun _ => none, next := fun _ => none, freeList := none, inUse := 0 }

/-- The constructor: the nodes are put on the free list one after the other. -/
def create (α : Type) (N : UInt64) : MemoryPool α N := (List.finRange N.toNat).foldl push (blank α N)

/-- `alloc`, of an object whose constructor does not throw. -/
def alloc (p : MemoryPool α N) (object : α) : MemoryPool α N × PoolPtr N :=
  match p.freeList with
  | none => (p, none)
  | some node =>
    ({ p with
      freeList := p.next node
      inUse := p.inUse + 1
      storage := Function.update p.storage node (some object) }, some node)

/-- `free`: the object is destroyed and its node goes back on the free list. -/
def free (p : MemoryPool α N) : PoolPtr N → MemoryPool α N
  | none => p
  | some node =>
    let p := { p with storage := Function.update p.storage node none }.push node
    { p with inUse := p.inUse - 1 }

/-- `capacity`. -/
def capacity (_ : MemoryPool α N) : UInt64 := N

/-- `available`. -/
def available (p : MemoryPool α N) : UInt64 := N - p.inUse

end MemoryPool

/-! ## Runs -/

/-- The pool and, for the record, the live objects: what was allocated and not freed since, with the pointers returned. -/
structure PoolSys (α : Type) (N : UInt64) where
  pool : MemoryPool α N
  live : List (Fin N.toNat × α)

/-- The calls. -/
inductive PoolCall (α : Type) (N : UInt64) where
  | alloc (object : α)
  | free (ptr : PoolPtr N)

namespace PoolSys

variable {α : Type} {N : UInt64}

def init (α : Type) (N : UInt64) : PoolSys α N := { pool := .create α N, live := [] }

/-- The pointers held. -/
def pointers (s : PoolSys α N) : List (Fin N.toNat) := s.live.map Prod.fst

/-- A call. `free` is given `nullptr` or the pointer of a live object. -/
def step (s : PoolSys α N) : PoolCall α N → Option (PoolSys α N)
  | .alloc object =>
    let r := s.pool.alloc object
    some { pool := r.1, live := (r.2.map fun ptr => (ptr, object)).toList ++ s.live }
  | .free none => some { s with pool := s.pool.free none }
  | .free (some node) =>
    if node ∈ s.pointers then some { pool := s.pool.free (some node), live := s.live.filter fun o => o.1 ≠ node } else none

end PoolSys

end MarketFeed
