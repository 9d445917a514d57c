import MarketFeed.Lib.Run
import MarketFeed.RingBuffer

/-!
# The queue of objects

`SPSCQueue` of `include/common/ring_buffer.h`. Its indices are masked when they are stored, so a full and an empty queue would look
alike and one slot stays unused. The calls are given whole (`push`, `pop`) and cut into their steps (`QueueSys`): the load of the own
index, the load of the other one, the copy of the slot and the store of the own index. One thread pushes and another pops.
-/

namespace MarketFeed

/-- `SPSCQueue`. Only the slots below the capacity are used. -/
structure SPSCQueue (α : Type) (c : Capacity) where
  slots : Nat → α
  head : UInt64
  tail : UInt64

namespace SPSCQueue

variable {α : Type} {c : Capacity}

/-- A new queue. What its slots hold does not matter. -/
def new (c : Capacity) (slots : Nat → α) : SPSCQueue α c := { slots, head := 0, tail := 0 }

/-- The index behind an index. -/
def next (c : Capacity) (index : UInt64) : UInt64 := (index + 1) &&& c.mask

/-- The copy of an item into a slot. -/
def store (q : SPSCQueue α c) (index : UInt64) (item : α) : SPSCQueue α c :=
  { q with slots := Function.update q.slots index.toNat item }

/-- `push`. -/
def push (q : SPSCQueue α c) (item : α) : SPSCQueue α c × Bool :=
  let tail := q.tail
  let nextTail := next c tail
  if nextTail = q.head then (q, false)
  else ({ q.store tail item with tail := nextTail }, true)

/-- `pop`: the item, if there is one. -/
def pop (q : SPSCQueue α c) : SPSCQueue α c × Option α :=
  let head := q.head
  if head = q.tail then (q, none)
  else ({ q with head := next c head }, some (q.slots head.toNat))

end SPSCQueue

/-! ## Two threads -/

/-- Where the pushing thread is in `push`. -/
inductive PushPc (α : Type) where
  | idle
  | called (item : α)
  | loaded (item : α) (tail : UInt64)
  | copying (item : α) (tail next : UInt64)
  | publishing (item : α) (next : UInt64)

/-- Where the popping thread is in `pop`. -/
inductive PopPc (α : Type) where
  | idle
  | called
  | loaded (head : UInt64)
  | copying (head : UInt64)
  | publishing (item : α) (head : UInt64)

/-- The queue with its two threads, and the record of what they did: the items of the calls that returned true, and, for each call
that returned false, how many items were held when it loaded the other index. -/
structure QueueSys (α : Type) (c : Capacity) where
  queue : SPSCQueue α c
  producer : PushPc α
  consumer : PopPc α
  pushed : List α
  popped : List α
  pushFails : List Nat
  popFails : List Nat

/-- The calls, and the next step of each thread. -/
inductive QueueEvent (α : Type) where
  | push (item : α)
  | pushStep
  | pop
  | popStep

namespace QueueSys

variable {α : Type} {c : Capacity}

/-- Before the threads start. -/
def init (c : Capacity) (slots : Nat → α) : QueueSys α c :=
  { queue := .new c slots, producer := .idle, consumer := .idle, pushed := [], popped := [], pushFails := [], popFails := [] }

/-- The number of items held: pushed and not popped. -/
def held (s : QueueSys α c) : Nat := s.pushed.length - s.popped.length

/-- The next step of `push`. -/
def pushStep (s : QueueSys α c) : Option (QueueSys α c) :=
  match s.producer with
  | .idle => none
  | .called item => some { s with producer := .loaded item s.queue.tail }
  | .loaded item tail =>
    if SPSCQueue.next c tail = s.queue.head then some { s with producer := .idle, pushFails := s.pushFails ++ [s.held] }
    else some { s with producer := .copying item tail (SPSCQueue.next c tail) }
  | .copying item tail next => some { s with queue := s.queue.store tail item, producer := .publishing item next }
  | .publishing item next =>
    some { s with queue := { s.queue with tail := next }, producer := .idle, pushed := s.pushed ++ [item] }

/-- The next step of `pop`. -/
def popStep (s : QueueSys α c) : Option (QueueSys α c) :=
  match s.consumer with
  | .idle => none
  | .called => some { s with consumer := .loaded s.queue.head }
  | .loaded head =>
    if head = s.queue.tail then some { s with consumer := .idle, popFails := s.popFails ++ [s.held] }
    else some { s with consumer := .copying head }
  | .copying head => some { s with consumer := .publishing (s.queue.slots head.toNat) head }
  | .publishing item head =>
    some { s with
      queue := { s.queue with head := SPSCQueue.next c head }
      consumer := .idle
      popped := s.popped ++ [item] }

/-- A step of either thread. -/
def step (s : QueueSys α c) : QueueEvent α → Option (QueueSys α c)
  | .push item =>
    match s.producer with
    | .idle => some { s with producer := .called item }
    | _ => none
  | .pushStep => s.pushStep
  | .pop =>
    match s.consumer with
    | .idle => some { s with consumer := .called }
    | _ => none
  | .popStep => s.popStep

/-- While one thread is at the copy of a slot, the other is not at the copy of the same slot. -/
def SlotsApart (s : QueueSys α c) : Prop :=
  ∀ item tail next head, s.producer = .copying item tail next → s.consumer = .copying head → tail ≠ head

/-! ## The steps of a call -/

/-- The steps of a `push` that finds room, one after the other, are the call. -/
theorem exec_push {s : QueueSys α c} (hs : s.producer = .idle) (item : α) (hroom : (s.queue.push item).2 = true) :
    Run.exec step s [.push item, .pushStep, .pushStep, .pushStep, .pushStep] =
      some { s with queue := (s.queue.push item).1, pushed := s.pushed ++ [item] } := by
  obtain ⟨queue, producer, consumer, pushed, popped, pushFails, popFails⟩ := s
  cases hs
  have hne : SPSCQueue.next c queue.tail ≠ queue.head := by
    intro h
    simp [SPSCQueue.push, h] at hroom
  simp [Run.exec, step, pushStep, SPSCQueue.push, hne]

/-- The steps of a `pop` that finds an item, one after the other, are the call. -/
theorem exec_pop {s : QueueSys α c} (hs : s.consumer = .idle) {item : α} (hitem : (s.queue.pop).2 = some item) :
    Run.exec step s [.pop, .popStep, .popStep, .popStep, .popStep] =
      some { s with queue := (s.queue.pop).1, popped := s.popped ++ [item] } := by
  obtain ⟨queue, producer, consumer, pushed, popped, pushFails, popFails⟩ := s
  cases hs
  have hne : queue.head ≠ queue.tail := by
    intro h
    simp [SPSCQueue.pop, h] at hitem
  have hslot : queue.slots queue.head.toNat = item := by simpa [SPSCQueue.pop, hne] using hitem
  simp [Run.exec, step, popStep, SPSCQueue.pop, hne, hslot]

end QueueSys

end MarketFeed
