import MarketFeed.SpscQueue

/-!
# The queue of objects is a bounded FIFO between two threads

Each thread works from its own index and an old copy of the other one, which is only ever behind: items go on being held until the
popping thread stores `head_`, and are held only from the store of `tail_` on.
-/

namespace MarketFeed

namespace SpscFifoAux

variable {α : Type} {c : Capacity}

/-- The index of the `n`-th item. -/
def IndexOf (c : Capacity) (n : Nat) (index : UInt64) : Prop := index.toNat = n % c.val

theorem IndexOf.next {n : Nat} {index : UInt64} (h : IndexOf c n index) : IndexOf c (n + 1) (SPSCQueue.next c index) := by
  unfold IndexOf at h ⊢
  unfold SPSCQueue.next
  rw [c.and_mask, UInt64.toNat_add, UInt64.toNat_one, c.wrap_mod, h, Nat.mod_add_mod]

/-- What the pushing thread knows: the item it is adding is the one behind those pushed, and there is room for it. -/
def ProducerOk (s : QueueSys α c) : Prop :=
  match s.producer with
  | .idle | .called _ => True
  | .loaded _ tail => IndexOf c s.pushed.length tail
  | .copying _ tail next =>
    IndexOf c s.pushed.length tail ∧ IndexOf c (s.pushed.length + 1) next ∧ s.held + 1 < c.val
  | .publishing item next =>
    s.queue.slots (s.pushed.length % c.val) = item ∧ IndexOf c (s.pushed.length + 1) next ∧ s.held + 1 < c.val

/-- What the popping thread knows: the item it is taking is the one behind those popped, and it is held. -/
def ConsumerOk (s : QueueSys α c) : Prop :=
  match s.consumer with
  | .idle | .called => True
  | .loaded head => IndexOf c s.popped.length head
  | .copying head => IndexOf c s.popped.length head ∧ s.popped.length < s.pushed.length
  | .publishing item head => IndexOf c s.popped.length head ∧ s.pushed[s.popped.length]? = some item

/-- The indices count what was pushed and popped, and the items held are in their slots. -/
structure QueueInv (s : QueueSys α c) : Prop where
  tail : IndexOf c s.pushed.length s.queue.tail
  head : IndexOf c s.popped.length s.queue.head
  popped_prefix : s.popped <+: s.pushed
  room : s.held < c.val
  slots : ∀ i, s.popped.length ≤ i → (hi : i < s.pushed.length) → s.queue.slots (i % c.val) = s.pushed[i]
  producer : ProducerOk s
  consumer : ConsumerOk s
  pushFails : ∀ n ∈ s.pushFails, n = c.val - 1
  popFails : ∀ n ∈ s.popFails, n = 0

theorem QueueInv.init (c : Capacity) (slots : Nat → α) : QueueInv (QueueSys.init c slots) where
  tail := (Nat.zero_mod c.val).symm
  head := (Nat.zero_mod c.val).symm
  popped_prefix := List.prefix_rfl
  room := c.pos
  slots := fun _ _ hi => absurd hi (Nat.not_lt_zero _)
  producer := trivial
  consumer := trivial
  pushFails := nofun
  popFails := nofun

/-- The indices meet only when the queue is empty. -/
theorem QueueInv.held_eq_zero {s : QueueSys α c} (h : QueueInv s) (hidx : s.queue.head = s.queue.tail) : s.held = 0 := by
  have hle := h.popped_prefix.length_le
  have hroom := h.room
  have hmod : s.popped.length % c.val = s.pushed.length % c.val := by rw [← h.head, ← h.tail, hidx]
  unfold QueueSys.held at hroom ⊢
  by_contra hne
  exact c.mod_ne (i := s.popped.length) (j := s.pushed.length) (by omega) (by omega) hmod

/-- The index behind the last item meets the first only when one slot is left. -/
theorem QueueInv.held_eq_full {s : QueueSys α c} (h : QueueInv s)
    (hidx : SPSCQueue.next c s.queue.tail = s.queue.head) : s.held = c.val - 1 := by
  have hle := h.popped_prefix.length_le
  have hroom := h.room
  have hmod : s.popped.length % c.val = (s.pushed.length + 1) % c.val := by rw [← h.head, ← h.tail.next, hidx]
  unfold QueueSys.held at hroom ⊢
  by_contra hne
  exact c.mod_ne (i := s.popped.length) (j := s.pushed.length + 1) (by omega) (by omega) hmod

/-! ## What one thread does leaves what the other knows -/

/-- More items may be pushed while the popping thread is in `pop`. -/
theorem ConsumerOk.of_pushed {s s' : QueueSys α c} (h : ConsumerOk s) (hpc : s'.consumer = s.consumer)
    (hpopped : s'.popped = s.popped) (hpushed : s.pushed <+: s'.pushed) : ConsumerOk s' := by
  unfold ConsumerOk at h ⊢
  rw [hpc, hpopped]
  cases hc : s.consumer with
  | idle => trivial
  | called => trivial
  | loaded head =>
    rw [hc] at h
    exact h
  | copying head =>
    rw [hc] at h
    exact ⟨h.1, h.2.trans_le hpushed.length_le⟩
  | publishing item head =>
    rw [hc] at h
    obtain ⟨rest, hrest⟩ := hpushed
    have hlt : s.popped.length < s.pushed.length := (List.getElem?_eq_some_iff.mp h.2).1
    refine ⟨h.1, ?_⟩
    rw [← hrest, List.getElem?_append_left hlt]
    exact h.2

/-- Fewer items may be held while the pushing thread is in `push`. -/
theorem ProducerOk.of_popped {s s' : QueueSys α c} (h : ProducerOk s) (hpc : s'.producer = s.producer)
    (hpushed : s'.pushed = s.pushed) (hslots : s'.queue.slots = s.queue.slots) (hheld : s'.held ≤ s.held) : ProducerOk s' := by
  unfold ProducerOk at h ⊢
  rw [hpc, hpushed, hslots]
  cases hp : s.producer with
  | idle => trivial
  | called item => trivial
  | loaded item tail =>
    rw [hp] at h
    exact h
  | copying item tail next =>
    rw [hp] at h
    obtain ⟨htail, hnext, hroom⟩ := h
    exact ⟨htail, hnext, by omega⟩
  | publishing item next =>
    rw [hp] at h
    obtain ⟨hslot, hnext, hroom⟩ := h
    exact ⟨hslot, hnext, by omega⟩

/-! ## The pushing thread -/

theorem IndexOf.unique {n : Nat} {i j : UInt64} (hi : IndexOf c n i) (hj : IndexOf c n j) : i = j :=
  UInt64.toNat_inj.mp (hi.trans hj.symm)

/-- With the next index different from the first there is room for one more. -/
theorem QueueInv.room_of_ne {s : QueueSys α c} (h : QueueInv s) (hidx : SPSCQueue.next c s.queue.tail ≠ s.queue.head) :
    s.held + 1 < c.val := by
  have hle := h.popped_prefix.length_le
  have hroom := h.room
  by_contra hfull
  refine hidx (h.tail.next.unique ?_)
  have hpushed : s.pushed.length + 1 = s.popped.length + c.val := by
    unfold QueueSys.held at hroom hfull
    omega
  unfold IndexOf
  rw [hpushed, Nat.add_mod_right]
  exact h.head

/-- The slot behind the last item is not that of an item held. -/
theorem QueueInv.slot_ne {s : QueueSys α c} (h : QueueInv s) {i : Nat} (hi : s.popped.length ≤ i) (hlt : i < s.pushed.length) :
    i % c.val ≠ s.pushed.length % c.val := by
  have hroom := h.room
  unfold QueueSys.held at hroom
  exact c.mod_ne hlt (by omega)

theorem QueueInv.pushStep {s s' : QueueSys α c} (h : QueueInv s) (hs : s.pushStep = some s') : QueueInv s' := by
  unfold QueueSys.pushStep at hs
  have hprod := h.producer
  unfold ProducerOk at hprod
  cases hpc : s.producer with
  | idle =>
    rw [hpc] at hs
    cases hs
  | called item =>
    rw [hpc] at hs
    cases hs
    exact { h with producer := h.tail }
  | loaded item tail =>
    rw [hpc] at hs hprod
    have htail : tail = s.queue.tail := hprod.unique h.tail
    subst htail
    dsimp only at hs
    split at hs <;> rename_i hfull
    · cases hs
      refine { h with producer := trivial, pushFails := ?_ }
      intro n hn
      rcases List.mem_append.mp hn with hn | hn
      · exact h.pushFails n hn
      · rw [List.mem_singleton.mp hn]
        exact h.held_eq_full hfull
    · cases hs
      exact { h with producer := ⟨h.tail, h.tail.next, h.room_of_ne hfull⟩ }
  | copying item tail next =>
    rw [hpc] at hs hprod
    cases hs
    obtain ⟨htail, hnext, hroom⟩ := hprod
    refine { h with producer := ⟨?_, hnext, hroom⟩, slots := ?_ }
    · -- the slot written is that of no item held
      intro i hi hlt
      dsimp only [SPSCQueue.store] at hi hlt ⊢
      rw [htail, Function.update_of_ne (h.slot_ne hi hlt)]
      exact h.slots i hi hlt
    · dsimp only [SPSCQueue.store]
      rw [htail, Function.update_self]
  | publishing item next =>
    rw [hpc] at hs hprod
    cases hs
    obtain ⟨hslot, hnext, hroom⟩ := hprod
    refine { h with tail := ?_, popped_prefix := h.popped_prefix.trans (List.prefix_append _ _), room := ?_, slots := ?_,
                    producer := trivial, consumer := ?_ }
    · dsimp only
      rw [List.length_append, List.length_singleton]
      exact hnext
    · unfold QueueSys.held at hroom ⊢
      dsimp only
      rw [List.length_append, List.length_singleton]
      omega
    · intro i hi hlt
      dsimp only at hi hlt ⊢
      by_cases hold : i < s.pushed.length
      · rw [List.getElem_append_left hold]
        exact h.slots i hi hold
      · have hlast : i = s.pushed.length := by
          rw [List.length_append, List.length_singleton] at hlt
          omega
        subst hlast
        rw [List.getElem_concat_length rfl]
        exact hslot
    · exact h.consumer.of_pushed rfl rfl (List.prefix_append _ _)

/-! ## The popping thread -/

/-- A prefix and the element behind it are a prefix. -/
theorem prefix_concat {xs ys : List α} {a : α} (h : xs <+: ys) (ha : ys[xs.length]? = some a) : xs ++ [a] <+: ys := by
  obtain ⟨rest, rfl⟩ := h
  rw [List.getElem?_append_right (Nat.le_refl _), Nat.sub_self] at ha
  cases rest with
  | nil => cases ha
  | cons b rest =>
    cases ha
    exact ⟨rest, by rw [List.append_assoc, List.singleton_append]⟩

theorem QueueInv.popStep {s s' : QueueSys α c} (h : QueueInv s) (hs : s.popStep = some s') : QueueInv s' := by
  unfold QueueSys.popStep at hs
  have hcons := h.consumer
  unfold ConsumerOk at hcons
  cases hpc : s.consumer with
  | idle =>
    rw [hpc] at hs
    cases hs
  | called =>
    rw [hpc] at hs
    cases hs
    exact { h with consumer := h.head }
  | loaded head =>
    rw [hpc] at hs hcons
    have hhead : head = s.queue.head := hcons.unique h.head
    subst hhead
    dsimp only at hs
    split at hs <;> rename_i hempty
    · cases hs
      refine { h with consumer := trivial, popFails := ?_ }
      intro n hn
      rcases List.mem_append.mp hn with hn | hn
      · exact h.popFails n hn
      · rw [List.mem_singleton.mp hn]
        exact h.held_eq_zero hempty
    · cases hs
      refine { h with consumer := ⟨h.head, ?_⟩ }
      have hle := h.popped_prefix.length_le
      by_contra hnone
      have heq : s.popped.length = s.pushed.length := by
        dsimp only at hnone
        omega
      exact hempty (h.head.unique (heq ▸ h.tail))
  | copying head =>
    rw [hpc] at hs hcons
    cases hs
    obtain ⟨hhead, hlt⟩ := hcons
    refine { h with consumer := ⟨hhead, ?_⟩ }
    dsimp only
    rw [hhead, h.slots _ (Nat.le_refl _) hlt, List.getElem?_eq_getElem hlt]
  | publishing item head =>
    rw [hpc] at hs hcons
    cases hs
    obtain ⟨hhead, hitem⟩ := hcons
    obtain ⟨hlt, hget⟩ := List.getElem?_eq_some_iff.mp hitem
    have hlen : (s.popped ++ [item]).length = s.popped.length + 1 := by
      rw [List.length_append, List.length_singleton]
    refine { h with head := ?_, popped_prefix := ?_, room := ?_, slots := ?_, producer := ?_, consumer := trivial }
    · dsimp only
      rw [hlen]
      exact hhead.next
    · exact prefix_concat h.popped_prefix hitem
    · have hroom := h.room
      unfold QueueSys.held at hroom ⊢
      dsimp only
      omega
    · intro i hi
      dsimp only at hi ⊢
      exact h.slots i (by omega)
    · refine h.producer.of_popped rfl rfl rfl ?_
      unfold QueueSys.held
      dsimp only
      omega

theorem QueueInv.step {s s' : QueueSys α c} {e : QueueEvent α} (h : QueueInv s) (hs : s.step e = some s') : QueueInv s' := by
  cases e with
  | push item =>
    simp only [QueueSys.step] at hs
    split at hs <;> cases hs
    exact { h with producer := trivial }
  | pushStep => exact h.pushStep hs
  | pop =>
    simp only [QueueSys.step] at hs
    split at hs <;> cases hs
    exact { h with consumer := trivial }
  | popStep => exact h.popStep hs

/-- The slot being filled is behind those of the items held, the slot being copied out is the first of them. -/
theorem QueueInv.slotsApart {s : QueueSys α c} (h : QueueInv s) : s.SlotsApart := by
  intro item tail next head hp hc
  have hprod := h.producer
  have hcons := h.consumer
  unfold ProducerOk at hprod
  unfold ConsumerOk at hcons
  rw [hp] at hprod
  rw [hc] at hcons
  obtain ⟨hhead, hlt⟩ := hcons
  intro heq
  apply h.slot_ne (Nat.le_refl _) hlt
  rw [← hhead, ← hprod.1, heq]

end SpscFifoAux

open SpscFifoAux

/-- In every state of every interleaving of one pushing and one popping thread: the items popped are a prefix of the items pushed; at
most one less than the capacity are held; a `push` that failed loaded `head_` while that many were held, and a `pop` that failed
loaded `tail_` while none was; and the two threads are never at the copy of the same slot. -/
theorem spsc_fifo {α : Type} (c : Capacity) (slots : Nat → α) (es : List (QueueEvent α)) (s : QueueSys α c)
    (h : Run.exec QueueSys.step (QueueSys.init c slots) es = some s) :
    s.popped <+: s.pushed ∧ s.pushed.length - s.popped.length ≤ c.val - 1 ∧ (∀ n ∈ s.pushFails, n = c.val - 1) ∧
      (∀ n ∈ s.popFails, n = 0) ∧ s.SlotsApart := by
  have hinv : QueueInv s := Run.exec_invariant (fun _ _ _ hi hs => hi.step hs) (QueueInv.init c slots) h
  exact ⟨hinv.popped_prefix, Nat.le_sub_one_of_lt hinv.room, hinv.pushFails, hinv.popFails, hinv.slotsApart⟩

namespace SpscFifoAux

/-- A queue of two slots. -/
def two : Capacity := ⟨2, 1, by decide⟩

/-- A `pop` of the empty queue, a `push`, a second one that finds the queue full while the first item is being popped, and a third
one that goes through after the wrap. -/
def alternatingRun : List (QueueEvent Nat) :=
  [.pop, .push 10, .popStep, .popStep, .pushStep, .pushStep, .pushStep, .pushStep, .pop, .popStep, .push 11, .popStep, .pushStep,
    .pushStep, .popStep, .popStep, .push 12, .pushStep, .pushStep, .pushStep, .pushStep]

end SpscFifoAux

/-- The run `alternatingRun` of a queue of two slots, of which one is used. -/
theorem spsc_fifo_alternatingRun :
    ∃ s, Run.exec QueueSys.step (QueueSys.init two (fun _ => 0)) alternatingRun = some s ∧ s.pushed = [10, 12] ∧ s.popped = [10] ∧
      s.pushFails = [1] ∧ s.popFails = [0] ∧ s.popped <+: s.pushed := by
  have hrun : ∃ s, Run.exec QueueSys.step (QueueSys.init two (fun _ => 0)) alternatingRun = some s ∧ s.pushed = [10, 12] ∧
      s.popped = [10] ∧ s.pushFails = [1] ∧ s.popFails = [0] := by decide +kernel
  obtain ⟨s, hrun, hpushed, hpopped, hpushFails, hpopFails⟩ := hrun
  exact ⟨s, hrun, hpushed, hpopped, hpushFails, hpopFails, (spsc_fifo two (fun _ => 0) alternatingRun s hrun).1⟩

end MarketFeed
