import MarketFeed.Lib.Linked
import MarketFeed.MemoryPool

/-!
# Each slot of the pool has one owner

Every node is on the free list or held by a live object, and not both: the free list and the pointers held are an ordering of all the
nodes (`PoolInv`). `alloc` moves the first node of the list to the pointers, `free` moves a pointer to the front of the list.
-/

namespace MarketFeed

variable {α : Type} {N : UInt64}

namespace PoolSlotsAux

/-! ## The constructor -/

/-- Putting nodes on the free list, none of which is there or comes twice, leads to a list of them in reverse. -/
theorem linked_foldl {p : MemoryPool α N} {free nodes : List (Fin N.toNat)} (h : Linked p.next p.freeList free)
    (hnodup : (nodes ++ free).Nodup) :
    Linked (nodes.foldl MemoryPool.push p).next (nodes.foldl MemoryPool.push p).freeList (nodes.reverse ++ free) := by
  induction nodes generalizing p free with
  | nil => exact h
  | cons node nodes ih =>
    rw [List.cons_append] at hnodup
    obtain ⟨hnode, hrest⟩ := List.nodup_cons.mp hnodup
    rw [List.foldl_cons, List.reverse_cons, List.append_assoc, List.singleton_append]
    refine ih ?_ (List.nodup_middle.mpr hnodup)
    exact h.push fun hmem => hnode (List.mem_append_right nodes hmem)

theorem foldl_push_frame (p : MemoryPool α N) (nodes : List (Fin N.toNat)) :
    (nodes.foldl MemoryPool.push p).storage = p.storage ∧ (nodes.foldl MemoryPool.push p).inUse = p.inUse := by
  induction nodes generalizing p with
  | nil => exact ⟨rfl, rfl⟩
  | cons node nodes ih => exact ih (p.push node)

/-! ## The invariant -/

/-- The free list and the pointers held are all the nodes, and what is counted and stored is what the live objects need. -/
structure PoolInv (s : PoolSys α N) (free : List (Fin N.toNat)) : Prop where
  linked : Linked s.pool.next s.pool.freeList free
  nodes : (free ++ s.pointers).Perm (List.finRange N.toNat)
  inUse : s.pool.inUse = UInt64.ofNat s.live.length
  stored : ∀ o ∈ s.live, s.pool.storage o.1 = some o.2

theorem PoolInv.init : PoolInv (PoolSys.init α N) (List.finRange N.toNat).reverse := by
  obtain ⟨-, hinUse⟩ := foldl_push_frame (MemoryPool.blank α N) (List.finRange N.toNat)
  have hblank : Linked (MemoryPool.blank α N).next (MemoryPool.blank α N).freeList [] := Linked.nil
  have hnodup : (List.finRange N.toNat ++ []).Nodup := by simpa using List.nodup_finRange N.toNat
  have hlinked := linked_foldl hblank hnodup
  rw [List.append_nil] at hlinked
  refine ⟨hlinked, ?_, hinUse, nofun⟩
  exact (List.append_nil _).symm ▸ List.reverse_perm _

namespace PoolInv

variable {s : PoolSys α N} {free : List (Fin N.toNat)}

/-- No node is on the free list and held, or held twice. -/
theorem nodup (h : PoolInv s free) : (free ++ s.pointers).Nodup := h.nodes.nodup_iff.mpr (List.nodup_finRange _)

/-- The nodes on the free list and those held are counted together. -/
theorem length (h : PoolInv s free) : free.length + s.live.length = N.toNat := by
  have hlen := h.nodes.length_eq
  rwa [List.length_append, PoolSys.pointers, List.length_map, List.length_finRange] at hlen

theorem inUse_toNat (h : PoolInv s free) : s.pool.inUse.toNat = s.live.length := by
  have hlen := h.length
  have hlt := N.toNat_lt
  rw [h.inUse]
  exact UInt64.toNat_ofNat_of_lt' (by simp only [UInt64.size]; omega)

theorem available_toNat (h : PoolInv s free) : s.pool.available.toNat = free.length := by
  have hlen := h.length
  have hinUse := h.inUse_toNat
  have hle : s.pool.inUse ≤ N := UInt64.le_iff_toNat_le.mpr (by omega)
  rw [MemoryPool.available, UInt64.toNat_sub_of_le _ _ hle]
  omega

/-- What `alloc` returns is the first node of the free list. -/
theorem alloc_ptr (h : PoolInv s free) (object : α) : (s.pool.alloc object).2 = free.head? := by
  unfold MemoryPool.alloc
  have hlinked := h.linked
  cases free with
  | nil =>
    rw [Linked.nil_iff] at hlinked
    rw [hlinked]
    rfl
  | cons node free =>
    rw [(Linked.cons_iff.mp hlinked).1]
    rfl

/-- `alloc` takes the first node off the free list. -/
theorem alloc (h : PoolInv s free) (object : α) {s' : PoolSys α N} (hs : s.step (.alloc object) = some s') :
    PoolInv s' free.tail := by
  cases hs
  have hlinked := h.linked
  have hptr := h.alloc_ptr object
  cases free with
  | nil =>
    rw [Linked.nil_iff] at hlinked
    have hsame : (s.pool.alloc object).1 = s.pool := by
      unfold MemoryPool.alloc
      rw [hlinked]
    rw [hptr, hsame]
    exact h
  | cons node free =>
    obtain ⟨hhead, hrest⟩ := Linked.cons_iff.mp hlinked
    have hfresh : node ∉ s.pointers := by
      have hnodup := h.nodup
      rw [List.cons_append] at hnodup
      exact fun hmem => (List.nodup_cons.mp hnodup).1 (List.mem_append_right free hmem)
    unfold MemoryPool.alloc
    rw [hhead]
    refine ⟨hrest, List.perm_middle.trans h.nodes, ?_, ?_⟩
    · dsimp only
      rw [h.inUse]
      simp [UInt64.ofNat_add]
    · intro o ho
      rcases List.mem_cons.mp ho with rfl | hlive
      · exact Function.update_self ..
      · have hne : o.1 ≠ node := by
          intro he
          exact hfresh (he ▸ List.mem_map_of_mem hlive)
        exact (Function.update_of_ne hne ..).trans (h.stored o hlive)

/-- `free` puts the node of a live object on the free list. -/
theorem free_live (h : PoolInv s free) {node : Fin N.toNat} (hmem : node ∈ s.pointers) :
    PoolInv { pool := s.pool.free (some node), live := s.live.filter fun o => o.1 ≠ node } (node :: free) := by
  obtain ⟨-, hnodup, hdisjoint⟩ := List.nodup_append.mp h.nodup
  have hfree : node ∉ free := fun hmem' => hdisjoint node hmem' node hmem rfl
  have hpointers : (s.live.filter fun o => o.1 ≠ node).map Prod.fst = s.pointers.erase node := by
    rw [hnodup.erase_eq_filter, PoolSys.pointers, List.filter_map]
    congr 1
    refine List.filter_congr (fun o _ => ?_)
    simp [bne, Bool.beq_eq_decide_eq]
  have hperm := List.perm_cons_erase hmem
  refine ⟨h.linked.push hfree, ?_, ?_, ?_⟩
  · unfold PoolSys.pointers
    dsimp only
    rw [hpointers]
    exact (List.perm_middle.symm.trans (hperm.symm.append_left free)).trans h.nodes
  · have hlen := hperm.length_eq
    rw [← hpointers, List.length_cons, List.length_map, PoolSys.pointers, List.length_map] at hlen
    change s.pool.inUse - 1 = _
    rw [h.inUse, hlen, UInt64.ofNat_add]
    exact UInt64.add_sub_cancel ..
  · intro o ho
    obtain ⟨hlive, hne⟩ := List.mem_filter.mp ho
    exact (Function.update_of_ne (of_decide_eq_true hne) ..).trans (h.stored o hlive)

/-- Every call keeps the invariant. -/
theorem step (h : PoolInv s free) {e : PoolCall α N} {s' : PoolSys α N} (hs : s.step e = some s') :
    ∃ free', PoolInv s' free' := by
  cases e with
  | alloc object => exact ⟨_, h.alloc object hs⟩
  | free ptr =>
    cases ptr with
    | none =>
      cases hs
      exact ⟨free, h⟩
    | some node =>
      simp only [PoolSys.step] at hs
      split at hs <;> rename_i hmem
      · cases hs
        exact ⟨_, h.free_live hmem⟩
      · cases hs

end PoolInv

end PoolSlotsAux

open PoolSlotsAux

/-- After any run of calls in which `free` is given `nullptr` or the pointer of a live object: the free list ends and has no node twice,
each node is on it or held by exactly one live object, whose value is in its storage, the two counts are the numbers of these nodes, and
`alloc` returns `nullptr` exactly when `N` objects are live, and otherwise a pointer that no live object has. -/
theorem pool_slots (es : List (PoolCall α N)) (s : PoolSys α N) (h : Run.exec PoolSys.step (PoolSys.init α N) es = some s) :
    ∃ free, Linked s.pool.next s.pool.freeList free ∧ free.Nodup ∧ s.pointers.Nodup ∧
      (∀ node, node ∈ free ∧ node ∉ s.pointers ∨ node ∉ free ∧ node ∈ s.pointers) ∧
      (∀ o ∈ s.live, s.pool.storage o.1 = some o.2) ∧ s.pool.inUse.toNat = s.live.length ∧
      s.pool.available.toNat = free.length ∧
      ∀ object, ((s.pool.alloc object).2 = none ↔ s.live.length = N.toNat) ∧
        ∀ ptr, (s.pool.alloc object).2 = some ptr → ptr ∉ s.pointers := by
  have hinv : ∃ free, PoolInv s free :=
    Run.exec_invariant (I := fun s => ∃ free, PoolInv s free) (fun _ _ _ hI hs => hI.elim fun _ hI => hI.step hs) ⟨_, .init⟩ h
  obtain ⟨free, hinv⟩ := hinv
  obtain ⟨hfree, hpointers, hdisjoint⟩ := List.nodup_append.mp hinv.nodup
  have hlen := hinv.length
  refine ⟨free, hinv.linked, hfree, hpointers, fun node => ?_, hinv.stored, hinv.inUse_toNat, hinv.available_toNat, fun object => ?_⟩
  · have hmem : node ∈ free ++ s.pointers := hinv.nodes.mem_iff.mpr (List.mem_finRange node)
    rcases List.mem_append.mp hmem with hmem | hmem
    · exact Or.inl ⟨hmem, fun hheld => hdisjoint node hmem node hheld rfl⟩
    · exact Or.inr ⟨fun hlisted => hdisjoint node hlisted node hmem rfl, hmem⟩
  · rw [hinv.alloc_ptr object]
    constructor
    · rw [List.head?_eq_none_iff, ← List.length_eq_zero_iff]
      omega
    · intro ptr hptr hheld
      exact hdisjoint ptr (List.mem_of_mem_head? hptr) ptr hheld rfl

namespace PoolSlotsAux

/-- Two nodes: both are taken, a third call gets none, and the first node is given back and taken again. -/
def reuseRun : List (PoolCall UInt8 2) :=
  [.alloc 7, .alloc 8, .alloc 9, .free (some ⟨1, by decide⟩), .free none, .alloc 10]

end PoolSlotsAux

/-- After `reuseRun` both objects are live, and there is no room for another. -/
theorem pool_slots_reuseRun :
    ∃ s, Run.exec PoolSys.step (PoolSys.init UInt8 2) reuseRun = some s ∧ s.live = [(⟨1, by decide⟩, 10), (⟨0, by decide⟩, 8)] ∧
      s.pool.inUse.toNat = 2 ∧ (s.pool.alloc 11).2 = none := by
  have hrun : ∃ s, Run.exec PoolSys.step (PoolSys.init UInt8 2) reuseRun = some s ∧
      s.live = [(⟨1, by decide⟩, 10), (⟨0, by decide⟩, 8)] := ⟨_, rfl, rfl⟩
  obtain ⟨s, hrun, hlive⟩ := hrun
  obtain ⟨free, -, -, -, -, -, hinUse, -, halloc⟩ := pool_slots reuseRun s hrun
  rw [hlive] at hinUse halloc
  exact ⟨s, hrun, hlive, hinUse, (halloc 11).1.mpr rfl⟩

end MarketFeed
