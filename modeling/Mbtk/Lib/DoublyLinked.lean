import Mathlib.Data.List.AList
import Mathlib.Tactic

/-! Doubly linked lists in a heap. -/

namespace Mbtk.Lib

/-- A node: what it carries, and the pointers to the nodes before and behind it, or NULL. -/
structure DNode (α κ : Type) where
  value : κ
  pre : Option α
  next : Option α
  deriving DecidableEq

/-- The allocated nodes by their addresses. -/
abbrev DHeap (α κ : Type) := AList fun _ : α => DNode α κ

namespace DHeap

variable {α κ : Type} [DecidableEq α]

/-- An assignment to the pointer to the next node.  On a node that is not allocated it has no
result. -/
def setNext (heap : DHeap α κ) (a : α) (p : Option α) : Option (DHeap α κ) :=
  (heap.lookup a).map fun node => heap.insert a { node with next := p }

/-- An assignment to the pointer to the node before. -/
def setPre (heap : DHeap α κ) (a : α) (p : Option α) : Option (DHeap α κ) :=
  (heap.lookup a).map fun node => heap.insert a { node with pre := p }

/-- What an allocated node carries. -/
def valueOf (heap : DHeap α κ) (a : α) : Option κ := (heap.lookup a).map DNode.value

/-- The nodes from the pointer `p` on, the first of which points back as `b` does, up to where the
pointer is `q`, and a node there would point back as `c` does. -/
def Segment (heap : DHeap α κ) :
    Option α → Option α → List (α × κ) → Option α → Option α → Prop
  | b, p, [], c, q => b = c ∧ p = q
  | b, p, (a, k) :: l, c, q =>
    p = some a ∧ ∃ r, heap.lookup a = some ⟨k, b, r⟩ ∧ heap.Segment (some a) r l c q

variable {heap heap' : DHeap α κ} {b c d p q r : Option α} {a x : α} {k : κ} {l m : List (α × κ)}
  {node : DNode α κ}

theorem segment_append :
    heap.Segment b p (l ++ m) c q ↔ ∃ d r, heap.Segment b p l d r ∧ heap.Segment d r m c q := by
  induction l generalizing b p with
  | nil => simp [Segment]
  | cons entry l ih =>
    simp only [List.cons_append, Segment, ih]
    constructor
    · rintro ⟨hp, r, hr, d, s, hl, hm⟩
      exact ⟨d, s, ⟨hp, r, hr, hl⟩, hm⟩
    · rintro ⟨d, s, ⟨hp, r, hr, hl⟩, hm⟩
      exact ⟨hp, r, hr, d, s, hl, hm⟩

theorem segment_singleton :
    heap.Segment b p [(a, k)] c q ↔
      p = some a ∧ heap.lookup a = some ⟨k, b, q⟩ ∧ c = some a := by
  simp only [Segment]
  constructor
  · rintro ⟨hp, r, hr, hc, rfl⟩
    exact ⟨hp, hr, hc.symm⟩
  · rintro ⟨hp, hr, hc⟩
    exact ⟨hp, q, hr, hc.symm, rfl⟩

theorem Segment.congr (h : heap.Segment b p l c q)
    (hl : ∀ a ∈ l.map Prod.fst, heap'.lookup a = heap.lookup a) : heap'.Segment b p l c q := by
  induction l generalizing b p with
  | nil => exact h
  | cons entry l ih =>
    obtain ⟨hp, r, hr, h⟩ := h
    refine ⟨hp, r, ?_, ih h fun a ha => hl a (List.mem_cons_of_mem _ ha)⟩
    rw [hl entry.1 List.mem_cons_self, hr]

theorem Segment.insert (h : heap.Segment b p l c q) (ha : a ∉ l.map Prod.fst) :
    Segment (heap.insert a node) b p l c q :=
  h.congr fun _ hb => AList.lookup_insert_ne (ne_of_mem_of_not_mem hb ha)

theorem Segment.erase (h : heap.Segment b p l c q) (ha : a ∉ l.map Prod.fst) :
    Segment (heap.erase a) b p l c q :=
  h.congr fun _ hb => AList.lookup_erase_ne (ne_of_mem_of_not_mem hb ha)

theorem Segment.mem (h : heap.Segment b p l c q) (ha : a ∈ l.map Prod.fst) : a ∈ heap := by
  induction l generalizing b p with
  | nil => cases ha
  | cons entry l ih =>
    obtain ⟨-, r, hr, h⟩ := h
    obtain rfl | ha := List.mem_cons.mp ha
    · exact AList.lookup_isSome.mp (by rw [hr]; rfl)
    · exact ih h ha

theorem setNext_eq (h : heap.lookup a = some node) (p : Option α) :
    heap.setNext a p = some (heap.insert a { node with next := p }) := by
  rw [setNext, h]
  rfl

theorem setPre_eq (h : heap.lookup a = some node) (p : Option α) :
    heap.setPre a p = some (heap.insert a { node with pre := p }) := by
  rw [setPre, h]
  rfl

theorem isSome_valueOf : (heap.valueOf a).isSome ↔ a ∈ heap := by
  rw [valueOf, Option.isSome_map, AList.lookup_isSome]

theorem valueOf_of_notMem (ha : a ∉ heap) : heap.valueOf a = none := by
  rw [valueOf, AList.lookup_eq_none.mpr ha]
  rfl

theorem valueOf_insert : valueOf (heap.insert a node) x =
    if x = a then some node.value else heap.valueOf x := by
  rw [valueOf]
  split_ifs with hxa
  · rw [hxa, AList.lookup_insert]
    rfl
  · rw [AList.lookup_insert_ne hxa]
    rfl

theorem valueOf_erase : valueOf (heap.erase a) x = if x = a then none else heap.valueOf x := by
  rw [valueOf]
  split_ifs with hxa
  · rw [hxa, AList.lookup_erase]
    rfl
  · rw [AList.lookup_erase_ne hxa]
    rfl

theorem valueOf_setNext (h : heap.setNext a p = some heap') : heap'.valueOf x = heap.valueOf x := by
  obtain ⟨node, hnode, rfl⟩ := Option.map_eq_some_iff.mp h
  rw [valueOf_insert]
  split_ifs with hxa
  · rw [hxa, valueOf, hnode]
    rfl
  · rfl

theorem valueOf_setPre (h : heap.setPre a p = some heap') : heap'.valueOf x = heap.valueOf x := by
  obtain ⟨node, hnode, rfl⟩ := Option.map_eq_some_iff.mp h
  rw [valueOf_insert]
  split_ifs with hxa
  · rw [hxa, valueOf, hnode]
    rfl
  · rfl

theorem Segment.valueOf_eq (h : heap.Segment b p l c q) (ha : (a, k) ∈ l) :
    heap.valueOf a = some k := by
  induction l generalizing b p with
  | nil => cases ha
  | cons entry l ih =>
    obtain ⟨-, r, hr, h⟩ := h
    obtain rfl | ha := List.mem_cons.mp ha
    · rw [valueOf, hr]
      rfl
    · exact ih h ha

/-- The last node of a segment is given another one behind it. -/
theorem Segment.exists_setNext (h : heap.Segment b p (l ++ [(x, k)]) c q)
    (hx : x ∉ l.map Prod.fst) (q' : Option α) :
    ∃ node, heap.lookup x = some node ∧ heap.setNext x q' = some (heap.insert x
      { node with next := q' }) ∧
      Segment (heap.insert x { node with next := q' }) b p (l ++ [(x, k)]) c q' := by
  obtain ⟨d, r, hfront, hlast⟩ := segment_append.mp h
  obtain ⟨rfl, hlookup, rfl⟩ := segment_singleton.mp hlast
  refine ⟨_, hlookup, setNext_eq hlookup q', segment_append.mpr ⟨d, some x, ?_, ?_⟩⟩
  · exact hfront.insert hx
  · exact segment_singleton.mpr ⟨rfl, AList.lookup_insert _, rfl⟩

/-- The first node of a segment is given another one before it. -/
theorem Segment.exists_setPre (h : heap.Segment b p ((x, k) :: l) c q)
    (hx : x ∉ l.map Prod.fst) (b' : Option α) :
    ∃ node, heap.lookup x = some node ∧ heap.setPre x b' = some (heap.insert x
      { node with pre := b' }) ∧
      Segment (heap.insert x { node with pre := b' }) b' p ((x, k) :: l) c q := by
  obtain ⟨rfl, r, hlookup, hrest⟩ := h
  exact ⟨_, hlookup, setPre_eq hlookup b', rfl, r, AList.lookup_insert _, hrest.insert hx⟩

end DHeap

end Mbtk.Lib
