import Mathlib.Data.List.AList
import Mathlib.Tactic

/-! Singly linked lists in a heap. -/

namespace Mbtk.Lib

/-- A node: what it carries and the pointer to the next one, or NULL. -/
structure Node (α κ : Type) where
  value : κ
  next : Option α
  deriving DecidableEq

/-- The allocated nodes by their addresses. -/
abbrev Heap (α κ : Type) := AList fun _ : α => Node α κ

namespace Heap

variable {α κ : Type} [DecidableEq α]

/-- An assignment to the pointer of a node.  On a node that is not allocated it has no result. -/
def setNext (heap : Heap α κ) (a : α) (p : Option α) : Option (Heap α κ) :=
  (heap.lookup a).map fun node => heap.insert a ⟨node.value, p⟩

/-- The nodes from the pointer `p` on, up to where the pointer is `q`. -/
def Segment (heap : Heap α κ) : Option α → List (α × κ) → Option α → Prop
  | p, [], q => p = q
  | p, (a, k) :: l, q => p = some a ∧ ∃ r, heap.lookup a = some ⟨k, r⟩ ∧ heap.Segment r l q

variable {heap heap' : Heap α κ} {p q r : Option α} {a b : α} {k : κ} {l m : List (α × κ)}
  {node : Node α κ}

theorem segment_append :
    heap.Segment p (l ++ m) q ↔ ∃ r, heap.Segment p l r ∧ heap.Segment r m q := by
  induction l generalizing p with
  | nil => simp [Segment]
  | cons entry l ih =>
    simp only [List.cons_append, Segment, ih]
    constructor
    · rintro ⟨hp, r, hr, s, hl, hm⟩
      exact ⟨s, ⟨hp, r, hr, hl⟩, hm⟩
    · rintro ⟨s, ⟨hp, r, hr, hl⟩, hm⟩
      exact ⟨hp, r, hr, s, hl, hm⟩

theorem segment_singleton :
    heap.Segment p [(a, k)] q ↔ p = some a ∧ heap.lookup a = some ⟨k, q⟩ := by
  simp [Segment]

theorem Segment.congr (h : heap.Segment p l q)
    (hl : ∀ a ∈ l.map Prod.fst, heap'.lookup a = heap.lookup a) : heap'.Segment p l q := by
  induction l generalizing p with
  | nil => exact h
  | cons entry l ih =>
    obtain ⟨hp, r, hr, h⟩ := h
    refine ⟨hp, r, ?_, ih h fun a ha => hl a (List.mem_cons_of_mem _ ha)⟩
    rw [hl entry.1 (List.mem_cons_self), hr]

theorem Segment.insert (h : heap.Segment p l q) (ha : a ∉ l.map Prod.fst) :
    Segment (heap.insert a node) p l q :=
  h.congr fun _ hb => AList.lookup_insert_ne (ne_of_mem_of_not_mem hb ha)

theorem Segment.erase (h : heap.Segment p l q) (ha : a ∉ l.map Prod.fst) :
    Segment (heap.erase a) p l q :=
  h.congr fun _ hb => AList.lookup_erase_ne (ne_of_mem_of_not_mem hb ha)

theorem Segment.mem (h : heap.Segment p l q) (ha : a ∈ l.map Prod.fst) : a ∈ heap := by
  induction l generalizing p with
  | nil => cases ha
  | cons entry l ih =>
    obtain ⟨-, r, hr, h⟩ := h
    obtain rfl | ha := List.mem_cons.mp ha
    · exact AList.lookup_isSome.mp (by rw [hr]; rfl)
    · exact ih h ha

/-- A node behind the last one of a list. -/
theorem Segment.concat (h : heap.Segment p (l ++ [(a, k)]) none)
    (hl : ∀ c ∈ l.map Prod.fst, heap'.lookup c = heap.lookup c)
    (ha : heap'.lookup a = some ⟨k, some b⟩) {x : κ} (hb : heap'.lookup b = some ⟨x, none⟩) :
    heap'.Segment p (l ++ [(a, k)] ++ [(b, x)]) none := by
  obtain ⟨r, hfront, hlast⟩ := segment_append.mp h
  obtain ⟨rfl, -⟩ := segment_singleton.mp hlast
  refine segment_append.mpr ⟨some b, segment_append.mpr ⟨some a, hfront.congr hl, ?_⟩, ?_⟩
  · exact segment_singleton.mpr ⟨rfl, ha⟩
  · exact segment_singleton.mpr ⟨rfl, hb⟩

/-- The nodes up to NULL are determined by the pointer. -/
theorem Segment.unique (h : heap.Segment p l none) (h' : heap.Segment p m none) : l = m := by
  induction l generalizing p m with
  | nil =>
    obtain rfl : p = none := h
    cases m with
    | nil => rfl
    | cons => exact absurd h'.1 (by simp)
  | cons entry l ih =>
    obtain ⟨rfl, r, hr, h⟩ := h
    cases m with
    | nil => exact absurd h' (by simp [Segment])
    | cons entry' m =>
      obtain ⟨a, k⟩ := entry
      obtain ⟨b, k'⟩ := entry'
      obtain ⟨hab, r', hr', h'⟩ := h'
      obtain rfl : a = b := Option.some.inj hab
      obtain ⟨rfl, rfl⟩ : k = k' ∧ r = r' := by simpa [hr] using hr'
      rw [ih h h']

/-- A list that ends has every node once. -/
theorem Segment.nodup (h : heap.Segment p l none) : (l.map Prod.fst).Nodup := by
  induction l generalizing p with
  | nil => exact List.nodup_nil
  | cons entry l ih =>
    obtain ⟨a, k⟩ := entry
    have hcons := h
    obtain ⟨rfl, r, hr, h⟩ := h
    refine List.nodup_cons.mpr ⟨fun ha => ?_, ih h⟩
    obtain ⟨⟨b, k'⟩, hmem, hab⟩ := List.mem_map.mp ha
    obtain rfl : b = a := hab
    obtain ⟨A, B, rfl⟩ := List.append_of_mem hmem
    obtain ⟨s, -, hagain⟩ := segment_append.mp h
    -- the same node begins a shorter list
    obtain rfl := hagain.1
    have hlen := congrArg List.length (hcons.unique hagain)
    simp only [List.length_cons, List.length_append] at hlen
    omega

/-- The nodes of a list that ends are no more than there are. -/
theorem Segment.length_le (h : heap.Segment p l none) : l.length ≤ heap.keys.length := by
  have hsub : l.map Prod.fst ⊆ heap.keys := fun a ha => AList.mem_keys.mp (h.mem ha)
  simpa using (h.nodup.subperm hsub).length_le

theorem setNext_eq (h : heap.lookup a = some node) (p : Option α) :
    heap.setNext a p = some (heap.insert a ⟨node.value, p⟩) := by
  rw [setNext, h]
  rfl

end Heap

end Mbtk.Lib
