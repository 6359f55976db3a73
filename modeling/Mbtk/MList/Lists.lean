import Mbtk.Lib.LinkedList

/-! The functions of `m_list.c`, on the heads of the callers and the nodes of `malloc`. -/

namespace Mbtk.MList

open Lib Heap

/-- What the functions do outside of the lists. -/
inductive Effect (α δ φ : Type)
  | called (freeFunc : φ) (data : Option δ)
  | freed (node : α)
  | returned (result : Bool)
  deriving DecidableEq

/-- The heads and the nodes that are allocated, and `list_free_func`.  A head is there from its
`list_init` on. -/
structure Lists (η α δ φ : Type) where
  heap : Heap (η ⊕ α) (Option δ)
  listFreeFunc : Option φ

namespace Lists

variable {η α δ φ : Type} [DecidableEq η] [DecidableEq α]

section Functions

def listInit (s : Lists η α δ φ) (list : η) (freeFunc : Option φ) : Lists η α δ φ :=
  ⟨s.heap.insert (.inl list) ⟨none, none⟩, freeFunc⟩

/-- The loop of `list_add` to the end of the list.  Neither a pointer to a freed node nor a walk
over more nodes than there are has a result. -/
def endLoop (heap : Heap (η ⊕ α) (Option δ)) : ℕ → η ⊕ α → Option (η ⊕ α)
  | 0, _ => none
  | n + 1, listP => do
    let node ← heap.lookup listP
    match node.next with
    | none => return listP
    | some next => endLoop heap n next

/-- `list_add` behind its checks. -/
def append (s : Lists η α δ φ) (list : η) (data : δ) (listNew : α) : Option (Lists η α δ φ) := do
  let heap := s.heap.insert (.inr listNew) ⟨some data, none⟩
  let listP ← endLoop heap heap.keys.length (.inl list)
  let heap ← Heap.setNext heap listP (some (.inr listNew))
  return ⟨heap, s.listFreeFunc⟩

/-- `list_add`, where `listNew` is what `malloc` returns if it is called. -/
def listAdd (s : Lists η α δ φ) (list : Option η) (data : Option δ) (listNew : Option α) :
    Option (Lists η α δ φ × List (Effect α δ φ)) :=
  match list, data, listNew with
  | some list, some data, some listNew =>
    (s.append list data listNew).map fun t => (t, [.returned true])
  | _, _, _ => some (s, [.returned false])

/-- The turn of the loop of `list_free` for a node. -/
def frees (listFreeFunc : Option φ) (node : α) (data : Option δ) : List (Effect α δ φ) :=
  (listFreeFunc.map fun freeFunc => .called freeFunc data).toList ++ [.freed node]

/-- The loop of `list_free`.  A pointer to what is not allocated by `malloc` has no result. -/
def freeLoop (listFreeFunc : Option φ) :
    ℕ → Heap (η ⊕ α) (Option δ) → Option (η ⊕ α) →
      Option (Heap (η ⊕ α) (Option δ) × List (Effect α δ φ))
  | _, heap, none => some (heap, [])
  | n + 1, heap, some (.inr listP) => do
    let node ← heap.lookup (.inr listP)
    let rest ← freeLoop listFreeFunc n (heap.erase (.inr listP)) node.next
    return (rest.1, frees listFreeFunc listP node.value ++ rest.2)
  | _, _, _ => none

def listFree (s : Lists η α δ φ) (list : Option η) :
    Option (Lists η α δ φ × List (Effect α δ φ)) :=
  match list with
  | none => some (s, [])
  | some list => do
    let head ← s.heap.lookup (.inl list)
    let (heap, effects) ← freeLoop s.listFreeFunc s.heap.keys.length s.heap head.next
    return (⟨heap, s.listFreeFunc⟩, effects)

end Functions

/-- The head of a list, and its nodes. -/
def chain (list : η) (nodes : List (α × δ)) : List ((η ⊕ α) × Option δ) :=
  (.inl list, none) :: nodes.map fun entry => (.inr entry.1, some entry.2)

section Laws

variable {s : Lists η α δ φ} {heap : Heap (η ⊕ α) (Option δ)} {list : η} {p q : η ⊕ α}
  {a : α} {d : δ} {k : Option δ} {A : List ((η ⊕ α) × Option δ)} {nodes : List (α × δ)} {n : ℕ}

theorem endLoop_eq (h : heap.Segment (some p) (A ++ [(q, k)]) none) (hn : A.length < n) :
    endLoop heap n p = some q := by
  induction A generalizing p n with
  | nil =>
    obtain ⟨n, rfl⟩ := Nat.exists_eq_add_one.mpr hn
    obtain ⟨hp, hq⟩ := segment_singleton.mp h
    rw [endLoop, Option.some.inj hp, hq]
    rfl
  | cons entry A ih =>
    obtain ⟨n, rfl⟩ := Nat.exists_eq_add_one.mpr (Nat.zero_lt_of_lt hn)
    obtain ⟨hp, r, hr, hrest⟩ := h
    obtain ⟨next, rfl⟩ : ∃ next, r = some next := by
      cases A with
      | nil => exact ⟨q, hrest.1⟩
      | cons next A => exact ⟨next.1, hrest.1⟩
    rw [endLoop, Option.some.inj hp, hr]
    exact ih hrest (Nat.lt_of_succ_lt_succ hn)

omit [DecidableEq η] [DecidableEq α] in
theorem mem_chain : p ∈ (chain list nodes).map Prod.fst ↔
    p = .inl list ∨ ∃ b ∈ nodes.map Prod.fst, p = .inr b := by
  rw [chain, List.map_cons, List.mem_cons, List.map_map]
  refine or_congr_right ⟨fun h => ?_, fun ⟨b, hb, hp⟩ => ?_⟩
  · obtain ⟨entry, hentry, rfl⟩ := List.mem_map.mp h
    exact ⟨entry.1, List.mem_map_of_mem hentry, rfl⟩
  · obtain ⟨entry, hentry, rfl⟩ := List.mem_map.mp hb
    exact List.mem_map.mpr ⟨entry, hentry, hp.symm⟩

theorem exists_last (h : heap.Segment (some (.inl list)) (chain list nodes) none) :
    ∃ A q k, chain list nodes = A ++ [(q, k)] ∧ q ∉ A.map Prod.fst ∧
      heap.lookup q = some ⟨k, none⟩ ∧ endLoop heap heap.keys.length (.inl list) = some q := by
  obtain ⟨A, ⟨q, k⟩, hsplit⟩ : ∃ A last, chain list nodes = A ++ [last] :=
    ⟨_, _, (List.dropLast_append_getLast (List.cons_ne_nil _ _)).symm⟩
  have hnodup := h.nodup
  have hlength := h.length_le
  rw [hsplit] at h hnodup hlength
  rw [List.map_append, List.nodup_append] at hnodup
  rw [List.length_append] at hlength
  obtain ⟨r, -, hlast⟩ := segment_append.mp h
  exact ⟨A, q, k, hsplit, fun hmem => hnodup.2.2 q hmem q (List.mem_singleton_self q) rfl,
    (segment_singleton.mp hlast).2, endLoop_eq h hlength⟩

theorem exists_append (h : s.heap.Segment (some (.inl list)) (chain list nodes) none)
    (hfresh : .inr a ∉ s.heap) (d : δ) :
    ∃ t, s.append list d a = some t ∧
      t.heap.Segment (some (.inl list)) (chain list (nodes ++ [(a, d)])) none ∧
      ∀ c, c ∉ (chain list nodes).map Prod.fst → c ≠ .inr a →
        t.heap.lookup c = s.heap.lookup c := by
  have hnotMem : .inr a ∉ (chain list nodes).map Prod.fst := fun hmem => hfresh (h.mem hmem)
  let heap : Heap (η ⊕ α) (Option δ) := s.heap.insert (.inr a) ⟨some d, none⟩
  have hheap : heap.Segment (some (.inl list)) (chain list nodes) none := h.insert hnotMem
  obtain ⟨A, q, k, hsplit, hqA, hq, hloop⟩ := exists_last hheap
  have hqmem : q ∈ (chain list nodes).map Prod.fst := by
    rw [hsplit, List.map_append]
    exact List.mem_append_right _ (List.mem_singleton_self q)
  have hne : .inr a ≠ q := fun heq => hnotMem (heq ▸ hqmem)
  refine ⟨⟨heap.insert q ⟨k, some (.inr a)⟩, s.listFreeFunc⟩, ?_, ?_, fun c hc hca => ?_⟩
  · rw [append]
    change (endLoop heap heap.keys.length (.inl list)).bind _ = _
    rw [hloop]
    change (heap.setNext q (some (.inr a))).bind _ = _
    rw [setNext_eq hq]
    rfl
  · have hchain : chain list (nodes ++ [(a, d)]) = A ++ [(q, k)] ++ [(.inr a, some d)] := by
      rw [← hsplit, chain, List.map_append]
      rfl
    rw [hchain]
    rw [hsplit] at hheap
    refine hheap.concat (fun c hc => ?_) (AList.lookup_insert _) ?_
    · exact AList.lookup_insert_ne (ne_of_mem_of_not_mem hc hqA)
    · rw [AList.lookup_insert_ne hne, AList.lookup_insert]
  · rw [AList.lookup_insert_ne (ne_of_mem_of_not_mem hqmem hc).symm, AList.lookup_insert_ne hca]

theorem freeLoop_eq (freeFunc : Option φ) {p : Option (η ⊕ α)}
    (h : heap.Segment p (nodes.map fun entry => (.inr entry.1, some entry.2)) none)
    (hn : nodes.length ≤ n) :
    freeLoop freeFunc n heap p =
      some (nodes.foldl (fun heap entry => heap.erase (.inr entry.1)) heap,
        nodes.flatMap fun entry => frees freeFunc entry.1 (some entry.2)) := by
  induction nodes generalizing p n heap with
  | nil =>
    obtain rfl : p = none := h
    cases n <;> rfl
  | cons entry nodes ih =>
    obtain ⟨n, rfl⟩ := Nat.exists_eq_add_one.mpr (Nat.zero_lt_of_lt hn)
    have hnodup := h.nodup
    obtain ⟨rfl, r, hr, hrest⟩ := h
    rw [List.map_cons, List.map_cons, List.nodup_cons] at hnodup
    rw [freeLoop, hr]
    change (freeLoop freeFunc n (heap.erase (.inr entry.1)) r).bind _ = _
    rw [ih (hrest.erase hnodup.1) (Nat.le_of_succ_le_succ hn)]
    rfl

omit [DecidableEq η] [DecidableEq α] in
theorem called_mem_frees {f : φ} {freeFunc : Option φ} {data : Option δ} :
    .called f data ∈ nodes.flatMap (fun entry => frees freeFunc entry.1 (some entry.2)) ↔
      freeFunc = some f ∧ ∃ entry ∈ nodes, some entry.2 = data := by
  cases freeFunc with
  | none => simp [frees]
  | some g =>
    simp only [frees, List.mem_flatMap, Option.map_some, Option.toList_some, List.cons_append,
      List.nil_append, List.mem_cons, Effect.called.injEq, reduceCtorEq, List.not_mem_nil,
      or_false, Option.some.injEq]
    exact ⟨fun ⟨entry, hentry, hg, hd⟩ => ⟨hg.symm, entry, hentry, hd.symm⟩,
      fun ⟨hg, entry, hentry, hd⟩ => ⟨entry, hentry, hg.symm, hd.symm⟩⟩

theorem lookup_foldl_erase (list : η) (nodes : List (α × δ)) (heap : Heap (η ⊕ α) (Option δ)) :
    (nodes.foldl (fun heap entry => heap.erase (.inr entry.1)) heap).lookup (.inl list) =
      heap.lookup (.inl list) := by
  induction nodes generalizing heap with
  | nil => rfl
  | cons entry nodes ih =>
    rw [List.foldl_cons, ih]
    exact AList.lookup_erase_ne Sum.inl_ne_inr

theorem exists_listFree (h : s.heap.Segment (some (.inl list)) (chain list nodes) none) :
    ∃ t, s.listFree (some list) =
        some (t, nodes.flatMap fun entry => frees s.listFreeFunc entry.1 (some entry.2)) ∧
      t.heap.lookup (.inl list) = s.heap.lookup (.inl list) := by
  have hlength := h.length_le
  obtain ⟨-, r, hr, hrest⟩ := h
  rw [chain, List.length_cons, List.length_map] at hlength
  refine ⟨⟨nodes.foldl (fun heap entry => heap.erase (.inr entry.1)) s.heap, s.listFreeFunc⟩,
    ?_, lookup_foldl_erase list nodes s.heap⟩
  rw [listFree, hr]
  change (freeLoop s.listFreeFunc s.heap.keys.length s.heap r).bind _ = _
  rw [freeLoop_eq s.listFreeFunc hrest (Nat.le_of_succ_le hlength)]
  rfl

end Laws

end Lists

end Mbtk.MList
