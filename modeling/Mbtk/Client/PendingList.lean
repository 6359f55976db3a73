import Mbtk.Client.Effects
import Mbtk.Lib.LinkedList

/-! The nodes behind the list of pending packages, and the two pointers to it. -/

namespace Mbtk.Client

open Lib Heap

/-- `mbtk_coaps`, `mbtk_coaps_tail` and the nodes that are allocated. -/
structure PendingList (α : Type) where
  heap : Heap α Package
  coaps : Option α
  coapsTail : Option α

namespace PendingList

variable {α : Type} [DecidableEq α]

section Functions

/-- `mbtk_coap_free`.  It reads the link of every option after it has freed that option. -/
def coapFree (heap : Heap α Package) (coap : α) : Option (Heap α Package) := do
  let node ← heap.lookup coap
  if node.value.options = [] then return heap.erase coap else none

/-- The loop over the nodes for the first one with an ID.  Neither a pointer to a freed node nor
a walk over more nodes than there are has a result. -/
def findLoop (heap : Heap α Package) (messageId : UInt16) : ℕ → Option α → Option (Option α)
  | _, none => some none
  | 0, some _ => none
  | n + 1, some coapPtr => do
    let node ← heap.lookup coapPtr
    if node.value.messageId = messageId then return some coapPtr
    else findLoop heap messageId n node.next

/-- `mbtk_coap_get_by_msg_id`. -/
def coapGetByMsgId (s : PendingList α) (messageId : UInt16) : Option (Option α) :=
  findLoop s.heap messageId s.heap.keys.length s.coaps

/-- The end of `mbtk_coap_list_add`, for an ID that is not on the list. -/
def appendNode (s : PendingList α) (messageId : UInt16) (fresh : α) :
    Option (PendingList α × Option α) := do
  let tail ← s.coapsTail
  let heap ← s.heap.setNext tail (some fresh)
  let heap := heap.insert fresh ⟨listItemInit messageId, none⟩
  let node ← heap.lookup tail
  return (⟨heap, s.coaps, node.next⟩, node.next)

/-- `mbtk_coap_list_add`, where `fresh` is what `malloc` returns if it is called. -/
def coapListAdd (s : PendingList α) (messageId : UInt16) (fresh : α) :
    Option (PendingList α × Option α) :=
  if s.coaps = none then
    some (⟨s.heap.insert fresh ⟨listItemInit messageId, none⟩, some fresh, some fresh⟩, some fresh)
  else do
    let found ← findLoop s.heap messageId s.heap.keys.length s.coaps
    if found = none then s.appendNode messageId fresh else return (s, none)

/-- `mbtk_coap_list_del` at the node before the one that it deletes. -/
def unlink (s : PendingList α) (coap coapTmp : α) : Option (PendingList α × Bool) := do
  let tail := if s.coapsTail = some coapTmp then some coap else s.coapsTail
  let node ← s.heap.lookup coapTmp
  let heap ← s.heap.setNext coap node.next
  let heap ← coapFree heap coapTmp
  return (⟨heap, s.coaps, tail⟩, true)

/-- The loop of `mbtk_coap_list_del`. -/
def delLoop (s : PendingList α) (messageId : UInt16) : ℕ → α → Option (PendingList α × Bool)
  | 0, _ => none
  | n + 1, coap => do
    let node ← s.heap.lookup coap
    match node.next with
    | none => return (s, false)
    | some next =>
      let nextNode ← s.heap.lookup next
      if messageId = nextNode.value.messageId then s.unlink coap next
      else delLoop s messageId n next

/-- `mbtk_coap_list_del`. -/
def coapListDel (s : PendingList α) (messageId : UInt16) : Option (PendingList α × Bool) :=
  match s.coaps with
  | none => some (s, false)
  | some coap => do
    let node ← s.heap.lookup coap
    if node.value.messageId = messageId then
      let heap ← coapFree s.heap coap
      return (⟨heap, node.next, s.coapsTail⟩, true)
    else s.delLoop messageId s.heap.keys.length coap

end Functions

/-- The list has these packages at these addresses, nothing else is allocated, and the tail
pointer of a list that is not empty points to its last node. -/
structure Holds (s : PendingList α) (l : List (α × Package)) : Prop where
  nodes : s.heap.Segment s.coaps l none
  live : ∀ a, a ∈ s.heap ↔ a ∈ l.map Prod.fst
  distinct : (l.map (·.2.messageId)).Nodup
  tail : ∀ entry ∈ l.getLast?, s.coapsTail = some entry.1

section Laws

variable {s t : PendingList α} {messageId : UInt16} {a b fresh : α} {k x : Package}
  {p : Option α} {l A B : List (α × Package)} {heap : Heap α Package} {n : ℕ}

theorem coapFree_eq {q : Option α} (h : heap.lookup a = some ⟨x, q⟩) (hx : x.options = []) :
    coapFree heap a = some (heap.erase a) := by
  rw [coapFree, h]
  exact if_pos hx

theorem findLoop_eq (h : heap.Segment p l none) (hn : l.length ≤ n) :
    findLoop heap messageId n p =
      some ((l.find? (·.2.messageId = messageId)).map Prod.fst) := by
  induction l generalizing p n with
  | nil =>
    obtain rfl : p = none := h
    cases n <;> rfl
  | cons entry l ih =>
    obtain ⟨rfl, r, hr, h⟩ := h
    obtain ⟨n, rfl⟩ : ∃ k, n = k + 1 := Nat.exists_eq_add_one.mpr (by simp at hn; omega)
    rw [findLoop, hr]
    by_cases hid : entry.2.messageId = messageId
    · rw [List.find?_cons_of_pos (by simpa using hid)]
      exact if_pos hid
    · rw [List.find?_cons_of_neg (by simpa using hid), ← ih h (Nat.le_of_succ_le_succ hn)]
      exact if_neg hid

theorem Holds.coapGetByMsgId_eq (h : s.Holds l) (messageId : UInt16) :
    s.coapGetByMsgId messageId =
      some ((l.find? (·.2.messageId = messageId)).map Prod.fst) :=
  findLoop_eq h.nodes h.nodes.length_le

omit [DecidableEq α] in
theorem find?_eq_none_of_notMem (h : messageId ∉ l.map (·.2.messageId)) :
    l.find? (·.2.messageId = messageId) = none :=
  List.find?_eq_none.mpr fun _ hentry hid =>
    h (List.mem_map.mpr ⟨_, hentry, of_decide_eq_true hid⟩)

theorem Holds.coapListAdd_of_mem (h : s.Holds l) (hid : messageId ∈ l.map (·.2.messageId))
    (fresh : α) : s.coapListAdd messageId fresh = some (s, none) := by
  obtain ⟨entry, hentry, heq⟩ := List.mem_map.mp hid
  obtain ⟨A, B, rfl⟩ := List.append_of_mem hentry
  have hne : s.coaps ≠ none := by
    intro hnone
    have hnodes := h.nodes
    rw [hnone] at hnodes
    exact absurd (hnodes.unique (m := []) rfl) (by simp)
  have hfound : ((A ++ entry :: B).find? (·.2.messageId = messageId)).isSome :=
    List.find?_isSome.mpr ⟨entry, by simp, by simpa using heq⟩
  obtain ⟨found, hfound⟩ := Option.isSome_iff_exists.mp hfound
  rw [coapListAdd, if_neg hne, findLoop_eq h.nodes h.nodes.length_le, hfound]
  rfl

theorem Holds.appendNode_eq (h : s.Holds (A ++ [(a, k)]))
    (hid : messageId ∉ (A ++ [(a, k)]).map (·.2.messageId)) (hfresh : fresh ∉ s.heap) :
    ∃ t, s.appendNode messageId fresh = some (t, some fresh) ∧
      t.Holds (A ++ [(a, k)] ++ [(fresh, listItemInit messageId)]) := by
  have htail : s.coapsTail = some a := h.tail (a, k) (by simp)
  obtain ⟨r, hA, hlast⟩ := segment_append.mp h.nodes
  obtain ⟨rfl, ha⟩ := segment_singleton.mp hlast
  have hnodup := h.nodes.nodup
  have haA : a ∉ A.map Prod.fst := by
    rw [List.map_append, List.nodup_append] at hnodup
    exact fun hmem => hnodup.2.2 a hmem a (by simp) rfl
  have hfreshA : fresh ∉ A.map Prod.fst := fun hmem =>
    hfresh ((h.live fresh).mpr (by rw [List.map_append]; exact List.mem_append_left _ hmem))
  have hne : a ≠ fresh := by
    rintro rfl
    exact hfresh ((h.live a).mpr (by simp))
  let heap := AList.insert fresh ⟨listItemInit messageId, none⟩
    (AList.insert a ⟨k, some fresh⟩ s.heap)
  have hheap : heap.lookup a = some ⟨k, some fresh⟩ := by
    rw [AList.lookup_insert_ne hne, AList.lookup_insert]
  refine ⟨⟨heap, s.coaps, some fresh⟩, ?_, ?_⟩
  · rw [appendNode, htail]
    change (s.heap.setNext a (some fresh)).bind _ = _
    rw [Heap.setNext_eq ha]
    change (heap.lookup a).bind _ = _
    rw [hheap]
    rfl
  · constructor
    case nodes =>
      refine h.nodes.concat (fun c hc => ?_) hheap (AList.lookup_insert _)
      rw [AList.lookup_insert_ne (ne_of_mem_of_not_mem hc hfreshA),
        AList.lookup_insert_ne (ne_of_mem_of_not_mem hc haA)]
    case live =>
      intro b
      rw [AList.mem_insert, AList.mem_insert, h.live]
      simp only [List.map_append, List.mem_append, List.map_cons, List.map_nil, List.mem_singleton]
      tauto
    case distinct =>
      rw [List.map_append, List.nodup_append]
      refine ⟨h.distinct, by simp, fun i hi j hj => ?_⟩
      obtain rfl : j = messageId := by simpa [listItemInit] using hj
      exact ne_of_mem_of_not_mem hi hid
    case tail =>
      intro entry hentry
      rw [List.getLast?_concat] at hentry
      rw [← Option.some.inj hentry]

theorem holds_singleton {s : PendingList α} (h : s.Holds []) (messageId : UInt16) (fresh : α) :
    Holds ⟨s.heap.insert fresh ⟨listItemInit messageId, none⟩, some fresh, some fresh⟩
      [(fresh, listItemInit messageId)] where
  nodes := segment_singleton.mpr ⟨rfl, AList.lookup_insert _⟩
  live a := by rw [AList.mem_insert, h.live]; simp
  distinct := by simp
  tail entry hentry := by
    obtain rfl := Option.some.inj hentry
    rfl

theorem Holds.coapListAdd_of_notMem (h : s.Holds l) (hid : messageId ∉ l.map (·.2.messageId))
    (hfresh : fresh ∉ s.heap) :
    ∃ t, s.coapListAdd messageId fresh = some (t, some fresh) ∧
      t.Holds (l ++ [(fresh, listItemInit messageId)]) := by
  have hnodes := h.nodes
  rcases List.eq_nil_or_concat l with rfl | ⟨A, ⟨a, k⟩, rfl⟩
  · have hcoaps : s.coaps = none := hnodes
    refine ⟨_, ?_, holds_singleton h messageId fresh⟩
    rw [coapListAdd, if_pos hcoaps]
  · rw [List.concat_eq_append] at *
    have hne : s.coaps ≠ none := by
      intro hnone
      rw [hnone] at hnodes
      exact absurd (hnodes.unique (m := []) rfl) (by simp)
    obtain ⟨t, happend, ht⟩ := h.appendNode_eq hid hfresh
    refine ⟨t, ?_, ht⟩
    rw [coapListAdd, if_neg hne, findLoop_eq h.nodes h.nodes.length_le,
      find?_eq_none_of_notMem hid]
    exact happend

theorem coapFree_eq_none {q : Option α} (h : heap.lookup a = some ⟨x, q⟩) (hx : x.options ≠ []) :
    coapFree heap a = none := by
  rw [coapFree, h]
  exact if_neg hx

theorem Holds.unlink_eq (h : s.Holds (A ++ (a, k) :: (b, x) :: B)) (hx : x.options = []) :
    ∃ t, s.unlink a b = some (t, true) ∧ t.Holds (A ++ (a, k) :: B) := by
  obtain ⟨r, hA, rfl, -, ha, rfl, q, hb, hB⟩ := segment_append.mp h.nodes
  have hnodup := h.nodes.nodup
  simp only [List.map_append, List.map_cons, List.nodup_append, List.nodup_cons,
    List.mem_cons, not_or] at hnodup
  obtain ⟨-, ⟨⟨hab, haB⟩, hbB, -⟩, hdisj⟩ := hnodup
  have haA : a ∉ A.map Prod.fst := fun hmem => hdisj a hmem a (.inl rfl) rfl
  have hbA : b ∉ A.map Prod.fst := fun hmem => hdisj b hmem b (.inr (.inl rfl)) rfl
  let heap := AList.insert a ⟨k, q⟩ s.heap
  have hbheap : heap.lookup b = some ⟨x, q⟩ := by
    rw [AList.lookup_insert_ne (Ne.symm hab), hb]
  refine ⟨⟨heap.erase b, s.coaps, if s.coapsTail = some b then some a else s.coapsTail⟩, ?_, ?_⟩
  · rw [unlink, hb]
    change (s.heap.setNext a q).bind _ = _
    rw [Heap.setNext_eq ha]
    change (coapFree heap b).bind _ = _
    rw [coapFree_eq hbheap hx]
    rfl
  · constructor
    case nodes =>
      refine segment_append.mpr ⟨some a, (hA.insert haA).erase hbA, rfl, q, ?_, ?_⟩
      · rw [AList.lookup_erase_ne hab, AList.lookup_insert]
      · exact (hB.insert haB).erase hbB
    case live =>
      intro c
      rw [AList.mem_erase, AList.mem_insert, h.live]
      simp only [List.map_append, List.map_cons, List.mem_append, List.mem_cons]
      constructor
      · tauto
      · rintro (hc | rfl | hc)
        · exact ⟨ne_of_mem_of_not_mem hc hbA, .inr (.inl hc)⟩
        · exact ⟨hab, .inl rfl⟩
        · exact ⟨ne_of_mem_of_not_mem hc hbB, .inr (.inr (.inr (.inr hc)))⟩
    case distinct =>
      refine h.distinct.sublist (List.Sublist.map _ ?_)
      exact (List.Sublist.refl A).append ((List.sublist_cons_self _ _).cons_cons _)
    case tail =>
      -- the tail pointer moves exactly if the node that goes is the last one
      intro entry hentry
      rcases List.eq_nil_or_concat B with rfl | ⟨B, last, rfl⟩
      · have htail : s.coapsTail = some b := h.tail (b, x) (by simp)
        obtain rfl : (a, k) = entry := by simpa using hentry
        rw [htail]
        exact if_pos rfl
      · have hlast (C : List (α × Package)) : (A ++ C ++ B.concat last).getLast? = some last := by
          rw [List.concat_eq_append, ← List.append_assoc, List.getLast?_concat]
        have hold : s.coapsTail = some last.1 := h.tail last (by simpa using hlast [(a, k), (b, x)])
        obtain rfl : last = entry := by
          have hnew := hlast [(a, k)]
          rw [List.append_assoc, List.singleton_append, hentry] at hnew
          exact (Option.some.inj hnew).symm
        have hne : last.1 ≠ b := by
          rintro rfl
          simp at hbB
        rw [hold]
        exact if_neg (by simpa using hne)

theorem Holds.unlink_eq_none (h : s.Holds (A ++ (a, k) :: (b, x) :: B)) (hx : x.options ≠ []) :
    s.unlink a b = none := by
  obtain ⟨r, -, rfl, -, ha, rfl, q, hb, -⟩ := segment_append.mp h.nodes
  have hnodup := h.nodes.nodup
  simp only [List.map_append, List.map_cons, List.nodup_append, List.nodup_cons,
    List.mem_cons, not_or] at hnodup
  have hbheap : (AList.insert a ⟨k, q⟩ s.heap).lookup b = some ⟨x, q⟩ := by
    rw [AList.lookup_insert_ne (Ne.symm hnodup.2.1.1.1), hb]
  rw [unlink, hb]
  change (s.heap.setNext a q).bind _ = _
  rw [Heap.setNext_eq ha]
  change (coapFree _ b).bind _ = _
  rw [coapFree_eq_none hbheap hx]
  rfl

theorem delLoop_of_split (h : s.heap.Segment (some a) ((a, k) :: A ++ (b, x) :: B) none)
    (hA : ∀ entry ∈ A, entry.2.messageId ≠ messageId) (hx : x.messageId = messageId)
    (hn : A.length < n) :
    ∃ C c k', (a, k) :: A = C ++ [(c, k')] ∧ s.delLoop messageId n a = s.unlink c b := by
  induction A generalizing a k n with
  | nil =>
    obtain ⟨n, rfl⟩ := Nat.exists_eq_add_one.mpr hn
    obtain ⟨-, r, ha, rfl, q, hb, -⟩ := h
    refine ⟨[], a, k, rfl, ?_⟩
    rw [delLoop, ha]
    change (s.heap.lookup b).bind _ = _
    rw [hb]
    exact if_pos hx.symm
  | cons entry A ih =>
    obtain ⟨c, k'⟩ := entry
    obtain ⟨n, rfl⟩ := Nat.exists_eq_add_one.mpr (Nat.zero_lt_of_lt hn)
    obtain ⟨-, r, ha, hrest⟩ := h
    obtain ⟨rfl, q, hc, -⟩ := id hrest
    obtain ⟨C, d, k'', hsplit, hloop⟩ := ih hrest (fun e he => hA e (by simp [he]))
      (by simpa using hn)
    refine ⟨(a, k) :: C, d, k'', by rw [hsplit]; rfl, ?_⟩
    rw [delLoop, ha]
    change (s.heap.lookup c).bind _ = _
    rw [hc, ← hloop]
    exact if_neg (Ne.symm (hA (c, k') (by simp)))

theorem delLoop_of_notMem (h : s.heap.Segment (some a) ((a, k) :: l) none)
    (hl : ∀ entry ∈ l, entry.2.messageId ≠ messageId) (hn : l.length < n) :
    s.delLoop messageId n a = some (s, false) := by
  induction l generalizing a k n with
  | nil =>
    obtain ⟨n, rfl⟩ := Nat.exists_eq_add_one.mpr hn
    obtain ⟨-, r, ha, rfl⟩ := h
    rw [delLoop, ha]
    rfl
  | cons entry l ih =>
    obtain ⟨c, k'⟩ := entry
    obtain ⟨n, rfl⟩ := Nat.exists_eq_add_one.mpr (Nat.zero_lt_of_lt hn)
    obtain ⟨-, r, ha, hrest⟩ := h
    obtain ⟨rfl, q, hc, -⟩ := id hrest
    have hloop := ih hrest (fun e he => hl e (by simp [he])) (by simpa using hn)
    rw [delLoop, ha]
    change (s.heap.lookup c).bind _ = _
    rw [hc, ← hloop]
    exact if_neg (Ne.symm (hl (c, k') (by simp)))

theorem Holds.coapListDel_of_notMem (h : s.Holds l) (hid : messageId ∉ l.map (·.2.messageId)) :
    s.coapListDel messageId = some (s, false) := by
  have hne : ∀ entry ∈ l, entry.2.messageId ≠ messageId := fun entry hentry heq =>
    hid (List.mem_map.mpr ⟨entry, hentry, heq⟩)
  have hnodes := h.nodes
  cases l with
  | nil =>
    have hcoaps : s.coaps = none := hnodes
    rw [coapListDel, hcoaps]
  | cons entry l =>
    obtain ⟨a, k⟩ := entry
    obtain ⟨hcoaps, r, ha, -⟩ := id hnodes
    rw [hcoaps] at hnodes
    rw [coapListDel, hcoaps]
    change (s.heap.lookup a).bind _ = _
    rw [ha, ← delLoop_of_notMem hnodes (fun e he => hne e (by simp [he])) hnodes.length_le]
    exact if_neg (hne (a, k) (by simp))

theorem Holds.coapListDel_head (h : s.Holds ((a, x) :: B)) (hid : x.messageId = messageId)
    (hx : x.options = []) :
    ∃ t, s.coapListDel messageId = some (t, true) ∧ t.Holds B := by
  obtain ⟨hcoaps, q, ha, hB⟩ := h.nodes
  have haB : a ∉ B.map Prod.fst := (List.nodup_cons.mp h.nodes.nodup).1
  refine ⟨⟨s.heap.erase a, q, s.coapsTail⟩, ?_, ?_⟩
  · rw [coapListDel, hcoaps]
    change (s.heap.lookup a).bind _ = _
    rw [ha]
    refine (if_pos hid).trans ?_
    change (coapFree s.heap a).bind _ = _
    rw [coapFree_eq ha hx]
    rfl
  · constructor
    case nodes => exact hB.erase haB
    case live =>
      intro c
      rw [AList.mem_erase, h.live, List.map_cons, List.mem_cons]
      constructor
      · tauto
      · exact fun hc => ⟨ne_of_mem_of_not_mem hc haB, .inr hc⟩
    case distinct => exact (List.nodup_cons.mp h.distinct).2
    case tail =>
      -- the tail pointer of a list that becomes empty is left at the freed node
      intro entry hentry
      obtain ⟨last, hlast⟩ : ∃ last, B.getLast? = some last := ⟨entry, hentry⟩
      refine h.tail entry ?_
      rw [List.getLast?_cons, hlast]
      rw [hlast] at hentry
      simpa using hentry

theorem Holds.head_ne (h : s.Holds ((a, k) :: A ++ (b, x) :: B)) (hid : x.messageId = messageId) :
    ∀ entry ∈ (a, k) :: A, entry.2.messageId ≠ messageId := by
  intro entry hentry
  have hdistinct := h.distinct
  rw [List.map_append, List.nodup_append] at hdistinct
  exact hid ▸ hdistinct.2.2 _ (List.mem_map_of_mem hentry) _ (by simp)

theorem Holds.coapListDel_inner (h : s.Holds ((a, k) :: A ++ (b, x) :: B))
    (hid : x.messageId = messageId) :
    ∃ C c k', (a, k) :: A = C ++ [(c, k')] ∧ s.coapListDel messageId = s.unlink c b := by
  have hne := h.head_ne hid
  have hnodes := h.nodes
  obtain ⟨hcoaps, r, ha, -⟩ := id hnodes
  rw [hcoaps] at hnodes
  have hlen := hnodes.length_le
  obtain ⟨C, c, k', hsplit, hloop⟩ := delLoop_of_split hnodes
    (fun e he => hne e (List.mem_cons_of_mem _ he)) hid
    (show A.length < s.heap.keys.length by simp at hlen; omega)
  refine ⟨C, c, k', hsplit, ?_⟩
  rw [coapListDel, hcoaps]
  change (s.heap.lookup a).bind _ = _
  rw [ha, ← hloop]
  exact if_neg (hne (a, k) (by simp))

theorem Holds.coapListDel_of_split (h : s.Holds (A ++ (b, x) :: B)) (hid : x.messageId = messageId)
    (hx : x.options = []) :
    ∃ t, s.coapListDel messageId = some (t, true) ∧ t.Holds (A ++ B) := by
  cases A with
  | nil => exact h.coapListDel_head hid hx
  | cons entry A =>
    obtain ⟨C, c, k', hsplit, hdel⟩ := h.coapListDel_inner hid
    rw [hsplit, List.append_assoc] at h
    obtain ⟨t, hunlink, ht⟩ := h.unlink_eq hx
    exact ⟨t, hdel.trans hunlink, by rw [hsplit, List.append_assoc]; exact ht⟩

theorem Holds.coapListDel_eq_none (h : s.Holds (A ++ (b, x) :: B)) (hid : x.messageId = messageId)
    (hx : x.options ≠ []) : s.coapListDel messageId = none := by
  cases A with
  | nil =>
    obtain ⟨hcoaps, q, hb, -⟩ := h.nodes
    rw [coapListDel, hcoaps]
    change (s.heap.lookup b).bind _ = _
    rw [hb]
    refine (if_pos hid).trans ?_
    change (coapFree s.heap b).bind _ = _
    rw [coapFree_eq_none hb hx]
    rfl
  | cons entry A =>
    obtain ⟨C, c, k', hsplit, hdel⟩ := h.coapListDel_inner hid
    rw [hsplit, List.append_assoc] at h
    exact hdel.trans (h.unlink_eq_none hx)

end Laws

section Client

variable {l : List (α × Package)} {coaps : List Item} {messageId : UInt16}

omit [DecidableEq α] in
theorem map_package_eraseP (h : coaps.map (·.package) = l.map Prod.snd) :
    (coaps.eraseP (·.package.messageId = messageId)).map (·.package) =
      (l.eraseP (·.2.messageId = messageId)).map Prod.snd := by
  have herase : (coaps.map (·.package)).eraseP (·.messageId = messageId) =
      (l.map Prod.snd).eraseP (·.messageId = messageId) := by rw [h]
  rwa [List.eraseP_map, List.eraseP_map] at herase

omit [DecidableEq α] in
theorem map_package_getByMsgId (h : coaps.map (·.package) = l.map Prod.snd) :
    (getByMsgId coaps messageId).map (·.package) =
      (l.find? (·.2.messageId = messageId)).map Prod.snd := by
  have hfind : (coaps.map (·.package)).find? (·.messageId = messageId) =
      (l.map Prod.snd).find? (·.messageId = messageId) := by rw [h]
  rwa [List.find?_map, List.find?_map] at hfind

/-- Where a freed node is lost at once, the list that the client is modelled with loses the package
that the nodes lose, and neither has a result for a package with options. -/
theorem Holds.listDel_refines {s : PendingList α} (hs : s.Holds l)
    (h : coaps.map (·.package) = l.map Prod.snd) :
    (∃ t b m, s.coapListDel messageId = some (t, b) ∧ t.Holds m ∧
        ∃ rest, listDel false messageId coaps = .ok rest ∧ rest.map (·.package) = m.map Prod.snd) ∨
      s.coapListDel messageId = none ∧ listDel false messageId coaps = .error .freed := by
  have hfind : _ = (l.find? (·.2.messageId = messageId)).map Prod.snd :=
    map_package_getByMsgId h
  rw [listDel_eq]
  by_cases hid : messageId ∈ l.map (·.2.messageId)
  · obtain ⟨entry, hentry, heq⟩ := List.mem_map.mp hid
    obtain ⟨⟨b, x⟩, A, B, hA, hx, rfl, herase⟩ :=
      List.exists_of_eraseP (p := (·.2.messageId = messageId)) hentry (by simpa using heq)
    have hfound : (A ++ (b, x) :: B).find? (·.2.messageId = messageId) = some (b, x) := by
      rw [List.find?_append, List.find?_eq_none.mpr fun e he => by simpa using hA e he,
        List.find?_cons_of_pos (by simpa using hx)]
      rfl
    rw [hfound] at hfind
    obtain ⟨item, hitem, hpackage⟩ := Option.map_eq_some_iff.mp hfind
    change item.package = x at hpackage
    rw [hitem]
    dsimp only
    rw [Client.coapFree_eq, hpackage]
    have hx : x.messageId = messageId := by simpa using hx
    by_cases hoptions : x.options = []
    · obtain ⟨t, hdel, ht⟩ := hs.coapListDel_of_split hx hoptions
      refine .inl ⟨t, true, _, hdel, ht, _, by rw [if_pos (.inl hoptions)]; rfl, ?_⟩
      rw [map_package_eraseP h, herase]
    · refine .inr ⟨hs.coapListDel_eq_none hx hoptions, ?_⟩
      rw [if_neg (by simp [hoptions])]
      rfl
  · rw [find?_eq_none_of_notMem hid] at hfind
    rw [Option.map_eq_none_iff.mp hfind]
    exact .inl ⟨s, false, l, hs.coapListDel_of_notMem hid, hs, coaps, rfl, h⟩

omit [DecidableEq α] in
theorem map_package_listAdd {s t : State} {item : Item}
    (h : s.coaps.map (·.package) = l.map Prod.snd) (hadd : s.listAdd messageId = some (t, item))
    (a : α) :
    messageId ∉ l.map (·.2.messageId) ∧
      t.coaps.map (·.package) = (l ++ [(a, listItemInit messageId)]).map Prod.snd := by
  have hany : ¬ s.coaps.any (·.package.messageId = messageId) := by
    intro hany
    rw [State.listAdd, if_pos hany] at hadd
    cases hadd
  have hids : s.coaps.map (·.package.messageId) = l.map (·.2.messageId) := by
    have hmap := congrArg (List.map Package.messageId) h
    rwa [List.map_map, List.map_map] at hmap
  rw [State.listAdd, if_neg hany] at hadd
  obtain rfl := (Prod.mk.inj (Option.some.inj hadd)).1
  refine ⟨fun hid => hany ?_, by simp [h]⟩
  obtain ⟨item, hitem, heq⟩ := List.mem_map.mp (hids ▸ hid)
  exact List.any_eq_true.mpr ⟨item, hitem, by simpa using heq⟩

end Client

section Runs

/-- A call, with what `malloc` returns if it is called. -/
inductive Call (α : Type) where
  | add (messageId : UInt16) (fresh : α)
  | del (messageId : UInt16)
  | get (messageId : UInt16)

/-- What a call returns. -/
inductive Answer (α : Type) where
  | node (p : Option α)
  | deleted (b : Bool)

def call (s : PendingList α) : Call α → Option (PendingList α × Answer α)
  | .add messageId fresh => (s.coapListAdd messageId fresh).map fun (t, p) => (t, .node p)
  | .del messageId => (s.coapListDel messageId).map fun (t, b) => (t, .deleted b)
  | .get messageId => (s.coapGetByMsgId messageId).map fun p => (s, .node p)

/-- Where `malloc` is called, it returns an address that is not in use. -/
def Mallocs (s : PendingList α) : Call α → Prop
  | .add messageId fresh => s.coapGetByMsgId messageId = some none → fresh ∉ s.heap
  | .del _ | .get _ => True

def system : System (PendingList α) (Call α × Answer α) where
  init s := s.heap = ∅ ∧ s.coaps = none
  step s e t := s.Mallocs e.1 ∧ s.call e.1 = some (t, e.2)

/-- The ordered map: the IDs added and not deleted since. -/
def Call.ids (ids : List UInt16) : Call α → List UInt16
  | .add messageId _ => if messageId ∈ ids then ids else ids ++ [messageId]
  | .del messageId => ids.erase messageId
  | .get _ => ids

/-- What the three functions tell about an ID, and what they do to the list. -/
structure Answers (s : PendingList α) (l : List (α × Package)) (messageId : UInt16) : Prop where
  add : ∀ fresh, s.Mallocs (.add messageId fresh) →
    ∃ t p, s.coapListAdd messageId fresh = some (t, p) ∧
      (p = none ↔ messageId ∈ l.map (·.2.messageId)) ∧ (p = none → t = s) ∧
      (p ≠ none → p = some fresh ∧ t.Holds (l ++ [(fresh, listItemInit messageId)]))
  del : ∃ t b, s.coapListDel messageId = some (t, b) ∧
    (b = true ↔ messageId ∈ l.map (·.2.messageId)) ∧ (b = false → t = s) ∧
    t.Holds (l.eraseP (·.2.messageId = messageId))
  get : ∃ p, s.coapGetByMsgId messageId = some p ∧
    ∀ a, p = some a ↔ ∃ coap, (a, coap) ∈ l ∧ coap.messageId = messageId

variable {s t : PendingList α} {messageId : UInt16} {fresh : α} {l : List (α × Package)}
  {ids : List UInt16}

theorem Holds.notMem_of_mallocs (h : s.Holds l) (hid : messageId ∉ l.map (·.2.messageId))
    (hm : s.Mallocs (.add messageId fresh)) : fresh ∉ s.heap :=
  hm (by rw [h.coapGetByMsgId_eq, find?_eq_none_of_notMem hid]; rfl)

omit [DecidableEq α] in
theorem eraseP_of_notMem (hid : messageId ∉ l.map (·.2.messageId)) :
    l.eraseP (·.2.messageId = messageId) = l :=
  List.eraseP_of_forall_not fun entry hentry heq =>
    hid (List.mem_map.mpr ⟨entry, hentry, of_decide_eq_true heq⟩)

theorem Holds.coapListDel_of_mem (h : s.Holds l) (hid : messageId ∈ l.map (·.2.messageId))
    (hl : ∀ entry ∈ l, entry.2.options = []) :
    ∃ t, s.coapListDel messageId = some (t, true) ∧
      t.Holds (l.eraseP (·.2.messageId = messageId)) := by
  obtain ⟨entry, hentry, heq⟩ := List.mem_map.mp hid
  obtain ⟨⟨b, x⟩, A, B, -, hx, rfl, herase⟩ :=
    List.exists_of_eraseP (p := (·.2.messageId = messageId)) hentry (by simpa using heq)
  rw [herase]
  exact h.coapListDel_of_split (by simpa using hx) (hl (b, x) (by simp))

theorem Holds.answers (h : s.Holds l) (hl : ∀ entry ∈ l, entry.2.options = [])
    (messageId : UInt16) : s.Answers l messageId := by
  constructor
  case add =>
    intro fresh hm
    by_cases hid : messageId ∈ l.map (·.2.messageId)
    · exact ⟨s, none, h.coapListAdd_of_mem hid fresh, iff_of_true rfl hid, fun _ => rfl,
        fun hne => absurd rfl hne⟩
    · obtain ⟨t, hadd, ht⟩ := h.coapListAdd_of_notMem hid (h.notMem_of_mallocs hid hm)
      exact ⟨t, some fresh, hadd, iff_of_false (by simp) hid, fun hnone => absurd hnone (by simp),
        fun _ => ⟨rfl, ht⟩⟩
  case del =>
    by_cases hid : messageId ∈ l.map (·.2.messageId)
    · obtain ⟨t, hdel, ht⟩ := h.coapListDel_of_mem hid hl
      exact ⟨t, true, hdel, iff_of_true rfl hid, fun hfalse => absurd hfalse (by simp), ht⟩
    · refine ⟨s, false, h.coapListDel_of_notMem hid, iff_of_false (by simp) hid, fun _ => rfl, ?_⟩
      rwa [eraseP_of_notMem hid]
  case get =>
    refine ⟨_, h.coapGetByMsgId_eq messageId, fun a => ?_⟩
    rw [Option.map_eq_some_iff]
    constructor
    · rintro ⟨⟨b, coap⟩, hfind, rfl⟩
      exact ⟨coap, List.mem_of_find?_eq_some hfind, by simpa using List.find?_some hfind⟩
    · rintro ⟨coap, hmem, hid⟩
      obtain ⟨found, hfound⟩ : ∃ found, l.find? (·.2.messageId = messageId) = some found :=
        Option.isSome_iff_exists.mp (List.find?_isSome.mpr ⟨_, hmem, by simpa using hid⟩)
      have hid' : found.2.messageId = messageId := by simpa using List.find?_some hfound
      have heq : found = (a, coap) := List.inj_on_of_nodup_map h.distinct
        (List.mem_of_find?_eq_some hfound) hmem (hid'.trans hid.symm)
      exact ⟨found, hfound, by rw [heq]⟩

omit [DecidableEq α] in
theorem map_messageId (hl : l.map Prod.snd = ids.map listItemInit) :
    l.map (·.2.messageId) = ids := by
  have h := congrArg (List.map Package.messageId) hl
  rw [List.map_map, List.map_map] at h
  exact h.trans (List.map_id ids)

omit [DecidableEq α] in
theorem options_eq_nil (hl : l.map Prod.snd = ids.map listItemInit) :
    ∀ entry ∈ l, entry.2.options = [] := by
  intro entry hentry
  have hmem : entry.2 ∈ ids.map listItemInit := hl ▸ List.mem_map_of_mem hentry
  obtain ⟨messageId, -, heq⟩ := List.mem_map.mp hmem
  rw [← heq]
  rfl

theorem Holds.step (h : s.Holds l) (hl : l.map Prod.snd = ids.map listItemInit)
    {e : Call α × Answer α} (hstep : system.step s e t) :
    ∃ m, t.Holds m ∧ m.map Prod.snd = (e.1.ids ids).map listItemInit := by
  obtain ⟨c, answer⟩ := e
  obtain ⟨hm, hcall⟩ := hstep
  have hids := map_messageId hl
  cases c with
  | add messageId fresh =>
    obtain ⟨⟨u, p⟩, hadd, hu⟩ := Option.map_eq_some_iff.mp hcall
    obtain rfl : u = t := (Prod.mk.inj hu).1
    change ∃ m, u.Holds m ∧ m.map Prod.snd =
      (if messageId ∈ ids then ids else ids ++ [messageId]).map listItemInit
    by_cases hid : messageId ∈ ids
    · rw [h.coapListAdd_of_mem (hids ▸ hid)] at hadd
      obtain rfl : s = u := (Prod.mk.inj (Option.some.inj hadd)).1
      rw [if_pos hid]
      exact ⟨l, h, hl⟩
    · obtain ⟨v, hadd', hv⟩ := h.coapListAdd_of_notMem (hids ▸ hid)
        (h.notMem_of_mallocs (hids ▸ hid) hm)
      rw [hadd'] at hadd
      obtain rfl : v = u := (Prod.mk.inj (Option.some.inj hadd)).1
      rw [if_neg hid]
      refine ⟨_, hv, ?_⟩
      rw [List.map_append, List.map_append, hl]
      rfl
  | del messageId =>
    obtain ⟨⟨u, b⟩, hdel, hu⟩ := Option.map_eq_some_iff.mp hcall
    obtain rfl : u = t := (Prod.mk.inj hu).1
    obtain ⟨v, b', hdel', -, -, hv⟩ := (h.answers (options_eq_nil hl) messageId).del
    rw [hdel'] at hdel
    obtain rfl : v = u := (Prod.mk.inj (Option.some.inj hdel)).1
    refine ⟨_, hv, ?_⟩
    have herase : (l.map Prod.snd).eraseP (·.messageId = messageId) =
        (ids.map listItemInit).eraseP (·.messageId = messageId) := by rw [hl]
    rw [List.eraseP_map, List.eraseP_map] at herase
    refine herase.trans (congrArg _ ?_)
    change _ = ids.erase messageId
    rw [List.erase_eq_eraseP]
    refine congrArg (List.eraseP · ids) (funext fun i => ?_)
    change decide (i = messageId) = (messageId == i)
    rw [beq_eq_decide, decide_eq_decide]
    exact eq_comm
  | get messageId =>
    obtain ⟨p, -, hu⟩ := Option.map_eq_some_iff.mp hcall
    obtain rfl : s = t := (Prod.mk.inj hu).1
    exact ⟨l, h, hl⟩

theorem Holds.run (h : s.Holds l) (hl : l.map Prod.snd = ids.map listItemInit)
    {calls : List (Call α × Answer α)} (hrun : system.Run s calls t) :
    ∃ m, t.Holds m ∧
      m.map Prod.snd = ((calls.map Prod.fst).foldl Call.ids ids).map listItemInit := by
  induction hrun generalizing l ids with
  | nil => exact ⟨l, h, hl⟩
  | cons hstep _ ih =>
    obtain ⟨m, hm, hids⟩ := h.step hl hstep
    exact ih hm hids

end Runs

/-- After every sequence of calls the list has the IDs of the ordered map, each in an untouched
package, and its functions answer as those of the map. -/
theorem refines_of_run {s t : PendingList α} {calls : List (Call α × Answer α)}
    (hs : system.init s) (hrun : system.Run s calls t) :
    ∃ l, t.Holds l ∧
      l.map Prod.snd = ((calls.map Prod.fst).foldl Call.ids []).map listItemInit ∧
      ∀ messageId, t.Answers l messageId := by
  obtain ⟨hheap, hcoaps⟩ := hs
  have hstart : s.Holds [] := by
    constructor
    case nodes => exact hcoaps
    case live => simp [hheap]
    case distinct => exact List.nodup_nil
    case tail => simp
  obtain ⟨l, hl, hids⟩ := hstart.run (show [].map Prod.snd = [].map listItemInit from rfl) hrun
  exact ⟨l, hl, hids, fun messageId => hl.answers (options_eq_nil hids) messageId⟩

theorem refines_of_run_reuse :
    ∃ t : PendingList ℕ, (∃ calls, system.Run ⟨∅, none, none⟩ calls t ∧
      calls.map Prod.fst = [.add 1 8, .add 2 16, .del 1, .add 3 8]) ∧
      ∃ l, t.Holds l ∧ l.map Prod.snd = [listItemInit 2, listItemInit 3] := by
  have hrun : system.Run (⟨∅, none, none⟩ : PendingList ℕ)
      [(.add 1 8, .node (some 8)), (.add 2 16, .node (some 16)), (.del 1, .deleted true),
        (.add 3 8, .node (some 8))] _ :=
    .cons ⟨fun _ => by decide, rfl⟩ <| .cons ⟨fun _ => by decide, rfl⟩ <|
      .cons ⟨trivial, rfl⟩ <| .cons ⟨fun _ => by decide, rfl⟩ <| .nil _
  obtain ⟨l, hl, hids, -⟩ := refines_of_run ⟨rfl, rfl⟩ hrun
  exact ⟨_, ⟨_, hrun, rfl⟩, l, hl, hids⟩

end PendingList

end Mbtk.Client
