import Mbtk.Lib.DoublyLinked
import Mbtk.Lib.Resource
import Mbtk.Lib.Transition
import Mbtk.Stanet.Daemon

namespace Mbtk.Stanet

open Lib DHeap

variable {α : Type} [DecidableEq α]

/-- The sessions that are allocated, with `session_id`, and `session_list`. -/
structure SessionList (α : Type) where
  heap : DHeap α ℤ
  sessionList : Option α

namespace SessionList

def start : SessionList α := ⟨∅, none⟩

section Functions

variable (s : SessionList α)

def sessionInit (session : α) (id : ℤ) : SessionList α :=
  { s with heap := s.heap.insert session ⟨id, none, none⟩ }

def sessionAdd (session : α) : Option (SessionList α) := do
  let heap ← DHeap.setPre s.heap session none
  let heap ← DHeap.setNext heap session s.sessionList
  match s.sessionList with
  | some first => do
    let heap ← DHeap.setPre heap first (some session)
    return ⟨heap, some session⟩
  | none => return ⟨heap, some session⟩

/-- The loops over the list, up to the first session that is looked for.  A walk over more
sessions than there are has no result. -/
def findLoop (heap : DHeap α ℤ) (wanted : α → ℤ → Bool) : ℕ → Option α → Option (Option α)
  | _, none => some none
  | 0, some _ => none
  | n + 1, some sessionP => do
    let session ← heap.lookup sessionP
    if wanted sessionP session.value then return some sessionP
    else findLoop heap wanted n session.next

def find (wanted : α → ℤ → Bool) : Option (Option α) :=
  findLoop s.heap wanted s.heap.keys.length s.sessionList

def sessionGet (sessionId : ℤ) : Option (Option α) := s.find fun _ id => id = sessionId

/-- `session_get_usable`, by the states of the sessions. -/
def sessionGetUsable (state : α → SessionState) : Option ℤ := do
  match ← s.find fun session _ => state session = .unused with
  | none => return -1
  | some sessionP => return (← s.heap.lookup sessionP).value

/-- The four cases of `session_del`, and `free`. -/
def unlink (sessionP : α) (session : DNode α ℤ) : Option (SessionList α) :=
  match session.pre, session.next with
  | some pre, some next => do
    let heap ← DHeap.setNext s.heap pre session.next
    let heap ← DHeap.setPre heap next session.pre
    return ⟨heap.erase sessionP, s.sessionList⟩
  | none, none => some ⟨s.heap.erase sessionP, none⟩
  | none, some next => do
    let heap ← DHeap.setPre s.heap next none
    return ⟨heap.erase sessionP, some next⟩
  | some pre, none => do
    let heap ← DHeap.setNext s.heap pre none
    return ⟨heap.erase sessionP, s.sessionList⟩

/-- `session_del`, with the session that it frees when it returns TRUE. -/
def sessionDel (session : Option α) : Option (SessionList α × Option α) :=
  match s.sessionList, session with
  | some _, some session => do
    let sessionId := (← s.heap.lookup session).value
    if sessionId = -1 then return (s, none)
    else
      match ← s.find fun _ id => id = sessionId with
      | none => return (s, none)
      | some sessionP => do
        let t ← s.unlink sessionP (← s.heap.lookup sessionP)
        return (t, some sessionP)
  | _, _ => some (s, none)

/-- One turn of the loop of `session_list_create`, with what `malloc` returns and whether
`pthread_create` succeeds. -/
def create (session : α) (id : ℤ) (created : Bool) : Option (SessionList α) :=
  let t := s.sessionInit session id
  if created then t.sessionAdd session else some t

end Functions

/-- `session_list_create`. -/
def sessionListCreate (session : Fin SESSION_MAX_COUNT → α)
    (created : Fin SESSION_MAX_COUNT → Bool) : Option (SessionList α) :=
  (List.finRange SESSION_MAX_COUNT).foldlM
    (fun s i => s.create (session i) ((SESSION_MAX_COUNT : ℤ) - i - 1) (created i)) start

/-- What is done to the list, with the session that `session_del` frees. -/
inductive ListEvent (α : Type)
  | create (session : α) (id : ℤ) (created : Bool)
  | del (session : Option α) (freed : Option α)

/-- `malloc` returns what is not allocated. -/
def step (s : SessionList α) : ListEvent α → SessionList α → Prop
  | .create session id created, t => session ∉ s.heap ∧ s.create session id created = some t
  | .del session freed, t => s.sessionDel session = some (t, freed)

def sessionLists (α : Type) [DecidableEq α] : System (SessionList α) (ListEvent α) where
  init s := s = start
  step := step

/-- The sessions with their numbers from the newest on, and those whose threads were not created. -/
structure Registry (α : Type) where
  listed : List (α × ℤ)
  lost : List (α × ℤ)

/-- To delete is to take out the first session that has the number of the given one. -/
inductive RegistryStep (own : Registry α) : ListEvent α → Registry α → Prop
  | create (session : α) (id : ℤ) :
      RegistryStep own (.create session id true) ⟨(session, id) :: own.listed, own.lost⟩
  | lose (session : α) (id : ℤ) :
      RegistryStep own (.create session id false) ⟨own.listed, (session, id) :: own.lost⟩
  | del {session freed : α} {id : ℤ} {newer older : List (α × ℤ)} :
      (session, id) ∈ own.listed ++ own.lost → id ≠ -1 →
      own.listed = newer ++ (freed, id) :: older → (∀ entry ∈ newer, entry.2 ≠ id) →
      RegistryStep own (.del (some session) (some freed)) ⟨newer ++ older, own.lost⟩
  | absent {session : α} {id : ℤ} :
      (session, id) ∈ own.listed ++ own.lost →
      (id = -1 ∨ ∀ entry ∈ own.listed, entry.2 ≠ id) →
      RegistryStep own (.del (some session) none) own
  | empty (session : Option α) : own.listed = [] → RegistryStep own (.del session none) own
  | null : RegistryStep own (.del none none) own

def registry (α : Type) : System (Registry α) (ListEvent α) where
  init own := own = ⟨[], []⟩
  step := RegistryStep

/-- The list holds these sessions, in this order, both forwards and backwards. -/
structure Holds (s : SessionList α) (l : List (α × ℤ)) : Prop where
  segment : ∃ last, s.heap.Segment none s.sessionList l last none
  nodup : (l.map Prod.fst).Nodup

section Laws

variable {s t : SessionList α} {l : List (α × ℤ)} {a : α} {id : ℤ} {wanted : α → ℤ → Bool}
  {heap : DHeap α ℤ} {b c p r last : Option α} {n : ℕ} {A B : List (α × ℤ)}

theorem holds_start : Holds (start : SessionList α) [] := ⟨⟨none, rfl, rfl⟩, .nil⟩

theorem findLoop_eq (h : heap.Segment b p l c none) (hn : l.length ≤ n) :
    findLoop heap wanted n p =
      some ((l.find? fun entry => wanted entry.1 entry.2).map Prod.fst) := by
  induction l generalizing b p n with
  | nil =>
    obtain ⟨-, rfl⟩ := h
    cases n <;> rfl
  | cons entry l ih =>
    obtain ⟨n, rfl⟩ := Nat.exists_eq_add_one.mpr (Nat.zero_lt_of_lt hn)
    obtain ⟨rfl, r, hr, hrest⟩ := h
    rw [findLoop, hr, List.find?_cons]
    change (if wanted entry.1 entry.2 = true then _ else _) = _
    split_ifs with hwanted
    · rw [hwanted]
      rfl
    · rw [Bool.not_eq_true] at hwanted
      rw [hwanted]
      exact ih hrest (Nat.le_of_succ_le_succ hn)

theorem Holds.length_le (h : Holds s l) : l.length ≤ s.heap.keys.length := by
  obtain ⟨last, hsegment⟩ := h.segment
  have hsub : l.map Prod.fst ⊆ s.heap.keys := fun a ha => AList.mem_keys.mp (hsegment.mem ha)
  simpa using (h.nodup.subperm hsub).length_le

theorem Holds.find_eq (h : Holds s l) : s.find wanted =
    some ((l.find? fun entry => wanted entry.1 entry.2).map Prod.fst) := by
  obtain ⟨last, hsegment⟩ := h.segment
  exact findLoop_eq hsegment h.length_le

theorem Holds.value_eq (h : Holds s l) (ha : (a, id) ∈ l) : s.heap.valueOf a = some id := by
  obtain ⟨last, hsegment⟩ := h.segment
  exact hsegment.valueOf_eq ha

theorem Holds.mem (h : Holds s l) (ha : a ∈ l.map Prod.fst) : a ∈ s.heap := by
  obtain ⟨last, hsegment⟩ := h.segment
  exact hsegment.mem ha

theorem Holds.sessionGet_eq (h : Holds s l) (sessionId : ℤ) : s.sessionGet sessionId =
    some ((l.find? fun entry => entry.2 = sessionId).map Prod.fst) := h.find_eq

theorem Holds.sessionGetUsable_eq (h : Holds s l) (state : α → SessionState) :
    s.sessionGetUsable state =
      some (((l.find? fun entry => state entry.1 = .unused).map Prod.snd).getD (-1)) := by
  rw [sessionGetUsable, h.find_eq]
  cases hfind : l.find? fun entry => state entry.1 = .unused with
  | none => rfl
  | some entry =>
    obtain ⟨node, hnode, hvalue⟩ :=
      Option.map_eq_some_iff.mp (h.value_eq (List.mem_of_find?_eq_some hfind))
    change (s.heap.lookup entry.1).bind (fun node => some node.value) = some entry.2
    rw [hnode, ← hvalue]
    rfl

theorem Holds.init (h : Holds s l) (ha : a ∉ s.heap) (id : ℤ) : Holds (s.sessionInit a id) l := by
  obtain ⟨last, hsegment⟩ := h.segment
  exact ⟨⟨last, hsegment.insert fun hmem => ha (hsegment.mem hmem)⟩, h.nodup⟩

theorem Holds.exists_add (h : Holds s l) (ha : a ∉ l.map Prod.fst)
    (hid : s.heap.valueOf a = some id) :
    ∃ t, s.sessionAdd a = some t ∧ Holds t ((a, id) :: l) ∧
      ∀ x, t.heap.valueOf x = s.heap.valueOf x := by
  obtain ⟨node, hnode, rfl⟩ := Option.map_eq_some_iff.mp hid
  obtain ⟨last, hsegment⟩ := h.segment
  have hpre := setPre_eq hnode none
  have hnext := setNext_eq (AList.lookup_insert s.heap (a := a) (b := { node with pre := none }))
    s.sessionList
  generalize hheap : AList.insert a { node with pre := none, next := s.sessionList }
    (s.heap.insert a { node with pre := none }) = heap at hnext
  have hvalue (x : α) : valueOf heap x = s.heap.valueOf x :=
    (valueOf_setNext hnext).trans (valueOf_setPre hpre)
  have hadd : s.sessionAdd a = match s.sessionList with
      | some first => (DHeap.setPre heap first (some a)).bind fun heap => some ⟨heap, some a⟩
      | none => some ⟨heap, some a⟩ := by
    rw [sessionAdd, hpre]
    change (DHeap.setNext _ a s.sessionList).bind _ = _
    rw [hnext]
    rfl
  have hlookup : heap.lookup a = some ⟨node.value, none, s.sessionList⟩ := by
    rw [← hheap, AList.lookup_insert]
  have hsegment' : Segment heap none s.sessionList l last none :=
    hheap ▸ (hsegment.insert ha).insert ha
  have hnodup : (((a, node.value) :: l).map Prod.fst).Nodup := List.nodup_cons.mpr ⟨ha, h.nodup⟩
  rw [hadd]
  cases l with
  | nil =>
    obtain ⟨-, hnil⟩ := hsegment
    rw [hnil] at hlookup ⊢
    exact ⟨_, rfl, ⟨⟨some a, segment_singleton.mpr ⟨rfl, hlookup, rfl⟩⟩, hnodup⟩, hvalue⟩
  | cons entry l =>
    obtain ⟨first, k⟩ := entry
    have hne : a ≠ first := fun heq => ha (heq ▸ List.mem_cons_self)
    obtain ⟨second, -, hset, hback⟩ :=
      hsegment'.exists_setPre (List.nodup_cons.mp h.nodup).1 (some a)
    have hlist : s.sessionList = some first := hsegment.1
    rw [hlist] at hlookup hback ⊢
    dsimp only
    rw [hset]
    refine ⟨_, rfl, ⟨⟨last, rfl, some first, ?_, hback⟩, hnodup⟩, fun x => ?_⟩
    · rw [AList.lookup_insert_ne hne, hlookup]
    · exact (valueOf_setPre hset).trans (hvalue x)

theorem Holds.exists_create (h : Holds s l) (ha : a ∉ s.heap) (id : ℤ) (created : Bool) :
    ∃ t, s.create a id created = some t ∧ Holds t (if created then (a, id) :: l else l) ∧
      ∀ x, t.heap.valueOf x = if x = a then some id else s.heap.valueOf x := by
  have hinit := h.init ha id
  have hvalue (x : α) : (s.sessionInit a id).heap.valueOf x =
      if x = a then some id else s.heap.valueOf x := valueOf_insert
  cases created with
  | false => exact ⟨_, rfl, hinit, hvalue⟩
  | true =>
    obtain ⟨t, hadd, ht, hframe⟩ := hinit.exists_add (fun hmem => ha (h.mem hmem))
      ((hvalue a).trans (if_pos rfl))
    exact ⟨t, hadd, ht, fun x => (hframe x).trans (hvalue x)⟩

theorem exists_front (hfront : s.heap.Segment none s.sessionList A b (some a))
    (hA : (A.map Prod.fst).Nodup) (r : Option α) :
    (A = [] ∧ b = none ∧ s.sessionList = some a) ∨
      ∃ A' x k heap, A = A' ++ [(x, k)] ∧ b = some x ∧ DHeap.setNext s.heap x r = some heap ∧
        heap.Segment none s.sessionList A b r ∧
        ∀ y, y ∉ A.map Prod.fst → heap.lookup y = s.heap.lookup y := by
  induction A using List.reverseRecOn with
  | nil =>
    obtain ⟨rfl, hlist⟩ := hfront
    exact .inl ⟨rfl, rfl, hlist⟩
  | append_singleton A' entry =>
    obtain ⟨x, k⟩ := entry
    rw [List.map_append, List.nodup_append] at hA
    have hx : x ∉ A'.map Prod.fst := fun hmem =>
      hA.2.2 x hmem x (List.mem_singleton_self x) rfl
    obtain ⟨node, -, hset, hsegment⟩ := hfront.exists_setNext hx r
    obtain ⟨d, p, -, hlast⟩ := segment_append.mp hfront
    obtain ⟨-, -, rfl⟩ := segment_singleton.mp hlast
    refine .inr ⟨A', x, k, _, rfl, rfl, hset, hsegment, fun y hy => AList.lookup_insert_ne ?_⟩
    rintro rfl
    exact hy (by simp)

theorem exists_back (hback : heap.Segment (some a) r B last none) (hB : (B.map Prod.fst).Nodup)
    (b : Option α) :
    (B = [] ∧ r = none) ∨
      ∃ y k B' heap', B = (y, k) :: B' ∧ r = some y ∧ DHeap.setPre heap y b = some heap' ∧
        heap'.Segment b r B last none ∧
        ∀ x, x ∉ B.map Prod.fst → heap'.lookup x = heap.lookup x := by
  cases B with
  | nil => exact .inl ⟨rfl, hback.2⟩
  | cons entry B =>
    obtain ⟨y, k⟩ := entry
    obtain ⟨node, -, hset, hsegment⟩ := hback.exists_setPre (List.nodup_cons.mp hB).1 b
    exact .inr ⟨y, k, B, _, rfl, hback.1, hset, hsegment, fun x hx =>
      AList.lookup_insert_ne fun heq => hx (heq ▸ List.mem_cons_self)⟩

theorem Holds.exists_unlink (h : Holds s (A ++ (a, id) :: B)) :
    ∃ node t, s.heap.lookup a = some node ∧ s.unlink a node = some t ∧ Holds t (A ++ B) ∧
      ∀ x, t.heap.valueOf x = if x = a then none else s.heap.valueOf x := by
  obtain ⟨last, hsegment⟩ := h.segment
  obtain ⟨b, p, hfront, rfl, r, hnode, hback⟩ := segment_append.mp hsegment
  have hnodup := h.nodup
  rw [List.map_append, List.map_cons, List.nodup_append, List.nodup_cons] at hnodup
  obtain ⟨hA, ⟨haB, hB⟩, hdisjoint⟩ := hnodup
  have haA : a ∉ A.map Prod.fst := fun hmem => hdisjoint a hmem a List.mem_cons_self rfl
  have hAB : ∀ x ∈ A.map Prod.fst, x ∉ B.map Prod.fst := fun x hx hxB =>
    hdisjoint x hx x (List.mem_cons_of_mem _ hxB) rfl
  have hleft : ((A ++ B).map Prod.fst).Nodup := by
    rw [List.map_append, List.nodup_append]
    exact ⟨hA, hB, fun x hx y hy heq => hAB x hx (heq ▸ hy)⟩
  have herase {heap : DHeap α ℤ} (hheap : ∀ x, heap.valueOf x = s.heap.valueOf x) (x : α) :
      valueOf (heap.erase a) x = if x = a then none else s.heap.valueOf x := by
    rw [valueOf_erase, hheap]
  refine ⟨⟨id, b, r⟩, ?_⟩
  obtain ⟨rfl, rfl, hlist⟩ | ⟨A', x, k, heap, rfl, rfl, hnext, hfront', hframe⟩ :=
    exists_front hfront hA r
  · obtain ⟨rfl, rfl⟩ | ⟨y, k, B', heap', rfl, rfl, hpre, hback', -⟩ := exists_back hback hB none
    · exact ⟨_, hnode, rfl, ⟨⟨none, rfl, rfl⟩, hleft⟩, herase fun _ => rfl⟩
    · refine ⟨⟨heap'.erase a, some y⟩, hnode, ?_, ⟨⟨last, hback'.erase haB⟩, hleft⟩,
        herase fun _ => valueOf_setPre hpre⟩
      rw [unlink]
      change (DHeap.setPre s.heap y none).bind _ = _
      rw [hpre]
      rfl
  · have hbehind : heap.Segment (some a) r B last none := hback.congr fun y hy =>
      hframe y fun hyA => hAB y hyA hy
    obtain ⟨rfl, rfl⟩ | ⟨y, l, B', heap', rfl, rfl, hpre, hback', hframe'⟩ :=
      exists_back hbehind hB (some x)
    · refine ⟨⟨heap.erase a, s.sessionList⟩, hnode, ?_, ⟨⟨some x, ?_⟩, hleft⟩,
        herase fun _ => valueOf_setNext hnext⟩
      · rw [unlink]
        change (DHeap.setNext s.heap x none).bind _ = _
        rw [hnext]
        rfl
      · rw [List.append_nil]
        exact hfront'.erase haA
    · refine ⟨⟨heap'.erase a, s.sessionList⟩, hnode, ?_, ⟨⟨last, ?_⟩, hleft⟩,
        herase fun _ => (valueOf_setPre hpre).trans (valueOf_setNext hnext)⟩
      · rw [unlink]
        change (DHeap.setNext s.heap x (some y)).bind _ = _
        rw [hnext]
        change (DHeap.setPre heap y (some x)).bind _ = _
        rw [hpre]
        rfl
      · have hbefore := hfront'.congr fun z hz => hframe' z (hAB z hz)
        exact segment_append.mpr ⟨some x, some y, hbefore.erase haA, hback'.erase haB⟩

end Laws

section Refinement

variable {s t : SessionList α} {own own' : Registry α} {a : α} {id : ℤ} {created : Bool}
  {session freed : Option α} {e : ListEvent α} {past : List (ListEvent α)}

/-- The list holds the registry's sessions, and those and the lost ones are allocated. -/
structure Shows (s : SessionList α) (own : Registry α) : Prop where
  holds : Holds s own.listed
  value : ∀ a id, s.heap.valueOf a = some id ↔ (a, id) ∈ own.listed ++ own.lost
  apart : ∀ entry ∈ own.lost, entry.1 ∉ own.listed.map Prod.fst

theorem shows_start : Shows (start : SessionList α) ⟨[], []⟩ where
  holds := holds_start
  value a id := by
    have hempty : (start : SessionList α).heap.valueOf a = none :=
      valueOf_of_notMem (AList.notMem_empty a)
    rw [hempty]
    exact iff_of_false nofun List.not_mem_nil
  apart := nofun

theorem Shows.notMem (h : Shows s own) (ha : a ∉ s.heap) (id : ℤ) :
    (a, id) ∉ own.listed ++ own.lost := fun hmem => by
  have hvalue := (h.value a id).mpr hmem
  rw [valueOf_of_notMem ha] at hvalue
  cases hvalue

theorem Shows.create (h : Shows s own) (ha : a ∉ s.heap)
    (hcreate : s.create a id created = some t) :
    ∃ own', RegistryStep own (.create a id created) own' ∧ Shows t own' := by
  obtain ⟨t, ht, hholds, hvalue⟩ := h.holds.exists_create ha id created
  cases hcreate.symm.trans ht
  have hnew (x : α) (i : ℤ) :
      t.heap.valueOf x = some i ↔ (x, i) = (a, id) ∨ (x, i) ∈ own.listed ++ own.lost := by
    rw [hvalue, ← h.value, Prod.mk.injEq]
    split_ifs with hxa
    · subst hxa
      rw [valueOf_of_notMem ha, Option.some.injEq]
      simp [eq_comm]
    · simp [hxa]
  cases created with
  | true =>
    refine ⟨_, .create a id, ⟨hholds, fun x i => (hnew x i).trans List.mem_cons.symm, ?_⟩⟩
    intro entry hentry
    rw [List.map_cons, List.mem_cons, not_or]
    refine ⟨?_, h.apart entry hentry⟩
    rintro rfl
    exact h.notMem ha entry.2 (List.mem_append_right _ hentry)
  | false =>
    refine ⟨_, .lose a id, ⟨hholds, fun x i => (hnew x i).trans ?_, ?_⟩⟩
    · rw [List.mem_append, List.mem_append, List.mem_cons]
      tauto
    · intro entry hentry
      obtain rfl | hentry := List.mem_cons.mp hentry
      · intro hmem
        exact ha (h.holds.mem hmem)
      · exact h.apart entry hentry

theorem Shows.notMem_of_listed {newer older : List (α × ℤ)} (h : Shows s own)
    (hlisted : own.listed = newer ++ (a, id) :: older) :
    a ∉ newer.map Prod.fst ∧ a ∉ older.map Prod.fst ∧ a ∉ own.lost.map Prod.fst := by
  have hnodup := h.holds.nodup
  rw [hlisted, List.map_append, List.map_cons, List.nodup_middle, List.nodup_cons,
    List.mem_append, not_or] at hnodup
  refine ⟨hnodup.1.1, hnodup.1.2, fun hlost => ?_⟩
  obtain ⟨entry, hentry, rfl⟩ := List.mem_map.mp hlost
  exact h.apart entry hentry (by rw [hlisted]; simp)

theorem Shows.unlink {newer older : List (α × ℤ)} (h : Shows s own)
    (hlisted : own.listed = newer ++ (a, id) :: older) (hholds : Holds t (newer ++ older))
    (hvalue : ∀ x, t.heap.valueOf x = if x = a then none else s.heap.valueOf x) :
    Shows t ⟨newer ++ older, own.lost⟩ := by
  obtain ⟨hnewer, holder, hlost⟩ := h.notMem_of_listed hlisted
  refine ⟨hholds, fun x i => ?_, fun entry hentry hmem => ?_⟩
  · rw [hvalue]
    split_ifs with hxa
    · subst hxa
      refine iff_of_false not_false fun hx => ?_
      obtain hx | hx := List.mem_append.mp hx
      · obtain hx | hx := List.mem_append.mp hx
        · exact hnewer (List.mem_map.mpr ⟨_, hx, rfl⟩)
        · exact holder (List.mem_map.mpr ⟨_, hx, rfl⟩)
      · exact hlost (List.mem_map.mpr ⟨_, hx, rfl⟩)
    · rw [h.value, hlisted]
      simp [hxa]
  · refine h.apart entry hentry ?_
    rw [hlisted]
    simp only [List.map_append, List.map_cons, List.mem_append, List.mem_cons] at hmem ⊢
    tauto

theorem sessionDel_of_null (h : s.sessionList = none ∨ session = none) :
    s.sessionDel session = some (s, none) := by
  unfold sessionDel
  obtain h | rfl := h
  · rw [h]
  · cases s.sessionList <;> rfl

theorem sessionDel_eq {first : α} (hfirst : s.sessionList = some first) (a : α) :
    s.sessionDel (some a) = (s.heap.lookup a).bind fun node =>
      if node.value = -1 then some (s, none)
      else (s.find fun _ id => id = node.value).bind fun
        | none => some (s, none)
        | some sessionP => (s.heap.lookup sessionP).bind fun found =>
          (s.unlink sessionP found).bind fun t => some (t, some sessionP) := by
  unfold sessionDel
  rw [hfirst]
  rfl

theorem Shows.del_listed (h : Shows s own) (ha : (a, id) ∈ own.listed ++ own.lost) (hid : id ≠ -1)
    (hdel : ((s.find fun _ i => i = id).bind fun
      | none => some (s, none)
      | some sessionP => (s.heap.lookup sessionP).bind fun found =>
        (s.unlink sessionP found).bind fun t => some (t, some sessionP)) = some (t, freed)) :
    ∃ own', RegistryStep own (.del (some a) freed) own' ∧ Shows t own' := by
  rw [h.holds.find_eq] at hdel
  cases hfind : own.listed.find? fun entry => entry.2 = id with
  | none =>
    rw [hfind] at hdel
    cases hdel
    rw [List.find?_eq_none] at hfind
    exact ⟨own, .absent ha (.inr fun x hx => by simpa using hfind x hx), h⟩
  | some entry =>
    obtain ⟨b, k⟩ := entry
    rw [hfind] at hdel
    obtain ⟨hk, newer, older, hsplit, hnewer⟩ := List.find?_eq_some_iff_append.mp hfind
    obtain rfl : k = id := of_decide_eq_true hk
    have hholds := h.holds
    rw [hsplit] at hholds
    obtain ⟨found, u, hfound, hunlink, hu, hvalue⟩ := hholds.exists_unlink
    change ((s.heap.lookup b).bind _) = _ at hdel
    rw [hfound, Option.bind_some, hunlink] at hdel
    cases hdel
    exact ⟨_, .del ha hid hsplit fun x hx => by simpa using hnewer x hx, h.unlink hsplit hu hvalue⟩

theorem Shows.del (h : Shows s own) (hdel : s.sessionDel session = some (t, freed)) :
    ∃ own', RegistryStep own (.del session freed) own' ∧ Shows t own' := by
  obtain ⟨last, hsegment⟩ := h.holds.segment
  cases hlisted : own.listed with
  | nil =>
    rw [hlisted] at hsegment
    cases (sessionDel_of_null (.inl hsegment.2)).symm.trans hdel
    exact ⟨own, .empty session hlisted, h⟩
  | cons first rest =>
    rw [hlisted] at hsegment
    cases session with
    | none =>
      cases (sessionDel_of_null (.inr rfl)).symm.trans hdel
      exact ⟨own, .null, h⟩
    | some a =>
      rw [sessionDel_eq hsegment.1] at hdel
      obtain ⟨node, hnode, hdel⟩ := Option.bind_eq_some_iff.mp hdel
      have ha : (a, node.value) ∈ own.listed ++ own.lost :=
        (h.value a node.value).mp (by rw [valueOf, hnode]; rfl)
      split_ifs at hdel with hid
      · cases hdel
        exact ⟨own, .absent ha (.inl hid), h⟩
      · exact h.del_listed ha hid hdel

theorem Shows.step (h : Shows s own) (hstep : step s e t) :
    ∃ own', RegistryStep own e own' ∧ Shows t own' := by
  cases e with
  | create session id created => exact h.create hstep.1 hstep.2
  | del session freed => exact h.del hstep

theorem registry_run_of_run (hrun : (sessionLists α).Run start past s) :
    ∃ own, (registry α).Run ⟨[], []⟩ past own ∧ Shows s own :=
  hrun.history
    (P := fun past s => ∃ own, (registry α).Run ⟨[], []⟩ past own ∧ Shows s own)
    (fun past s e t hs hstep => by
      obtain ⟨own, hown, hshows⟩ := hs
      obtain ⟨own', hnext, hshows'⟩ := hshows.step hstep
      exact ⟨own', hown.append (.cons hnext (.nil _)), hshows'⟩)
    (show ∃ own, (registry α).Run ⟨[], []⟩ [] own ∧ Shows start own from
      ⟨_, .nil _, shows_start⟩)

/-- Every run of the functions is one of the registry, the list is linked in its order in both
directions, and `session_get` and `session_get_usable` return its first session that is asked
for. -/
theorem registry_of_run (hrun : (sessionLists α).Run start past s) :
    ∃ own last, (registry α).Run ⟨[], []⟩ past own ∧
      s.heap.Segment none s.sessionList own.listed last none ∧
      (∀ sessionId, s.sessionGet sessionId =
        some ((own.listed.find? fun entry => entry.2 = sessionId).map Prod.fst)) ∧
      ∀ state, s.sessionGetUsable state = some
        (((own.listed.find? fun entry => state entry.1 = .unused).map Prod.snd).getD (-1)) := by
  obtain ⟨own, hown, hshows⟩ := registry_run_of_run hrun
  obtain ⟨last, hsegment⟩ := hshows.holds.segment
  exact ⟨own, last, hown, hsegment, hshows.holds.sessionGet_eq, hshows.holds.sessionGetUsable_eq⟩

end Refinement

section Memory

variable {s t : SessionList α} {own own' : Registry α} {a : α} {id : ℤ} {e : ListEvent α}
  {past before after : List (ListEvent α)}

/-- The calls of `malloc` and `free`. -/
def memory : ListEvent α → List (ResourceEvent α)
  | .create session _ _ => [.acquire session]
  | .del _ (some freed) => [.release freed]
  | .del _ none => []

theorem Shows.lost (h : Shows s own) (hstep : RegistryStep own e own') (ha : (a, id) ∈ own.lost) :
    (a, id) ∈ own'.lost ∧ .release a ∉ memory e := by
  cases hstep with
  | create session id => exact ⟨ha, by simp [memory]⟩
  | lose session id => exact ⟨List.mem_cons_of_mem _ ha, by simp [memory]⟩
  | del hsession hid hsplit hnewer =>
    refine ⟨ha, ?_⟩
    rw [memory, List.mem_singleton, ResourceEvent.release.injEq]
    rintro rfl
    exact (h.notMem_of_listed hsplit).2.2 (List.mem_map.mpr ⟨_, ha, rfl⟩)
  | absent => exact ⟨ha, by simp [memory]⟩
  | empty => exact ⟨ha, by simp [memory]⟩
  | null => exact ⟨ha, by simp [memory]⟩

theorem Shows.lost_of_run (h : Shows s own) (ha : (a, id) ∈ own.lost)
    (hrun : (sessionLists α).Run s after t) :
    .release a ∉ after.flatMap memory ∧ ∃ own', Shows t own' ∧ (a, id) ∈ own'.lost := by
  induction hrun generalizing own with
  | nil => exact ⟨List.not_mem_nil, own, h, ha⟩
  | cons hstep _ ih =>
    obtain ⟨own', hown, hshows⟩ := h.step hstep
    obtain ⟨hlost, hfirst⟩ := h.lost hown ha
    obtain ⟨hrest, hend⟩ := ih hshows hlost
    refine ⟨?_, hend⟩
    rw [List.flatMap_cons, List.mem_append, not_or]
    exact ⟨hfirst, hrest⟩

theorem Shows.mem_iff (h : Shows s own) :
    a ∈ s.heap ↔ a ∈ own.listed.map Prod.fst ∨ a ∈ own.lost.map Prod.fst := by
  rw [← isSome_valueOf, Option.isSome_iff_exists]
  simp only [h.value, List.mem_append, List.mem_map, Prod.exists, exists_and_right, exists_eq_right]
  exact exists_or

theorem Shows.allocated (hs : Shows s own) (ht : Shows t own') (hown : RegistryStep own e own')
    (hstep : SessionList.step s e t) (past : List (ListEvent α))
    (hproper : Resource.Proper (past.flatMap memory))
    (hheld : ∀ a, a ∈ Resource.held (past.flatMap memory) ↔ a ∈ s.heap) :
    Resource.Proper ((past ++ [e]).flatMap memory) ∧
      ∀ a, a ∈ Resource.held ((past ++ [e]).flatMap memory) ↔ a ∈ t.heap := by
  rw [List.flatMap_append, List.flatMap_singleton]
  simp only [ht.mem_iff]
  have hold (a : α) := (hheld a).trans hs.mem_iff
  cases hown with
  | create session id =>
    refine ⟨hproper.acquire fun hmem => hstep.1 ((hheld session).mp hmem), fun a => ?_⟩
    rw [memory, Resource.held_acquire, Finset.mem_insert, hold, List.map_cons, List.mem_cons,
      or_assoc]
  | lose session id =>
    refine ⟨hproper.acquire fun hmem => hstep.1 ((hheld session).mp hmem), fun a => ?_⟩
    rw [memory, Resource.held_acquire, Finset.mem_insert, hold, List.map_cons, List.mem_cons,
      or_left_comm]
  | @del session freed id newer older hsession hid hsplit =>
    obtain ⟨hnewer, holder, hlost⟩ := hs.notMem_of_listed hsplit
    refine ⟨hproper.release ((hold freed).mpr (.inl (by rw [hsplit]; simp))), fun a => ?_⟩
    rw [memory, Resource.held_release, Finset.mem_erase, hold, hsplit]
    simp only [List.map_append, List.map_cons, List.mem_append, List.mem_cons]
    by_cases hfreed : a = freed
    · subst hfreed
      simp [hnewer, holder, hlost]
    · simp [hfreed]
  | absent => exact ⟨by rwa [memory, List.append_nil], by rwa [memory, List.append_nil]⟩
  | empty => exact ⟨by rwa [memory, List.append_nil], by rwa [memory, List.append_nil]⟩
  | null => exact ⟨by rwa [memory, List.append_nil], by rwa [memory, List.append_nil]⟩

theorem logged_of_run (hrun : (sessionLists α).Run start past s) :
    ∃ own, Shows s own ∧ Resource.Proper (past.flatMap memory) ∧
      ∀ a, a ∈ Resource.held (past.flatMap memory) ↔ a ∈ s.heap :=
  hrun.history
    (P := fun past s => ∃ own, Shows s own ∧ Resource.Proper (past.flatMap memory) ∧
      ∀ a, a ∈ Resource.held (past.flatMap memory) ↔ a ∈ s.heap)
    (fun past s e t hs hstep => by
      obtain ⟨own, hshows, hproper, hheld⟩ := hs
      obtain ⟨own', hown, hshows'⟩ := hshows.step hstep
      exact ⟨own', hshows', hshows.allocated hshows' hown hstep past hproper hheld⟩)
    (show ∃ own, Shows (start : SessionList α) own ∧ Resource.Proper (List.flatMap memory []) ∧
        ∀ a, a ∈ Resource.held (List.flatMap memory []) ↔ a ∈ (start : SessionList α).heap from
      ⟨_, shows_start, .nil, fun a =>
        iff_of_false (Finset.notMem_empty a) (AList.notMem_empty a)⟩)

/-- A session is freed only once it is allocated, and once, and the sessions that are allocated are
those that are not freed.  One whose thread was not created stays allocated, and is neither freed
nor found. -/
theorem freed_of_run (hrun : (sessionLists α).Run start past s) :
    Resource.Proper (past.flatMap memory) ∧
      (∀ a, a ∈ Resource.held (past.flatMap memory) ↔ a ∈ s.heap) ∧
      ∀ before a id after, past = before ++ .create a id false :: after →
        .release a ∉ after.flatMap memory ∧ a ∈ s.heap ∧
          ∀ sessionId, s.sessionGet sessionId ≠ some (some a) := by
  obtain ⟨own, hshows, hproper, hheld⟩ := logged_of_run hrun
  refine ⟨hproper, hheld, ?_⟩
  rintro before a id after rfl
  obtain ⟨t, hbefore, hrest⟩ := hrun.of_append
  obtain _ | ⟨hstep, hafter⟩ := hrest
  obtain ⟨own₁, -, hshows₁⟩ := registry_run_of_run hbefore
  obtain ⟨own₂, hown₂, hshows₂⟩ := hshows₁.step (e := .create a id false) hstep
  cases hown₂ with
  | lose =>
    obtain ⟨hfree, own', hshows', hlost⟩ := hshows₂.lost_of_run List.mem_cons_self hafter
    have hmem : a ∈ own'.lost.map Prod.fst := List.mem_map.mpr ⟨_, hlost, rfl⟩
    refine ⟨hfree, hshows'.mem_iff.mpr (.inr hmem), fun sessionId hget => ?_⟩
    rw [hshows'.holds.sessionGet_eq, Option.some.injEq, Option.map_eq_some_iff] at hget
    obtain ⟨entry, hfind, rfl⟩ := hget
    exact hshows'.apart _ hlost (List.mem_map.mpr ⟨entry, List.mem_of_find?_eq_some hfind, rfl⟩)

end Memory

section Creation

variable {s : SessionList α} {l : List (α × ℤ)} {session : Fin SESSION_MAX_COUNT → α}
  {created : Fin SESSION_MAX_COUNT → Bool}

theorem exists_create_loop (hsession : Function.Injective session)
    (created : Fin SESSION_MAX_COUNT → Bool) (is : List (Fin SESSION_MAX_COUNT))
    (hnodup : is.Nodup) (h : Holds s l)
    (hfresh : ∀ i ∈ is, session i ∉ s.heap) :
    ∃ t, is.foldlM (fun s i =>
        s.create (session i) ((SESSION_MAX_COUNT : ℤ) - i - 1) (created i)) s = some t ∧
      Holds t (((is.filter created).map fun i =>
        (session i, (SESSION_MAX_COUNT : ℤ) - i - 1)).reverse ++ l) := by
  induction is generalizing s l with
  | nil => exact ⟨s, rfl, h⟩
  | cons i is ih =>
    rw [List.nodup_cons] at hnodup
    obtain ⟨t, ht, hholds, hvalue⟩ := h.exists_create (hfresh i List.mem_cons_self)
      ((SESSION_MAX_COUNT : ℤ) - i - 1) (created i)
    obtain ⟨u, hu, hrest⟩ := ih hnodup.2 hholds fun j hj => by
      have hji : session j ≠ session i := fun heq => hnodup.1 (hsession heq ▸ hj)
      rw [← isSome_valueOf, hvalue, if_neg hji, isSome_valueOf]
      exact hfresh j (List.mem_cons_of_mem _ hj)
    refine ⟨u, by rw [List.foldlM_cons, ht]; exact hu, ?_⟩
    rw [List.filter_cons]
    split_ifs at hrest ⊢ with hcreated
    · rwa [List.map_cons, List.reverse_cons, List.append_assoc]
    · exact hrest

/-- The sessions of the list, by their numbers. -/
def listed (session : Fin SESSION_MAX_COUNT → α) (created : Fin SESSION_MAX_COUNT → Bool) :
    List (α × ℤ) :=
  ((List.finRange SESSION_MAX_COUNT).filter fun i => created i.rev).map
    fun i : Fin SESSION_MAX_COUNT => (session i.rev, (i : ℤ))

theorem exists_sessionListCreate (hsession : Function.Injective session)
    (created : Fin SESSION_MAX_COUNT → Bool) :
    ∃ s, sessionListCreate session created = some s ∧ Holds s (listed session created) := by
  obtain ⟨s, hs, hholds⟩ := exists_create_loop hsession created
    (List.finRange SESSION_MAX_COUNT) (List.nodup_finRange _) holds_start fun i _ =>
      AList.notMem_empty _
  refine ⟨s, hs, ?_⟩
  have hlisted : listed session created = ((((List.finRange SESSION_MAX_COUNT).filter created).map
      fun i => (session i, (SESSION_MAX_COUNT : ℤ) - i - 1)).reverse ++ []) := by
    rw [List.append_nil, ← List.map_reverse, ← List.filter_reverse, List.finRange_reverse,
      List.filter_map, List.map_map]
    refine List.map_congr_left fun i _ => Prod.ext rfl ?_
    simp [Fin.val_rev]
  rwa [hlisted]

omit [DecidableEq α] in
theorem find?_filter_of_unique {β : Type} {is : List β} {p q : β → Bool}
    (hunique : ∀ i ∈ is, ∀ j ∈ is, p i = true → p j = true → i = j) :
    (is.filter q).find? p = (is.find? p).filter q := by
  induction is with
  | nil => rfl
  | cons i is ih =>
    have hrest := ih fun j hj k hk =>
      hunique j (List.mem_cons_of_mem _ hj) k (List.mem_cons_of_mem _ hk)
    rw [List.filter_cons, List.find?_cons]
    cases hq : q i <;> cases hp : p i
    · exact hrest
    · -- Whatever else is looked for would be `i`.
      have hnone : (is.filter q).find? p = none := by
        rw [List.find?_eq_none]
        intro j hj hpj
        obtain ⟨hj, hqj⟩ := List.mem_filter.mp hj
        obtain rfl := hunique i List.mem_cons_self j (List.mem_cons_of_mem _ hj) hp hpj
        rw [hq] at hqj
        cases hqj
      simp [hnone, hq, Option.filter]
    · simpa [List.find?_cons, hp] using hrest
    · simp [hp, hq, Option.filter]

/-- What `session_list_create` builds is what the daemon's sessions are numbered by: a session is
found by its number if its thread was created, and if all were, the usable session is the same. -/
theorem sessionListCreate_daemon (hsession : Function.Injective session) :
    ∃ s, sessionListCreate session created = some s ∧
      (∀ sessionId, s.sessionGet sessionId =
        some (((Stanet.sessionGet sessionId).filter fun i => created i.rev).map
          fun i => session i.rev)) ∧
      ∀ (daemon : State) (state : α → SessionState),
        (∀ i, state (session i.rev) = (daemon.sessions i).state) → (∀ i, created i = true) →
          s.sessionGetUsable state = some
            ((daemon.sessionGetUsable.map fun i : Fin SESSION_MAX_COUNT => (i : ℤ)).getD (-1)) := by
  obtain ⟨s, hs, hholds⟩ := exists_sessionListCreate hsession created
  refine ⟨s, hs, fun sessionId => ?_, fun daemon state hstate hall => ?_⟩
  · rw [hholds.sessionGet_eq, listed, List.find?_map, Option.map_map, find?_filter_of_unique]
    · rfl
    · intro i _ j _ hi hj
      have hij : (i : ℤ) = j := (of_decide_eq_true hi).trans (of_decide_eq_true hj).symm
      exact Fin.ext (by exact_mod_cast hij)
  · have hfilter : ((List.finRange SESSION_MAX_COUNT).filter fun i => created i.rev) =
        List.finRange SESSION_MAX_COUNT := List.filter_eq_self.mpr fun i _ => hall i.rev
    rw [hholds.sessionGetUsable_eq, listed, hfilter, List.find?_map, Option.map_map,
      State.sessionGetUsable]
    simp only [Function.comp_def, hstate]

end Creation

section Samples

def sampleCalls : List (ListEvent ℕ) :=
  [.create 10 1 true, .create 11 0 false, .create 12 1 true, .del (some 10) (some 12)]

theorem exists_sampleCalls : ∃ s, (sessionLists ℕ).Run start sampleCalls s :=
  ⟨_, .cons ⟨by decide, rfl⟩ <| .cons ⟨by decide, rfl⟩ <| .cons ⟨by decide, rfl⟩ <|
    .cons rfl <| .nil _⟩

theorem registry_of_run_sample : ∃ s, (sessionLists ℕ).Run start sampleCalls s ∧
    ∃ own last, (registry ℕ).Run ⟨[], []⟩ sampleCalls own ∧
      s.heap.Segment none s.sessionList own.listed last none ∧
      (∀ sessionId, s.sessionGet sessionId =
        some ((own.listed.find? fun entry => entry.2 = sessionId).map Prod.fst)) ∧
      ∀ state, s.sessionGetUsable state = some
        (((own.listed.find? fun entry => state entry.1 = .unused).map Prod.snd).getD (-1)) := by
  obtain ⟨s, hrun⟩ := exists_sampleCalls
  exact ⟨s, hrun, registry_of_run hrun⟩

theorem freed_of_run_sample : ∃ s, (sessionLists ℕ).Run start sampleCalls s ∧
    Resource.Proper (sampleCalls.flatMap memory) ∧
      (∀ a, a ∈ Resource.held (sampleCalls.flatMap memory) ↔ a ∈ s.heap) ∧
      ∀ before a id after, sampleCalls = before ++ .create a id false :: after →
        .release a ∉ after.flatMap memory ∧ a ∈ s.heap ∧
          ∀ sessionId, s.sessionGet sessionId ≠ some (some a) := by
  obtain ⟨s, hrun⟩ := exists_sampleCalls
  exact ⟨s, hrun, freed_of_run hrun⟩

theorem sessionListCreate_daemon_val : ∃ s,
    sessionListCreate (fun i => (i : ℕ)) (fun _ => true) = some s ∧
      (∀ sessionId, s.sessionGet sessionId =
        some (((Stanet.sessionGet sessionId).filter fun _ => true).map fun i => (i.rev : ℕ))) ∧
      ∀ (daemon : State) (state : ℕ → SessionState),
        (∀ i : Fin SESSION_MAX_COUNT, state i.rev = (daemon.sessions i).state) →
          (∀ _ : Fin SESSION_MAX_COUNT, true = true) →
          s.sessionGetUsable state = some
            ((daemon.sessionGetUsable.map fun i : Fin SESSION_MAX_COUNT => (i : ℤ)).getD (-1)) :=
  sessionListCreate_daemon Fin.val_injective

end Samples

end SessionList

end Mbtk.Stanet
