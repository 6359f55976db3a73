import Mbtk.Lib.Transition
import Mbtk.MList.Lists

namespace Mbtk.MList

open Lib Heap

/-- The calls.  For `list_add` the address is what `malloc` returns, if it returns one. -/
inductive Event (η α δ φ : Type)
  | init (list : η) (freeFunc : Option φ)
  | add (list : Option η) (data : Option δ) (listNew : Option α)
  | free (list : Option η)

/-- A list as its user sees it: its function, and what was added since it was last emptied. -/
structure OwnList (α δ φ : Type) where
  freeFunc : Option φ
  nodes : List (α × δ)

abbrev Own (η α δ φ : Type) := η → Option (OwnList α δ φ)

structure State (η α δ φ : Type) where
  lists : Lists η α δ φ
  own : Own η α δ φ

variable {η α δ φ : Type} [DecidableEq η] [DecidableEq α]

def Lists.step (s : Lists η α δ φ) : Event η α δ φ → Option (Lists η α δ φ × List (Effect α δ φ))
  | .init list freeFunc => some (s.listInit list freeFunc, [])
  | .add list data listNew => s.listAdd list data listNew
  | .free list => s.listFree list

namespace Own

def next (own : Own η α δ φ) : Event η α δ φ → Own η α δ φ
  | .init list freeFunc => Function.update own list (some ⟨freeFunc, []⟩)
  | .add (some list) (some data) (some listNew) =>
    Function.update own list ((own list).map fun x => ⟨x.freeFunc, x.nodes ++ [(listNew, data)]⟩)
  | .free (some list) => Function.update own list ((own list).map fun x => ⟨x.freeFunc, []⟩)
  | _ => own

/-- To free a list is to call its function for what was added to it, and to free its nodes. -/
def effects (own : Own η α δ φ) : Event η α δ φ → List (Effect α δ φ)
  | .init .. => []
  | .add (some _) (some _) (some _) => [.returned true]
  | .add .. => [.returned false]
  | .free none => []
  | .free (some list) =>
    (own list).toList.flatMap fun x =>
      x.nodes.flatMap fun entry => Lists.frees x.freeFunc entry.1 (some entry.2)

def Apart (own : Own η α δ φ) : Prop :=
  ∀ list list' x x', list ≠ list' → own list = some x → own list' = some x' →
    (x.nodes.map Prod.fst).Disjoint (x'.nodes.map Prod.fst)

end Own

/-- Each list that is initialised has its nodes, and no others. -/
def Lists.Shows (s : Lists η α δ φ) (own : Own η α δ φ) : Prop :=
  ∀ list x, own list = some x → s.heap.Segment (some (.inl list)) (chain list x.nodes) none

namespace State

/-- The lists are initialised before they are used, and `malloc` returns what is not allocated. -/
def Allowed (s : State η α δ φ) : Event η α δ φ → Prop
  | .init .. => True
  | .add list _ listNew =>
    (∀ l ∈ list, s.own l ≠ none) ∧ ∀ a ∈ listNew, .inr a ∉ s.lists.heap
  | .free list => ∀ l ∈ list, s.own l ≠ none

def react (s : State η α δ φ) (e : Event η α δ φ) : Option (State η α δ φ) :=
  (s.lists.step e).map fun r => ⟨r.1, s.own.next e⟩

def system : System (State η α δ φ) (Event η α δ φ) where
  init s := s.lists.heap = ∅ ∧ s.lists.listFreeFunc = none ∧ s.own = fun _ => none
  step s e t := s.Allowed e ∧ s.react e = some t

/-- The call does what it is to do to the lists and outside of them. -/
def Agrees (s : State η α δ φ) (e : Event η α δ φ) : Prop :=
  ∃ lists effects, s.lists.step e = some (lists, effects) ∧ effects.Perm (s.own.effects e) ∧
    lists.Shows (s.own.next e)

/-- What is freed has nothing on it. -/
def Emptied (s : State η α δ φ) (e : Event η α δ φ) : Prop :=
  ∀ list x, e = .free (some list) → s.own list = some x → x.nodes = []

structure Sound (s : State η α δ φ) : Prop where
  shows : s.lists.Shows s.own
  apart : s.own.Apart

section Steps

variable {s : State η α δ φ} {own : Own η α δ φ} {lists : Lists η α δ φ} {list : η}
  {freeFunc : Option φ} {x : OwnList α δ φ} {d : δ} {a : α} {e : Event η α δ φ}

omit [DecidableEq α] in
theorem apart_update (h : own.Apart)
    (hx : ∀ other y, list ≠ other → own other = some y →
      (x.nodes.map Prod.fst).Disjoint (y.nodes.map Prod.fst)) :
    Own.Apart (Function.update own list (some x)) := by
  intro l l' y y' hne hy hy'
  obtain rfl | hl := eq_or_ne l list
  · rw [Function.update_self] at hy
    rw [Function.update_of_ne (Ne.symm hne)] at hy'
    obtain rfl := Option.some.inj hy
    exact hx l' y' hne hy'
  · rw [Function.update_of_ne hl] at hy
    obtain rfl | hl' := eq_or_ne l' list
    · rw [Function.update_self] at hy'
      obtain rfl := Option.some.inj hy'
      exact (hx l y hl.symm hy).symm
    · rw [Function.update_of_ne hl'] at hy'
      exact h l l' y y' hne hy hy'

theorem shows_update {heap : Heap (η ⊕ α) (Option δ)} {f : Option φ} (h : lists.Shows own)
    (hx : heap.Segment (some (.inl list)) (Lists.chain list x.nodes) none)
    (hframe : ∀ other y, list ≠ other → own other = some y →
      ∀ c ∈ (Lists.chain other y.nodes).map Prod.fst, heap.lookup c = lists.heap.lookup c) :
    Lists.Shows ⟨heap, f⟩ (Function.update own list (some x)) := by
  intro other y hy
  obtain rfl | hne := eq_or_ne other list
  · rw [Function.update_self] at hy
    obtain rfl := Option.some.inj hy
    exact hx
  · rw [Function.update_of_ne hne] at hy
    exact (h other y hy).congr (hframe other y hne.symm hy)

theorem Sound.init (h : s.Sound) (list : η) (freeFunc : Option φ) :
    Sound ⟨s.lists.listInit list freeFunc, s.own.next (.init list freeFunc)⟩ where
  shows := by
    refine shows_update h.shows (segment_singleton.mpr ⟨rfl, AList.lookup_insert _⟩) ?_
    intro other y hne hy c hc
    refine AList.lookup_insert_ne fun heq => ?_
    obtain hother | ⟨b, -, hnode⟩ := Lists.mem_chain.mp hc
    · exact hne (Sum.inl_injective (heq.symm.trans hother))
    · exact Sum.inl_ne_inr (heq.symm.trans hnode)
  apart := apart_update h.apart fun other y hne hy => List.disjoint_nil_left _

theorem Sound.exists_append (h : s.Sound) (hx : s.own list = some x)
    (hfresh : .inr a ∉ s.lists.heap)
    (d : δ) :
    ∃ t, s.lists.append list d a = some t ∧
      Sound ⟨t, Function.update s.own list (some ⟨x.freeFunc, x.nodes ++ [(a, d)]⟩)⟩ := by
  obtain ⟨t, happend, hchain, hframe⟩ := Lists.exists_append (h.shows list x hx) hfresh d
  have hnot (other : η) (y : OwnList α δ φ) (hy : s.own other = some y) :
      a ∉ y.nodes.map Prod.fst := fun hmem =>
    hfresh ((h.shows other y hy).mem (Lists.mem_chain.mpr (.inr ⟨a, hmem, rfl⟩)))
  refine ⟨t, happend, shows_update h.shows hchain fun other y hne hy c hc => ?_,
    apart_update h.apart fun other y hne hy => ?_⟩
  · refine hframe c (fun hmem => ?_) ?_
    · -- a node of both lists, or the head of one that is also the head of the other
      obtain hhead | ⟨b, hb, rfl⟩ := Lists.mem_chain.mp hmem
      · obtain hother | ⟨b, -, hnode⟩ := Lists.mem_chain.mp hc
        · exact hne (Sum.inl_injective (hhead.symm.trans hother))
        · exact Sum.inl_ne_inr (hhead.symm.trans hnode)
      · obtain hother | ⟨b', hb', hnode⟩ := Lists.mem_chain.mp hc
        · exact Sum.inr_ne_inl hother
        · obtain rfl := Sum.inr_injective hnode
          exact h.apart list other x y hne hx hy hb hb'
    · rintro rfl
      obtain hother | ⟨b, hb, hnode⟩ := Lists.mem_chain.mp hc
      · exact Sum.inr_ne_inl hother
      · obtain rfl := Sum.inr_injective hnode
        exact hnot other y hy hb
  · rw [List.map_append, List.disjoint_append_left]
    exact ⟨h.apart list other x y hne hx hy,
      List.singleton_disjoint.mpr (hnot other y hy)⟩

theorem listFree_of_nil (h : s.Sound) (hx : s.own list = some x) (hnil : x.nodes = []) :
    s.lists.listFree (some list) = some (s.lists, []) := by
  have hchain := h.shows list x hx
  rw [hnil] at hchain
  obtain ⟨-, r, hhead, rfl⟩ := hchain
  rw [Lists.listFree, hhead]
  change (Lists.freeLoop _ _ s.lists.heap none).bind _ = _
  rw [Lists.freeLoop]
  rfl

theorem Sound.exists_step (h : s.Sound) (hallowed : s.Allowed e) (hemptied : s.Emptied e) :
    ∃ lists effects, s.lists.step e = some (lists, effects) ∧ effects = s.own.effects e ∧
      Sound ⟨lists, s.own.next e⟩ := by
  cases e with
  | init list freeFunc => exact ⟨_, _, rfl, rfl, h.init list freeFunc⟩
  | add list data listNew =>
    cases list with
    | none => exact ⟨s.lists, _, rfl, rfl, h⟩
    | some list =>
      cases data with
      | none => exact ⟨s.lists, _, rfl, rfl, h⟩
      | some d =>
        cases listNew with
        | none => exact ⟨s.lists, _, rfl, rfl, h⟩
        | some a =>
          obtain ⟨x, hx⟩ := Option.ne_none_iff_exists'.mp (hallowed.1 list rfl)
          obtain ⟨t, happend, ht⟩ := h.exists_append hx (hallowed.2 a rfl) d
          refine ⟨t, [.returned true], ?_, rfl, ?_⟩
          · rw [Lists.step, Lists.listAdd, happend]
            rfl
          · rw [Own.next, hx]
            exact ht
  | free list =>
    cases list with
    | none => exact ⟨s.lists, _, rfl, rfl, h⟩
    | some list =>
      obtain ⟨x, hx⟩ := Option.ne_none_iff_exists'.mp (hallowed list rfl)
      have hnil := hemptied list x rfl hx
      refine ⟨s.lists, [], listFree_of_nil h hx hnil, ?_, ?_⟩
      · rw [Own.effects, hx]
        simp [hnil]
      · have hsame : s.own.next (.free (some list)) = s.own := by
          rw [Own.next, hx, Option.map_some, ← hnil, Function.update_eq_self_iff]
          exact hx.symm
        rw [hsame]
        exact h

theorem Sound.effects_perm_iff (h : s.Sound) (hx : s.own list = some x)
    {effects : List (Effect α δ φ)} (hfree : s.lists.listFree (some list) = some (lists, effects)) :
    effects.Perm (s.own.effects (.free (some list))) ↔
      x.nodes = [] ∨ s.lists.listFreeFunc = x.freeFunc := by
  obtain ⟨t, hfree', -⟩ := Lists.exists_listFree (h.shows list x hx)
  obtain rfl := congrArg Prod.snd (Option.some.inj (hfree'.symm.trans hfree))
  have hown : s.own.effects (.free (some list)) =
      x.nodes.flatMap fun entry => Lists.frees x.freeFunc entry.1 (some entry.2) := by
    rw [Own.effects, hx]
    exact List.flatMap_singleton _ _
  rw [hown]
  constructor
  · intro hperm
    cases hnodes : x.nodes with
    | nil => exact .inl rfl
    | cons entry nodes =>
      refine .inr (Option.ext fun f => ?_)
      have hcalled := hperm.mem_iff (a := .called f (some entry.2))
      rw [Lists.called_mem_frees, Lists.called_mem_frees] at hcalled
      have hentry : ∃ e ∈ x.nodes, some e.2 = some entry.2 := ⟨entry, by rw [hnodes]; simp, rfl⟩
      rwa [and_iff_left hentry, and_iff_left hentry] at hcalled
  · rintro (hnil | hsame)
    · rw [hnil]
      exact List.Perm.refl _
    · rw [hsame]

/-- `list_free` leaves the link of the head, so that a list that had nodes is not empty. -/
theorem Sound.emptied_of_agrees (h : s.Sound) (hagrees : s.Agrees e) : s.Emptied e := by
  rintro list x rfl hx
  obtain ⟨lists, effects, hstep, -, hshows⟩ := hagrees
  have hchain := h.shows list x hx
  obtain ⟨t, hfree, hhead⟩ := Lists.exists_listFree hchain
  obtain rfl : t = lists := congrArg Prod.fst (Option.some.inj (hfree.symm.trans hstep))
  have hempty : (s.own.next (.free (some list))) list = some ⟨x.freeFunc, []⟩ := by
    rw [Own.next, Function.update_self, hx, Option.map_some]
  obtain ⟨-, hnull⟩ := segment_singleton.mp (hshows list _ hempty)
  obtain ⟨-, r, hlink, hnodes⟩ := hchain
  rw [hhead, hlink] at hnull
  obtain rfl : r = none := congrArg Node.next (Option.some.inj hnull)
  exact List.map_eq_nil_iff.mp (hnodes.unique (m := []) rfl)

theorem Sound.agrees_iff_emptied (h : s.Sound) (hallowed : s.Allowed e) :
    s.Agrees e ↔ s.Emptied e := by
  refine ⟨h.emptied_of_agrees, fun hemptied => ?_⟩
  obtain ⟨lists, effects, hstep, rfl, hsound⟩ := h.exists_step hallowed hemptied
  exact ⟨lists, _, hstep, List.Perm.refl _, hsound.shows⟩

end Steps

theorem sound_of_reachable {s : State η α δ φ} (hs : (system.restrict Emptied).Reachable s) :
    s.Sound := by
  refine hs.invariant ?_ ?_
  · rintro s ⟨-, -, hown⟩
    have hnone (list : η) (x : OwnList α δ φ) : s.own list ≠ some x := by
      rw [hown]
      exact nofun
    exact ⟨fun list x hx => absurd hx (hnone list x),
      fun list list' x x' _ hx _ => absurd hx (hnone list x)⟩
  · rintro s e t hsound ⟨hemptied, hallowed, hreact⟩
    obtain ⟨lists, effects, hstep, -, hnext⟩ := hsound.exists_step hallowed hemptied
    rw [react, hstep] at hreact
    rw [← Option.some.inj hreact]
    exact hnext

end State

/-- In the runs in which only lists without nodes are freed, each list has what was added to it
and nothing else.  There a call does what it is to do exactly if it does not free a node. -/
theorem State.independent_iff {s : State η α δ φ}
    (hs : (State.system.restrict State.Emptied).Reachable s) :
    s.lists.Shows s.own ∧ ∀ e, s.Allowed e → (s.Agrees e ↔ s.Emptied e) :=
  ⟨(State.sound_of_reachable hs).shows, fun _ => (State.sound_of_reachable hs).agrees_iff_emptied⟩

section Sample

def State.start : State ℕ ℕ ℕ ℕ := ⟨⟨∅, none⟩, fun _ => none⟩

/-- Three lists with functions of their own, two of them with nodes, and the third one freed. -/
def State.sampleCalls : List (Event ℕ ℕ ℕ ℕ) :=
  [.init 0 (some 1), .init 1 (some 2), .init 2 (some 3), .add (some 0) (some 7) (some 10),
    .add (some 1) (some 8) (some 11), .add (some 0) (some 9) (some 12), .free (some 2)]

def State.sample : State ℕ ℕ ℕ ℕ := (State.sampleCalls.foldlM State.react State.start).getD .start

theorem State.reachable_sample : (State.system.restrict State.Emptied).Reachable State.sample := by
  have hstart : (State.system.restrict State.Emptied).Reachable State.start := .init ⟨rfl, rfl, rfl⟩
  have hinits : (State.system.restrict State.Emptied).Reachable _ :=
    .step (.step (.step hstart (e := .init 0 (some 1)) ⟨nofun, trivial, rfl⟩)
      (e := .init 1 (some 2)) ⟨nofun, trivial, rfl⟩) (e := .init 2 (some 3)) ⟨nofun, trivial, rfl⟩
  have hfirst : (State.system.restrict State.Emptied).Reachable _ :=
    .step hinits (e := .add (some 0) (some 7) (some 10))
      ⟨nofun, ⟨by simp [Own.next, Function.update], by decide⟩, rfl⟩
  have hsecond : (State.system.restrict State.Emptied).Reachable _ :=
    .step hfirst (e := .add (some 1) (some 8) (some 11))
      ⟨nofun, ⟨by simp [Own.next, Function.update], by decide⟩, rfl⟩
  have hthird : (State.system.restrict State.Emptied).Reachable _ :=
    .step hsecond (e := .add (some 0) (some 9) (some 12))
      ⟨nofun, ⟨by simp [Own.next, Function.update], by decide⟩, rfl⟩
  refine .step hthird (e := .free (some 2)) ⟨?_, by simp [Allowed, Own.next, Function.update], rfl⟩
  rintro list x heq hx
  obtain rfl : (2 : ℕ) = list := by injection heq with heq; exact Option.some.inj heq
  obtain rfl : OwnList.mk (some 3) [] = x := by simpa [Own.next, Function.update] using hx
  rfl

/-- The two lists have their nodes, the empty one can be freed again, and a free of a list with
nodes calls the function of the third. -/
theorem State.independent_sample :
    State.sample.own 0 = some ⟨some 1, [(10, 7), (12, 9)]⟩ ∧
      State.sample.own 1 = some ⟨some 2, [(11, 8)]⟩ ∧ State.sample.lists.Shows State.sample.own ∧
      State.sample.Agrees (.free (some 2)) ∧ ¬ State.sample.Agrees (.free (some 0)) := by
  have hindependent := State.independent_iff State.reachable_sample
  have hnodes : State.sample.own 0 = some ⟨some 1, [(10, 7), (12, 9)]⟩ := rfl
  have hempty : State.sample.own 2 = some ⟨some 3, []⟩ := rfl
  refine ⟨hnodes, rfl, hindependent.1, ?_, fun hagrees => ?_⟩
  · refine (hindependent.2 (.free (some 2)) ?_).mpr ?_
    · rintro l hl
      obtain rfl := Option.some.inj hl
      exact Option.ne_none_iff_exists'.mpr ⟨_, hempty⟩
    · rintro list x heq hx
      obtain rfl : (2 : ℕ) = list := by injection heq with heq; exact Option.some.inj heq
      rw [hempty] at hx
      rw [← Option.some.inj hx]
  · have hallowed : State.sample.Allowed (.free (some 0)) := by
      rintro l hl
      obtain rfl := Option.some.inj hl
      exact Option.ne_none_iff_exists'.mpr ⟨_, hnodes⟩
    have hnil := (hindependent.2 _ hallowed).mp hagrees 0 _ rfl hnodes
    exact absurd hnil (by simp)

/-- The list to which `7` was added has the function `1`.  The function of the other list is
called. -/
theorem State.exists_not_agrees :
    ∃ s : State ℕ ℕ ℕ ℕ, State.system.Reachable s ∧ s.Allowed (.free (some 0)) ∧
      ¬ s.Agrees (.free (some 0)) := by
  have hfirst : State.system.Reachable _ :=
    .step (.init (s := State.start) ⟨rfl, rfl, rfl⟩) (e := .init 0 (some 1)) ⟨trivial, rfl⟩
  have hsecond : State.system.Reachable _ := .step hfirst (e := .init 1 (some 2)) ⟨trivial, rfl⟩
  have hadd : State.system.Reachable _ := .step hsecond (e := .add (some 0) (some 7) (some 0))
    ⟨⟨by simp [Own.next, Function.update], by decide⟩, rfl⟩
  refine ⟨_, hadd, by simp [Allowed, Own.next, Function.update], ?_⟩
  rintro ⟨lists, effects, hstep, hperm, -⟩
  obtain rfl : [.called 2 (some 7), .freed 0] = effects := congrArg Prod.snd (Option.some.inj hstep)
  exact absurd hperm (by decide)

end Sample

end Mbtk.MList
