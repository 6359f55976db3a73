import Mbtk.Client.Pending

namespace Mbtk.Client

open Lib Coap CoapPDU

/-- The pending packages have different message IDs. -/
def State.DistinctIds (s : State) : Prop := (s.coaps.map (·.package.messageId)).Nodup

/-- A package that asks for its next block takes an ID that no other pending package has. -/
def State.FreshId (s : State) : Event → Prop
  | .line .. => True
  | .datagram addr d after _ => d ≠ [] → ∀ item block, s.Continues addr d after item block →
    ∀ other ∈ s.coaps, other.serial ≠ item.serial → other.package.messageId ≠ s.messageId

section Lists

variable {A B : List Item} {item old : Item}

theorem serial_ne_of_split (h : ((A ++ old :: B).map Item.serial).Nodup) {other : Item}
    (ho : other ∈ A ++ B) : other.serial ≠ old.serial := by
  rw [List.map_append, List.map_cons, List.nodup_middle, List.nodup_cons, ← List.map_append] at h
  exact fun heq => h.1 (List.mem_map.mpr ⟨other, ho, heq⟩)

theorem store_split (h : ((A ++ old :: B).map Item.serial).Nodup)
    (hserial : old.serial = item.serial) : store (A ++ old :: B) item = A ++ item :: B := by
  have hkeep {l : List Item} (hl : l ⊆ A ++ B) : store l item = l := by
    refine (List.map_congr_left fun other ho => ?_).trans (List.map_id l)
    rw [if_neg (hserial ▸ serial_ne_of_split h (hl ho)), id]
  have hA := hkeep (List.subset_append_left A B)
  have hB := hkeep (List.subset_append_right A B)
  rw [store] at hA hB
  rw [store, List.map_append, List.map_cons, hA, hB, if_pos hserial]

theorem getByMsgId_split (h : ((A ++ item :: B).map (·.package.messageId)).Nodup) :
    getByMsgId (A ++ item :: B) item.package.messageId = some item := by
  rw [List.map_append, List.map_cons, List.nodup_middle, List.nodup_cons, ← List.map_append] at h
  have hA : A.find? (·.package.messageId = item.package.messageId) = none := by
    refine List.find?_eq_none.mpr fun other ho => ?_
    intro heq
    exact h.1 (List.mem_map.mpr ⟨other, List.mem_append_left B ho, by simpa using heq⟩)
  rw [getByMsgId, List.find?_append, hA]
  simp

theorem eraseP_split (h : ((A ++ item :: B).map (·.package.messageId)).Nodup) :
    (A ++ item :: B).eraseP (·.package.messageId = item.package.messageId) = A ++ B := by
  rw [List.map_append, List.map_cons, List.nodup_middle, List.nodup_cons, ← List.map_append] at h
  have hA : ∀ other ∈ A, ¬ decide (other.package.messageId = item.package.messageId) = true := by
    intro other ho heq
    exact h.1 (List.mem_map.mpr ⟨other, List.mem_append_left B ho, by simpa using heq⟩)
  rw [List.eraseP_append_right _ hA]
  simp

theorem listDel_split (h : ((A ++ item :: B).map (·.package.messageId)).Nodup)
    (keepsFreed : Bool) :
    listDel keepsFreed item.package.messageId (A ++ item :: B) =
      (coapFree keepsFreed item.package).map fun _ => A ++ B := by
  rw [listDel_eq, getByMsgId_split h]
  dsimp only
  rw [eraseP_split h]

end Lists

section Distinct

variable {s t : State}

theorem State.DistinctIds.added (h : s.DistinctIds) {item : Item}
    (hfresh : ∀ other ∈ s.coaps, other.package.messageId ≠ s.messageId)
    (hid : item.package.messageId = s.messageId) : (s.added item).DistinctIds := by
  rw [State.DistinctIds, State.added, List.map_append, List.map_singleton, List.nodup_append]
  refine ⟨h, List.nodup_singleton _, fun a ha b hb => ?_⟩
  obtain ⟨other, ho, rfl⟩ := List.mem_map.mp ha
  rw [List.mem_singleton.mp hb, hid]
  exact hfresh other ho

theorem State.LineEffect.distinctIds (h : s.DistinctIds) {text : List UInt8}
    (heffect : s.LineEffect text t) : t.DistinctIds := by
  cases heffect with
  | none => exact h
  | refused htakes => exact h.added htakes.2.2 rfl
  | requested htakes _ _ hid => exact h.added htakes.2.2 hid

theorem State.distinctIds_continued_iff (hs : s.Sound) (h : s.DistinctIds) {old item : Item}
    (hold : old ∈ s.coaps) (hserial : old.serial = item.serial)
    (hid : item.package.messageId = s.messageId) (q : CoapPDU) :
    (s.continued item q).DistinctIds ↔ ∀ other ∈ s.coaps, other.serial ≠ old.serial →
      other.package.messageId ≠ s.messageId := by
  have hserials := hs.serials
  unfold State.DistinctIds at h ⊢
  unfold State.continued
  obtain ⟨A, B, hcoaps⟩ := List.append_of_mem hold
  rw [hcoaps] at h hserials ⊢
  rw [store_split hserials hserial]
  rw [List.map_append, List.map_cons, List.nodup_middle, List.nodup_cons, ← List.map_append] at h ⊢
  rw [and_iff_left h.2, hid]
  constructor
  · intro hno other ho hne heq
    obtain ho | ho := List.mem_append.mp ho
    · exact hno (List.mem_map.mpr ⟨other, List.mem_append_left B ho, heq⟩)
    · obtain rfl | ho := List.mem_cons.mp ho
      · exact hne rfl
      · exact hno (List.mem_map.mpr ⟨other, List.mem_append_right A ho, heq⟩)
  · intro hall hmem
    obtain ⟨other, ho, heq⟩ := List.mem_map.mp hmem
    refine hall other ?_ (serial_ne_of_split hserials ho) heq
    obtain ho | ho := List.mem_append.mp ho
    · exact List.mem_append_left _ ho
    · exact List.mem_append_right _ (List.mem_cons_of_mem _ ho)

theorem State.Continues.unique {addr : ℕ} {d after : List UInt8} {item item' : Item}
    {block block' : RecvBlock} (h : s.Continues addr d after item block)
    (h' : s.Continues addr d after item' block') : item = item' := by
  obtain ⟨p, hp, -⟩ := h
  obtain ⟨p', hp', -⟩ := h'
  obtain rfl : p = p' := by simpa [hp.received] using hp'.received
  simpa [hp.found] using hp'.found

theorem State.distinctIds_step (hs : s.Sound) (h : s.DistinctIds) {e : Event}
    (hstep : s.react e = .ok t) : t.DistinctIds ↔ s.FreshId e := by
  cases e with
  | line text complete =>
    exact iff_of_true ((State.commandLine_effect hs hstep).distinctIds h) trivial
  | datagram addr d after complete =>
    by_cases hcont : d ≠ [] ∧ ∃ item block, s.Continues addr d after item block
    · obtain ⟨hd, item, block, hcont⟩ := hcont
      obtain ⟨first, uri, q, -, -, rfl⟩ := hcont.readCb hs hd hstep
      obtain ⟨new, hnew⟩ : ∃ new, new = (item.next s.messageId block uri).counted complete :=
        ⟨_, rfl⟩
      have hserial : item.serial = new.serial := by rw [hnew, Item.serial_counted]; rfl
      have hid : new.package.messageId = s.messageId := by rw [hnew, Item.messageId_counted]; rfl
      have hmem : item ∈ s.coaps := (mem_of_getByMsgId hcont.choose_spec.1.found).1
      rw [← hnew, State.distinctIds_continued_iff hs h hmem hserial hid]
      refine ⟨fun hall _ item' block' hcont' => ?_, fun hfresh => hfresh hd item block hcont⟩
      obtain rfl := hcont.unique hcont'
      exact hall
    · refine iff_of_true ?_ fun hd item block hc => absurd ⟨hd, item, block, hc⟩ hcont
      by_cases hd : d = []
      · subst hd
        obtain rfl := Except.ok.inj hstep
        exact h
      · cases State.readCb_effect hs hstep with
        | none => exact h
        | acked => exact h
        | continued hc => exact absurd ⟨hd, _, _, hc⟩ hcont
        | deleted => exact h.sublist (List.eraseP_sublist.map _)

theorem State.distinctIds_of_reachable
    (hs : (State.system.restrict State.FreshId).Reachable s) : s.DistinctIds := by
  refine hs.invariant_of (P := State.Sound)
    (fun s hs => State.sound_of_reachable hs.of_restrict) ?_ ?_
  · rintro s ⟨keepsFreed, addr, heap, -, rfl⟩
    exact List.nodup_nil
  · rintro s e t hsound hdistinct ⟨hguard, hstep⟩ -
    exact (State.distinctIds_step hsound hdistinct hstep).mpr hguard

end Distinct

/-- In the runs in which every continuation takes a free ID, the pending packages have different
IDs, and the package that `mbtk_coap_get_by_msg_id` and `mbtk_coap_list_del` pick by the ID of a
package is that package.  There a step keeps it so exactly if it takes a free ID itself. -/
theorem State.distinctIds_iff {s : State}
    (hs : (State.system.restrict State.FreshId).Reachable s) :
    s.DistinctIds ∧
      (∀ A item B, s.coaps = A ++ item :: B →
        getByMsgId s.coaps item.package.messageId = some item ∧
        Client.listDel s.keepsFreed item.package.messageId s.coaps =
          (coapFree s.keepsFreed item.package).map fun _ => A ++ B) ∧
      ∀ e t, s.react e = .ok t → (t.DistinctIds ↔ s.FreshId e) := by
  have hsound := State.sound_of_reachable hs.of_restrict
  have hdistinct := State.distinctIds_of_reachable hs
  refine ⟨hdistinct, fun A item B hcoaps => ?_, fun e t => State.distinctIds_step hsound hdistinct⟩
  have hsplit := hdistinct
  rw [State.DistinctIds, hcoaps] at hsplit
  rw [hcoaps]
  exact ⟨getByMsgId_split hsplit, listDel_split hsplit s.keepsFreed⟩

section Wrapped

theorem State.Waits.step {k : ℕ} {s : State} (hk : k < 65535) (hs : s.Sound) (h : s.Waits k) :
    ∃ e t, s.react e = .ok t ∧ t.Waits (k + 1) := by
  obtain ⟨first, second, hcoaps, hfirst, hsecond, hid, hid', hnext⟩ := h
  have hne : first.package.messageId ≠ second.package.messageId := by
    rw [hid, hid', ne_eq, ← UInt16.toNat_inj, UInt16.toNat_ofNat']
    change ¬ 1 = _
    omega
  have hfound : getByMsgId s.coaps second.package.messageId = some second := by
    rw [hcoaps, getByMsgId, List.find?_cons_of_neg (by simpa using hne),
      List.find?_cons_of_pos (by simp)]
  obtain ⟨block, uri, hreg⟩ := hs.regular second (by simp [hcoaps])
  obtain ⟨q, -, hcont⟩ := State.continueBlock_eq hs.idle hreg ⟨0, 1, 0⟩ true
  have hblock : recvBlock [8] = some ⟨0, 1, 0⟩ := by decide
  obtain ⟨new, hnew⟩ : ∃ new, new = second.next s.messageId ⟨0, 1, 0⟩ uri := ⟨_, rfl⟩
  change s.continueBlock second ⟨0, 1, 0⟩ true = .ok (s.continued (second.next _ _ _) q) at hcont
  rw [← hnew] at hcont
  refine ⟨.datagram 0 (blockAck second.package.messageId [8]) [] true, s.continued new q, ?_, first,
    new, ?_, hfirst, ?_, hid, ?_, ?_⟩
  · exact (State.readCb_more (blockAck_encode _ (by decide)) (by decide) hfound hblock
      (by decide)).trans hcont
  · rw [State.continued, hcoaps, hnew]
    simp [store, Item.next, hfirst, hsecond]
  · rw [hnew]
    exact hsecond
  · rw [hnew]
    change s.messageId = _
    rw [hnext]
    congr 1
    omega
  · change s.messageId + 1 = _
    rw [hnext, ← UInt16.toNat_inj, UInt16.toNat_add, UInt16.toNat_ofNat', UInt16.toNat_ofNat']
    change (_ + 1) % _ = _
    omega

theorem State.Waits.free {k : ℕ} {s : State} (hk : k < 65533) (h : s.Waits k) :
    ∀ item ∈ s.coaps, item.package.messageId ≠ s.messageId := by
  obtain ⟨first, second, hcoaps, -, -, hid, hid', hnext⟩ := h
  intro item hi
  rw [hcoaps, List.mem_pair] at hi
  rw [hnext, ne_eq, ← UInt16.toNat_inj, UInt16.toNat_ofNat']
  obtain rfl | rfl := hi
  · rw [hid]
    change ¬ 1 = _
    omega
  · rw [hid', UInt16.toNat_ofNat']
    omega

theorem State.Waits.freshId {k : ℕ} {s : State} (hk : k < 65533) (h : s.Waits k) (e : Event) :
    s.FreshId e := by
  cases e with
  | line text complete => trivial
  | datagram addr d after complete => exact fun _ _ _ _ other ho _ => h.free hk other ho

theorem State.distinctIds_sampleLines :
    ∃ (s : State) (e : Event) (t : State) (first second : Item), s.Waits 0 ∧ s.react e = .ok t ∧
      t.Waits 1 ∧ t.DistinctIds ∧ t.coaps = [first, second] ∧
      getByMsgId t.coaps second.package.messageId = some second ∧
      Client.listDel t.keepsFreed second.package.messageId t.coaps =
        (coapFree t.keepsFreed second.package).map fun _ => [first] := by
  obtain ⟨s, hs, hwaits⟩ := State.exists_waits State.FreshId fun _ => trivial
  obtain ⟨e, t, hstep, hwaits'⟩ :=
    hwaits.step (by omega) (State.sound_of_reachable hs.of_restrict)
  have hfresh := hwaits.freshId (by omega) e
  have hdistinct := ((State.distinctIds_iff hs).2.2 e t hstep).mpr hfresh
  obtain ⟨first, second, hcoaps, -⟩ := id hwaits'
  obtain ⟨hget, hdel⟩ := (State.distinctIds_iff (hs.step ⟨hfresh, hstep⟩)).2.1 [first] second []
    hcoaps
  exact ⟨s, e, t, first, second, hwaits, hstep, hwaits', hdistinct, hcoaps, hget, hdel⟩

/-- With one request unanswered, 65535 continuations of another lead back to its ID. -/
theorem State.not_distinctIds_wrapped : ∃ s, State.system.Reachable s ∧ ¬ s.DistinctIds := by
  obtain ⟨s, hs, first, second, hcoaps, -, -, hid, hid', -⟩ :=
    Lib.System.Reachable.iterate (k := 65535)
      ((State.exists_waits State.FreshId fun _ => trivial).imp fun _ h => ⟨h.1.of_restrict, h.2⟩)
      fun k s hk hs h => h.step hk (State.sound_of_reachable hs)
  refine ⟨s, hs, fun hdistinct => ?_⟩
  have hwrap : UInt16.ofNat (2 + 65535) = 1 := rfl
  rw [State.DistinctIds, hcoaps, List.map_cons, List.map_singleton, hid, hid', hwrap] at hdistinct
  simp at hdistinct

end Wrapped

end Mbtk.Client
