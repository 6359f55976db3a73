import Mathlib.Data.List.TakeWhile
import Mbtk.VideoServer.Server

namespace Mbtk.VideoServer

namespace ClientFds

/-- What `video_send_data` does with the entry of a client that is gone, when the table has
`clientMax` entries. -/
def compact (clientMax : ℕ) (clientFds : ClientFds) (i : ℕ) : ClientFds :=
  match (List.range clientMax).reverse.find? fun j => i < j ∧ clientFds.used j with
  | some j => (clientFds.set i (clientFds.getD j none)).set j none
  | none => clientFds.set i none

theorem remove_eq_compact (clientFds : ClientFds) (i : ℕ) :
    clientFds.remove i = clientFds.compact VIDEO_CLIENT_MAX i := rfl

end ClientFds

/-- What `video_send_data` leaves behind: its result, the table, and the frames that went out. -/
structure Broadcast where
  result : ℤ
  clientFds : ClientFds
  sent : List (ℕ × List UInt8)
  deriving DecidableEq

namespace Broadcast

/-- `video_send_data` from index `i` on, with `write` for how the call ends for a descriptor.
Without fuel it still runs. -/
def videoSendData (clientMax : ℕ) (write : ℕ → WriteResult) (data : List UInt8) :
    ℕ → ℕ → ClientFds → List (ℕ × List UInt8) → Option Broadcast
  | 0, _, _, _ => none
  | fuel + 1, i, clientFds, sent =>
    if i < clientMax ∧ clientFds.used i then
      let fd := (clientFds.getD i none).getD 0
      match write fd with
      | .full =>
        videoSendData clientMax write data fuel (i + 1) clientFds (sent ++ [(fd, written data)])
      | .badf => videoSendData clientMax write data fuel i (clientFds.compact clientMax i) sent
      | .failed => some ⟨-1, clientFds, sent⟩
    else some ⟨0, clientFds, sent⟩

theorem exists_results {write : ℕ → WriteResult} {data : List UInt8} {fuel i : ℕ}
    {clientFds : ClientFds} {sent : List (ℕ × List UInt8)} {out : Broadcast}
    (h : videoSendData VIDEO_CLIENT_MAX write data fuel i clientFds sent = some out) :
    ∃ results rest, VideoServer.videoSendData data clientFds i results =
      some (out.clientFds, rest) ∧ out.sent = sent ++ rest := by
  induction fuel generalizing i clientFds sent with
  | zero => cases h
  | succ fuel ih =>
    rw [videoSendData] at h
    split_ifs at h with hused
    · dsimp only at h
      split at h
      · obtain ⟨results, rest, hresults, hsent⟩ := ih h
        refine ⟨.full :: results, _ :: rest, ?_, hsent.trans (List.append_assoc _ _ _)⟩
        rw [VideoServer.videoSendData, if_pos hused]
        dsimp only
        rw [hresults]
        rfl
      · obtain ⟨results, rest, hresults, hsent⟩ := ih h
        refine ⟨.badf :: results, rest, ?_, hsent⟩
        rw [VideoServer.videoSendData, if_pos hused, ← hresults, ClientFds.remove_eq_compact]
      · obtain rfl := Option.some.inj h
        exact ⟨[.failed], [], by rw [VideoServer.videoSendData, if_pos hused],
          (List.append_nil _).symm⟩
    · obtain rfl := Option.some.inj h
      exact ⟨[], [], by rw [VideoServer.videoSendData, if_neg hused], (List.append_nil _).symm⟩

/-- The table with these descriptors in front and -1 behind them. -/
def table (fds : List ℕ) (k : ℕ) : ClientFds := fds.map some ++ List.replicate k none

section Compact

variable {clientMax k : ℕ} {fds done mid rest : List ℕ} {fd last : ℕ}

@[simp]
theorem length_table : (table fds k).length = fds.length + k := by
  simp [table]

theorem getElem?_table_of_lt {j : ℕ} (h : j < fds.length) :
    (table fds k)[j]? = some (some fds[j]) := by
  rw [table, List.getElem?_append_left (by rwa [List.length_map])]
  rw [List.getElem?_map, List.getElem?_eq_getElem h, Option.map_some]

theorem used_table (hpos : ∀ fd ∈ fds, 0 < fd) (j : ℕ) :
    (table fds k).used j = decide (j < fds.length) := by
  by_cases h : j < fds.length
  · have := hpos fds[j] (List.getElem_mem h)
    simpa [ClientFds.used, getElem?_table_of_lt h, h] using this
  · have hbehind : (table fds k)[j]? = none ∨ (table fds k)[j]? = some none := by
      rw [table, List.getElem?_append_right (by simpa using h), List.getElem?_replicate]
      split
      · exact .inr rfl
      · exact .inl rfl
    rcases hbehind with h' | h' <;> simp [ClientFds.used, h', h]

theorem getD_table : (table (done ++ fd :: mid) k).getD done.length none = some fd := by
  rw [List.getD_eq_getElem?_getD, getElem?_table_of_lt (by simp)]
  simp

theorem table_set : (table (done ++ fd :: mid) k).set done.length (some last) =
    table (done ++ last :: mid) k := by
  simp [table]

theorem table_set_none : (table (done ++ [fd]) k).set done.length none = table done (k + 1) := by
  simp [table, List.replicate_succ]

theorem find?_reverse_range {p : ℕ → Bool} {n j : ℕ} (hj : j < n) (hp : p j = true)
    (hlast : ∀ i, j < i → i < n → p i = false) : (List.range n).reverse.find? p = some j := by
  induction n with
  | zero => exact absurd hj (Nat.not_lt_zero j)
  | succ n ih =>
    rw [List.range_succ, List.reverse_append, List.reverse_singleton, List.singleton_append]
    obtain hlt | rfl := Nat.lt_succ_iff_lt_or_eq.mp hj
    · rw [List.find?_cons_of_neg (by simp [hlast n hlt n.lt_succ_self])]
      exact ih hlt fun i hi hn => hlast i hi (Nat.lt_succ_of_lt hn)
    · exact List.find?_cons_of_pos hp

theorem compact_last (hpos : ∀ d ∈ done ++ [fd], 0 < d) :
    (table (done ++ [fd]) k).compact clientMax done.length = table done (k + 1) := by
  have hnone : (List.range clientMax).reverse.find?
      (fun j => done.length < j ∧ (table (done ++ [fd]) k).used j) = none := by
    rw [List.find?_eq_none]
    intro j _
    rw [used_table hpos, List.length_append, List.length_singleton]
    simp
  rw [ClientFds.compact, hnone]
  exact table_set_none

theorem compact_table (hpos : ∀ d ∈ done ++ fd :: (mid ++ [last]), 0 < d)
    (hmax : done.length + mid.length + 2 ≤ clientMax) :
    (table (done ++ fd :: (mid ++ [last])) k).compact clientMax done.length =
      table (done ++ last :: mid) (k + 1) := by
  have hsome : (List.range clientMax).reverse.find?
      (fun j => done.length < j ∧ (table (done ++ fd :: (mid ++ [last])) k).used j) =
        some (done.length + mid.length + 1) := by
    refine find?_reverse_range (by omega) ?_ fun i hi _ => ?_
    · simp [used_table hpos]
      omega
    · simp [used_table hpos]
      omega
  have hfront : done ++ fd :: (mid ++ [last]) = (done ++ fd :: mid) ++ last :: [] := by simp
  have hlength : done.length + mid.length + 1 = (done ++ fd :: mid).length := by
    simp
    omega
  rw [ClientFds.compact, hsome]
  dsimp only
  have hget : (table ((done ++ fd :: mid) ++ last :: []) k).getD (done ++ fd :: mid).length none =
      some last := getD_table
  rw [hfront, hlength, hget, ← hfront, table_set]
  have hplace : done ++ last :: (mid ++ [last]) = (done ++ last :: mid) ++ [last] := by simp
  have hlength' : (done ++ fd :: mid).length = (done ++ last :: mid).length := by simp
  rw [hplace, hlength', table_set_none]

theorem exists_compact (hpos : ∀ d ∈ done ++ fd :: rest, 0 < d)
    (hmax : done.length + rest.length + 1 ≤ clientMax) :
    ∃ rest' : List ℕ, rest'.Perm rest ∧
      (table (done ++ fd :: rest) k).compact clientMax done.length =
        table (done ++ rest') (k + 1) := by
  obtain rfl | ⟨mid, last, rfl⟩ := List.eq_nil_or_concat' rest
  · exact ⟨[], .nil, by rw [compact_last hpos, List.append_nil]⟩
  · rw [List.length_append, List.length_singleton] at hmax
    exact ⟨last :: mid, (List.perm_append_singleton last mid).symm,
      compact_table hpos (by omega)⟩

end Compact

section Turns

variable {clientMax k fuel : ℕ} {write : ℕ → WriteResult} {data : List UInt8}
  {sent : List (ℕ × List UInt8)} {done rest : List ℕ} {fd : ℕ}

theorem videoSendData_end (hpos : ∀ d ∈ done, 0 < d) :
    videoSendData clientMax write data (fuel + 1) done.length (table done k) sent =
      some ⟨0, table done k, sent⟩ := by
  rw [videoSendData, if_neg]
  rw [used_table hpos]
  simp

theorem videoSendData_turn (hpos : ∀ d ∈ done ++ fd :: rest, 0 < d)
    (hmax : done.length < clientMax) :
    videoSendData clientMax write data (fuel + 1) done.length (table (done ++ fd :: rest) k) sent =
      match write fd with
      | .full => videoSendData clientMax write data fuel (done.length + 1)
          (table (done ++ fd :: rest) k) (sent ++ [(fd, written data)])
      | .badf => videoSendData clientMax write data fuel done.length
          ((table (done ++ fd :: rest) k).compact clientMax done.length) sent
      | .failed => some ⟨-1, table (done ++ fd :: rest) k, sent⟩ := by
  have hused : (table (done ++ fd :: rest) k).used done.length := by
    rw [used_table hpos]
    simp
  rw [videoSendData, if_pos ⟨hmax, hused⟩, getD_table]
  rfl

theorem exists_videoSendData (hpos : ∀ d ∈ done ++ rest, 0 < d)
    (hwrite : ∀ d ∈ rest, write d ≠ .failed)
    (hmax : done.length + rest.length + k = clientMax) :
    ∃ kept : List ℕ, kept.Perm (rest.filter (write · = .full)) ∧
      ∀ fuel sent, rest.length < fuel →
        videoSendData clientMax write data fuel done.length (table (done ++ rest) k) sent =
          some ⟨0, table (done ++ kept) (rest.length - kept.length + k),
            sent ++ kept.map (·, written data)⟩ := by
  generalize hn : rest.length = n at hmax
  induction n generalizing done rest k with
  | zero =>
    obtain rfl := List.length_eq_zero_iff.mp hn
    refine ⟨[], .nil, fun fuel sent hfuel => ?_⟩
    obtain ⟨fuel, rfl⟩ := Nat.exists_eq_add_of_lt hfuel
    rw [List.append_nil] at hpos ⊢
    rw [Nat.zero_add, videoSendData_end hpos]
    simp
  | succ n ih =>
    obtain ⟨fd, rest, rfl⟩ := List.exists_cons_of_length_eq_add_one hn
    rw [List.length_cons, Nat.add_right_cancel_iff] at hn
    have hrest : ∀ d ∈ rest, write d ≠ .failed := fun d hd =>
      hwrite d (List.mem_cons_of_mem fd hd)
    cases hfd : write fd with
    | full =>
      have hplace : done ++ fd :: rest = (done ++ [fd]) ++ rest := by simp
      have hmax' : (done ++ [fd]).length + n + k = clientMax := by
        simp
        omega
      obtain ⟨kept, hkept, hrun⟩ := ih (hplace ▸ hpos) hrest hn hmax'
      refine ⟨fd :: kept, ?_, fun fuel sent hfuel => ?_⟩
      · rw [List.filter_cons_of_pos (by simpa using hfd)]
        exact hkept.cons fd
      · obtain ⟨fuel, rfl⟩ := Nat.exists_eq_add_of_lt hfuel
        have := hrun (n + 1 + fuel) (sent ++ [(fd, written data)]) (by omega)
        rw [videoSendData_turn hpos (by omega), hfd, hplace]
        simpa using this
    | badf =>
      have hfilter : (fd :: rest).filter (write · = .full) = rest.filter (write · = .full) :=
        List.filter_cons_of_neg (by simp [hfd])
      have hfits : done.length + rest.length + 1 ≤ clientMax := by omega
      obtain ⟨rest', hrest', hcompact⟩ := exists_compact hpos hfits
      have hmem : ∀ d ∈ done ++ rest', 0 < d := fun d hd => by
        rw [List.mem_append, hrest'.mem_iff] at hd
        exact hpos d (by simp; tauto)
      have hmax' : done.length + n + (k + 1) = clientMax := by omega
      obtain ⟨kept, hkept, hrun⟩ := ih hmem (fun d hd => hrest d (hrest'.mem_iff.mp hd))
        (hrest'.length_eq.trans hn) hmax'
      have hperm := hkept.trans (hrest'.filter _)
      refine ⟨kept, hfilter ▸ hperm, fun fuel sent hfuel => ?_⟩
      obtain ⟨fuel, rfl⟩ := Nat.exists_eq_add_of_lt hfuel
      have hlength : kept.length ≤ n :=
        (hperm.length_eq.trans_le (List.length_filter_le _ rest)).trans hn.le
      have hbehind : n - kept.length + (k + 1) = n + 1 - kept.length + k := by omega
      rw [videoSendData_turn hpos (by omega), hfd]
      dsimp only
      rw [hcompact, hrun (n + 1 + fuel) sent (by omega), hbehind]
    | failed => exact absurd hfd (hwrite fd List.mem_cons_self)

end Turns

/-- The table of `clientMax` entries has these descriptors in front, all positive and different,
and -1 behind them. -/
structure Packed (clientMax : ℕ) (clientFds : ClientFds) (fds : List ℕ) : Prop where
  pos : ∀ fd ∈ fds, 0 < fd
  nodup : fds.Nodup
  eq : clientFds = table fds (clientMax - fds.length)
  length_le : fds.length ≤ clientMax

variable {clientMax : ℕ} {clientFds : ClientFds} {fds : List ℕ} {write : ℕ → WriteResult}

/-- The call ends well, the frame goes once to each client whose `write` completes, and these stay
in the table. -/
def Exact (clientMax : ℕ) (clientFds : ClientFds) (fds : List ℕ) (write : ℕ → WriteResult)
    (data : List UInt8) : Prop :=
  ∃ clientFds' fds' sent,
    (∀ fuel, fds.length < fuel →
      videoSendData clientMax write data fuel 0 clientFds [] = some ⟨0, clientFds', sent⟩) ∧
    Packed clientMax clientFds' fds' ∧
    (∀ fd, fd ∈ fds' ↔ fd ∈ fds ∧ write fd = .full) ∧
    (∀ fd, sent.count (fd, data) = if fd ∈ fds ∧ write fd = .full then 1 else 0) ∧
    ∀ frame ∈ sent, frame.2 = data

theorem exists_sent (data : List UInt8) (h : Packed clientMax clientFds fds)
    (hwrite : ∀ fd ∈ fds, write fd = .full ∨ write fd = .badf) :
    ∃ kept : List ℕ, kept.Nodup ∧ (∀ fd, fd ∈ kept ↔ fd ∈ fds ∧ write fd = .full) ∧
      Packed clientMax (table kept (clientMax - kept.length)) kept ∧
      ∀ fuel, fds.length < fuel →
        videoSendData clientMax write data fuel 0 clientFds [] =
          some ⟨0, table kept (clientMax - kept.length), kept.map (·, written data)⟩ := by
  have hpos : ∀ fd ∈ [] ++ fds, 0 < fd := h.pos
  have hfailed : ∀ fd ∈ fds, write fd ≠ .failed := fun fd hfd => by
    rcases hwrite fd hfd with hw | hw <;> simp [hw]
  have hlength := Nat.add_sub_cancel' h.length_le
  have hmax : ([] : List ℕ).length + fds.length + (clientMax - fds.length) = clientMax := by
    rw [List.length_nil, Nat.zero_add, hlength]
  obtain ⟨kept, hkept, hrun⟩ := exists_videoSendData hpos hfailed hmax
  have hmem (fd : ℕ) : fd ∈ kept ↔ fd ∈ fds ∧ write fd = .full := by
    rw [hkept.mem_iff, List.mem_filter, decide_eq_true_iff]
  have hnodup : kept.Nodup := hkept.nodup_iff.mpr (h.nodup.filter _)
  have hle : kept.length ≤ fds.length :=
    hkept.length_eq.trans_le (List.length_filter_le _ fds)
  refine ⟨kept, hnodup, hmem, ⟨fun fd hfd => h.pos fd ((hmem fd).mp hfd).1, hnodup, rfl,
    hle.trans h.length_le⟩, fun fuel hfuel => ?_⟩
  have hrest : fds.length - kept.length + (clientMax - fds.length) = clientMax - kept.length := by
    omega
  have := hrun fuel [] hfuel
  rw [hrest] at this
  rw [h.eq]
  exact this

theorem written_eq_self_iff {data : List UInt8} : written data = data ↔ 0 ∉ data := by
  rw [written, List.takeWhile_eq_self_iff]
  refine ⟨fun h hmem => by simpa using h 0 hmem, fun h c hc => ?_⟩
  have hne : c ≠ 0 := ne_of_mem_of_not_mem hc h
  simpa using hne

/-- The whole frame goes out exactly if it has no zero byte, or if no `write` completes. -/
theorem exact_iff (data : List UInt8) (h : Packed clientMax clientFds fds)
    (hwrite : ∀ fd ∈ fds, write fd = .full ∨ write fd = .badf) :
    Exact clientMax clientFds fds write data ↔ 0 ∉ data ∨ ∀ fd ∈ fds, write fd ≠ .full := by
  obtain ⟨kept, hnodup, hmem, hpacked, hrun⟩ := exists_sent data h hwrite
  constructor
  · rintro ⟨clientFds', fds', sent, hrun', -, -, -, hall⟩
    rw [or_iff_not_imp_right]
    intro hfull
    push Not at hfull
    obtain ⟨fd, hfd, hfull⟩ := hfull
    have hout := Option.some.inj ((hrun _ (Nat.lt_succ_self _)).symm.trans
      (hrun' _ (Nat.lt_succ_self _)))
    have hsent : kept.map (·, written data) = sent := congrArg Broadcast.sent hout
    have hframe : (fd, written data) ∈ sent :=
      hsent ▸ List.mem_map_of_mem ((hmem fd).mpr ⟨hfd, hfull⟩)
    exact written_eq_self_iff.mp (hall _ hframe)
  · intro hcase
    refine ⟨_, kept, _, hrun, hpacked, hmem, fun fd => ?_, fun frame hframe => ?_⟩
    · obtain hzero | hnone := hcase
      · have hinj : Function.Injective fun fd : ℕ => (fd, data) := fun _ _ heq =>
          (Prod.mk.inj heq).1
        rw [written_eq_self_iff.mpr hzero, List.count_map_of_injective kept _ hinj, hnodup.count]
        simp only [hmem]
      · obtain rfl : kept = [] := List.eq_nil_iff_forall_not_mem.mpr fun fd hfd =>
          hnone fd ((hmem fd).mp hfd).1 ((hmem fd).mp hfd).2
        rw [if_neg fun hfull => hnone fd hfull.1 hfull.2]
        rfl
    · obtain ⟨fd, hfd, rfl⟩ := List.mem_map.mp hframe
      obtain hzero | hnone := hcase
      · exact written_eq_self_iff.mpr hzero
      · exact absurd ((hmem fd).mp hfd).2 (hnone fd ((hmem fd).mp hfd).1)

/-- The clients 4 and 6 are gone, the last one among them. -/
def sampleWrite (fd : ℕ) : WriteResult := if fd = 5 then .full else .badf

theorem packed_sample : Packed 4 [some 4, some 5, some 6, none] [4, 5, 6] :=
  ⟨by decide, by decide, rfl, by decide⟩

theorem exact_sample :
    Exact 4 [some 4, some 5, some 6, none] [4, 5, 6] sampleWrite [0x41, 0x42] ∧
      ¬ Exact 4 [some 4, some 5, some 6, none] [4, 5, 6] sampleWrite [0x41, 0x00, 0x42] :=
  ⟨(exact_iff [0x41, 0x42] packed_sample (by decide)).mpr (.inl (by decide)),
    fun h => absurd ((exact_iff _ packed_sample (by decide)).mp h) (by decide)⟩

/-- Of a frame with a zero byte the client gets what stands before it. -/
theorem not_exact_zero :
    Packed VIDEO_CLIENT_MAX [some 5, none] [5] ∧
      ¬ Exact VIDEO_CLIENT_MAX [some 5, none] [5] sampleWrite [0x41, 0x00, 0x42] := by
  refine ⟨⟨by decide, by decide, rfl, by decide⟩, ?_⟩
  rintro ⟨clientFds', fds', sent, hrun, -, -, -, hall⟩
  have hout : some (⟨0, [some 5, none], [(5, [0x41])]⟩ : Broadcast) =
      some ⟨0, clientFds', sent⟩ := hrun 2 (by decide)
  obtain rfl : [(5, [0x41])] = sent := congrArg Broadcast.sent (Option.some.inj hout)
  exact absurd (hall _ List.mem_cons_self) (by decide)

end Broadcast

end Mbtk.VideoServer
