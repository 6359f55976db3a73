import Mbtk.TcpServer.PollServer

namespace Mbtk.TcpServer.PollServer

open Lib Sock

def fdAt (s : PollServer) (i : ℕ) : Option ℕ := s.client[i]?.bind PollFd.fd

/-- What the kernel gives to a turn, where `fds` are the open connections. -/
structure Polls (s : PollServer) (fds : Finset ℕ) (t : PollTurn) : Prop where
  nready : 0 < (s.poll t.conditions).1
  fresh : ∀ connfd ∈ t.connfd, connfd ∉ insert s.listenfd fds

/-- The process of `main_4`, as long as it runs, with the connections that are open. -/
def process : System (Except Fault PollServer × Finset ℕ) (PollTurn × List Event) where
  init p := ∃ memory listenfd, memory ≠ [] ∧ p = (.ok (start memory listenfd), ∅)
  step p label p' := ∃ s, p.1 = .ok s ∧ Polls s p.2 label.1 ∧
    turn label.1 s = (label.2, p'.1) ∧ p'.2 = label.2.foldl Event.apply p.2

structure Sound (s : PollServer) (fds : Finset ℕ) : Prop where
  first : s.fdAt 0 = some s.listenfd
  mem_iff : ∀ fd, fd ∈ fds ↔ ∃ i, 1 ≤ i ∧ s.fdAt i = some fd
  unique : ∀ i j fd, s.fdAt i = some fd → s.fdAt j = some fd → i = j
  le : ∀ i fd, s.fdAt i = some fd → i ≤ s.maxi
  lt : s.maxi < s.client.length
  events : ∀ (i : ℕ) (entry : PollFd), s.client[i]? = some entry → entry.fd.isSome →
    entry.events = true

section Entries

variable {s : PollServer} {i j fd : ℕ} {conditions : ℕ → Revents} {revents : Revents}

theorem slot_eq_some_iff : s.slot i = some (fd, revents) ↔
    ∃ entry, s.client[i]? = some entry ∧ entry.fd = some fd ∧ entry.revents = revents := by
  rw [slot, Option.bind_eq_some_iff]
  refine exists_congr fun entry => and_congr_right fun _ => ?_
  rw [Option.map_eq_some_iff]
  simp

theorem fdAt_of_slot (h : s.slot i = some (fd, revents)) : s.fdAt i = some fd := by
  obtain ⟨entry, hentry, hfd, -⟩ := slot_eq_some_iff.mp h
  rw [fdAt, hentry, Option.bind_some, hfd]

theorem poll_getElem? :
    (s.poll conditions).2.client[i]? =
      s.client[i]?.map fun entry => if i ≤ s.maxi then report conditions entry else entry := by
  rw [poll, List.getElem?_mapIdx]

theorem fdAt_poll : (s.poll conditions).2.fdAt i = s.fdAt i := by
  rw [fdAt, fdAt, poll_getElem?, Option.bind_map]
  refine congrArg _ (funext fun entry => ?_)
  dsimp only [Function.comp]
  split_ifs <;> rfl

theorem slot_poll (hevents : ∀ entry, s.client[i]? = some entry → entry.fd.isSome →
      entry.events = true) (hi : i ≤ s.maxi) :
    (s.poll conditions).2.slot i = (s.fdAt i).map fun fd => (fd, conditions fd) := by
  rw [slot, fdAt, poll_getElem?, Option.bind_map, Option.map_bind]
  refine Option.bind_congr fun entry hentry => ?_
  dsimp only [Function.comp]
  rw [if_pos hi]
  cases hfd : entry.fd with
  | none => simp [report, hfd]
  | some fd =>
    have htrue := hevents entry hentry (by rw [hfd]; rfl)
    simp [report, hfd, htrue]

theorem countP_take {α : Type} (p : α → Bool) (l : List α) (k : ℕ) :
    (l.take k).countP p = (List.range k).countP fun j => l[j]?.any p := by
  induction k with
  | zero => rfl
  | succ k ih =>
    rw [List.take_add_one, List.range_succ, List.countP_append, List.countP_append, ih]
    cases h : l[k]? <;> simp [h, List.countP_cons]

theorem nready_poll (hevents : ∀ (i : ℕ) (entry : PollFd), s.client[i]? = some entry →
      entry.fd.isSome → entry.events = true) :
    (s.poll conditions).1 = ((List.range (s.maxi + 1)).countP fun j =>
      (s.fdAt j).any fun fd => (conditions fd).nonzero : ℕ) := by
  rw [poll]
  dsimp only
  rw [countP_take]
  congr 1
  refine List.countP_congr fun j hj => ?_
  have hle : j ≤ s.maxi := Nat.le_of_lt_succ (List.mem_range.mp hj)
  rw [List.getElem?_mapIdx, fdAt]
  cases hentry : s.client[j]? with
  | none => simp
  | some entry =>
    simp only [Option.map_some, Option.any_some, if_pos hle, Option.bind_some]
    cases hfd : entry.fd with
    | none => simp [report, hfd, Revents.nonzero, Revents.ready]
    | some fd =>
      have htrue := hevents j entry hentry (by rw [hfd]; rfl)
      simp [report, hfd, htrue, Revents.nonzero, Revents.ready]

theorem fdAt_drop : (s.drop i).fdAt j = if j = i then none else s.fdAt j := by
  rw [fdAt, fdAt, drop, List.getElem?_modify]
  cases hentry : s.client[j]? with
  | none => simp
  | some entry =>
    by_cases hj : j = i
    · simp [hj]
    · simp [hj, Ne.symm hj]

theorem slot_drop_ne (h : j ≠ i) : (s.drop i).slot j = s.slot j := by
  rw [slot, slot, drop, List.getElem?_modify]
  cases s.client[j]? <;> simp [h.symm]

theorem fdAt_save (hi : i < s.client.length) :
    (s.save i fd).fdAt j = if j = i then some fd else s.fdAt j := by
  rw [fdAt, fdAt, save, List.getElem?_modify]
  by_cases hj : j = i
  · subst hj
    simp [List.getElem?_eq_getElem hi]
  · cases s.client[j]? <;> simp [hj, Ne.symm hj]

theorem slot_save_ne (h : j ≠ i) : (s.save i fd).slot j = s.slot j := by
  rw [slot, slot, save, List.getElem?_modify]
  cases s.client[j]? <;> simp [h.symm]

theorem slot_save_self {entry : PollFd} (h : s.client[i]? = some entry) :
    (s.save i fd).slot i = some (fd, entry.revents) := by
  rw [slot, save, List.getElem?_modify, h]
  simp

end Entries

section Steps

variable {s s' : PollServer} {fds : Finset ℕ} {t : PollTurn} {i fd connfd : ℕ} {e : Event}
  {conditions : ℕ → Revents}

theorem sound_start {memory : List PollFd} (listenfd : ℕ) (h : memory ≠ []) :
    Sound (start memory listenfd) ∅ := by
  obtain ⟨first, rest, rfl⟩ := List.exists_cons_of_ne_nil h
  have hfd (i : ℕ) : (start (first :: rest) listenfd).fdAt i = if i =
      0 then some listenfd else none := by
    cases i with
    | zero => rfl
    | succ i =>
      rw [fdAt, start, List.getElem?_cons_succ, List.getElem?_map]
      cases rest[i]? <;> simp
  exact {
    first := hfd 0
    mem_iff := by
      refine fun fd => iff_of_false (Finset.notMem_empty fd) ?_
      rintro ⟨i, hi, hslot⟩
      rw [hfd, if_neg (by omega)] at hslot
      cases hslot
    unique := by
      intro i j fd hi hj
      rw [hfd] at hi hj
      split_ifs at hi hj
      omega
    le := by
      intro i fd hi
      rw [hfd] at hi
      split_ifs at hi with hzero
      exact hzero.le
    lt := Nat.zero_lt_succ _
    events := by
      intro i entry hentry hsome
      cases i with
      | zero =>
        rw [start, List.getElem?_cons_zero, Option.some.injEq] at hentry
        rw [← hentry]
      | succ i =>
        rw [start, List.getElem?_cons_succ, List.getElem?_map] at hentry
        obtain ⟨entry', -, rfl⟩ := Option.map_eq_some_iff.mp hentry
        cases hsome }

theorem Sound.poll (h : Sound s fds) : Sound (s.poll conditions).2 fds where
  first := fdAt_poll.trans h.first
  mem_iff := fun fd => by simp only [fdAt_poll, h.mem_iff]
  unique := fun i j fd hi hj => h.unique i j fd (fdAt_poll ▸ hi) (fdAt_poll ▸ hj)
  le := fun i fd hi => h.le i fd (fdAt_poll ▸ hi)
  lt := by
    rw [PollServer.poll]
    dsimp only
    rw [List.length_mapIdx]
    exact h.lt
  events := by
    intro i entry hentry hsome
    rw [poll_getElem?] at hentry
    obtain ⟨entry', hentry', rfl⟩ := Option.map_eq_some_iff.mp hentry
    have hevents := h.events i entry' hentry'
    split_ifs at hsome ⊢ <;> exact hevents hsome

theorem Sound.drop (h : Sound s fds) (hi : 1 ≤ i) (hfd : s.fdAt i = some fd) :
    Sound (s.drop i) (fds.erase fd) where
  first := by
    rw [fdAt_drop, if_neg (by omega)]
    exact h.first
  mem_iff := by
    intro fd'
    simp only [fdAt_drop, Finset.mem_erase, h.mem_iff]
    constructor
    · rintro ⟨hne, j, hj, hfd'⟩
      refine ⟨j, hj, ?_⟩
      rw [if_neg fun heq => hne (Option.some.inj ((heq ▸ hfd').symm.trans hfd))]
      exact hfd'
    · rintro ⟨j, hj, hfd'⟩
      split_ifs at hfd' with hji
      exact ⟨fun heq => hji (h.unique j i fd (heq ▸ hfd') hfd), j, hj, hfd'⟩
  unique := by
    intro j k fd' hj hk
    rw [fdAt_drop] at hj hk
    split_ifs at hj hk
    exact h.unique j k fd' hj hk
  le := by
    intro j fd' hj
    rw [fdAt_drop] at hj
    split_ifs at hj
    exact h.le j fd' hj
  lt := by
    rw [PollServer.drop]
    dsimp only
    rw [List.length_modify]
    exact h.lt
  events := by
    intro j entry hentry hsome
    rw [PollServer.drop, List.getElem?_modify] at hentry
    obtain ⟨entry', hentry', rfl⟩ := Option.map_eq_some_iff.mp hentry
    split_ifs at hsome ⊢
    · cases hsome
    · exact h.events j entry' hentry' hsome

theorem Sound.save (h : Sound s fds) (hfresh : connfd ∉ insert s.listenfd fds) (hi : 1 ≤ i)
    (hlt : i < s.client.length) (hfree : s.fdAt i = none) :
    Sound (s.save i connfd) (insert connfd fds) := by
  rw [Finset.mem_insert, not_or] at hfresh
  have hused {j : ℕ} (hj : s.fdAt j = some connfd) : False := by
    obtain hzero | hpos := Nat.eq_zero_or_pos j
    · rw [hzero, h.first] at hj
      exact hfresh.1 (Option.some.inj hj).symm
    · exact hfresh.2 ((h.mem_iff connfd).mpr ⟨j, hpos, hj⟩)
  exact {
    first := by
      rw [fdAt_save hlt, if_neg (by omega)]
      exact h.first
    mem_iff := by
      intro fd'
      simp only [fdAt_save hlt, Finset.mem_insert, h.mem_iff]
      constructor
      · rintro (rfl | ⟨j, hj, hfd'⟩)
        · exact ⟨i, hi, if_pos rfl⟩
        · refine ⟨j, hj, ?_⟩
          rw [if_neg fun heq => by rw [heq, hfree] at hfd'; cases hfd']
          exact hfd'
      · rintro ⟨j, hj, hfd'⟩
        split_ifs at hfd' with hji
        · exact .inl (Option.some.inj hfd').symm
        · exact .inr ⟨j, hj, hfd'⟩
    unique := by
      intro j k fd' hj hk
      rw [fdAt_save hlt] at hj hk
      split_ifs at hj hk with hji hki hki
      · rw [hji, hki]
      · cases hj
        exact (hused hk).elim
      · cases hk
        exact (hused hj).elim
      · exact h.unique j k fd' hj hk
    le := by
      intro j fd' hj
      rw [fdAt_save hlt] at hj
      dsimp only [PollServer.save]
      split_ifs at hj with hji
      · split_ifs <;> omega
      · have hle := h.le j fd' hj
        split_ifs <;> omega
    lt := by
      have hle := h.lt
      dsimp only [PollServer.save]
      rw [List.length_modify]
      split_ifs <;> omega
    events := by
      intro j entry hentry hsome
      rw [PollServer.save, List.getElem?_modify] at hentry
      obtain ⟨entry', hentry', rfl⟩ := Option.map_eq_some_iff.mp hentry
      split_ifs at hsome ⊢
      · rfl
      · exact h.events j entry' hentry' hsome }

theorem accept_some (hlength : 0 < s.client.length) (connfd : ℕ) :
    s.accept (some connfd) = ([.opened connfd], .error .tooManyClients) ∨
      ∃ i, 1 ≤ i ∧ i < s.client.length ∧ s.fdAt i = none ∧
        (∀ j, 1 ≤ j → j < i → s.fdAt j ≠ none) ∧
        s.accept (some connfd) = ([.opened connfd], .ok (s.save i connfd)) := by
  rw [accept]
  split_ifs with hfull
  · exact .inl rfl
  · have hle : (s.client.drop 1).findIdx (fun entry => entry.fd.isNone) ≤
        (s.client.drop 1).length := List.findIdx_le_length
    have hdrop : (s.client.drop 1).length = s.client.length - 1 := List.length_drop
    have hlt : (s.client.drop 1).findIdx (fun entry => entry.fd.isNone) <
        (s.client.drop 1).length := by omega
    refine .inr ⟨_, Nat.le_add_right 1 _, by omega, ?_, fun j hj hji => ?_, rfl⟩
    · have hnone := List.findIdx_getElem (w := hlt)
      rw [List.getElem_drop, Option.isNone_iff_eq_none] at hnone
      rw [fdAt, List.getElem?_eq_getElem (by omega), Option.bind_some, hnone]
    · obtain ⟨j, rfl⟩ := Nat.exists_eq_add_of_le hj
      have hsome := List.not_of_lt_findIdx (Nat.lt_of_add_lt_add_left hji)
      rw [List.getElem_drop] at hsome
      rw [fdAt, List.getElem?_eq_getElem (by omega), Option.bind_some]
      intro hnone
      rw [hnone] at hsome
      cases hsome

theorem serve_eq_ok (h : serve t i fd s = .ok (s', e)) :
    (s' = s.drop i ∧ e = .closed fd ∧ ∀ data, t.read fd = .piece data → data = []) ∨
      ∃ data, data ≠ [] ∧ t.read fd = .piece data ∧ s' = s ∧
        e = .echoed fd data (data ++ [0x0A]) := by
  unfold serve at h
  cases hread : t.read fd with
  | failed reset =>
    simp only [hread] at h
    split_ifs at h
    rw [Except.ok.injEq, Prod.mk.injEq] at h
    exact .inl ⟨h.1.symm, h.2.symm, by simp⟩
  | piece data =>
    cases data with
    | nil =>
      simp only [hread, Except.ok.injEq, Prod.mk.injEq] at h
      exact .inl ⟨h.1.symm, h.2.symm, fun data hdata => (ReadAnswer.piece.inj hdata).symm⟩
    | cons c data =>
      simp only [hread, reply] at h
      split_ifs at h <;> simp only [Except.map, Except.ok.injEq, Prod.mk.injEq, reduceCtorEq] at h
      exact .inr ⟨c :: data, List.cons_ne_nil c data, rfl, h.1.symm, h.2.symm⟩

theorem frame_serve (i : ℕ) (entry : ℕ × Revents) (s s' : PollServer) (e : Event)
    (h : serve t i entry.1 s = .ok (s', e)) (j : ℕ) (hj : j ≠ i) : s'.slot j = s.slot j := by
  obtain ⟨rfl, -⟩ | ⟨data, -, -, rfl, -⟩ := serve_eq_ok h
  · exact slot_drop_ne hj
  · rfl

structure Pending (listenfd : ℕ) (todo : List (ℕ × ℕ × Revents)) (s : PollServer)
    (fds : Finset ℕ) : Prop where
  sound : Sound s fds
  listenfd : s.listenfd = listenfd
  nodup : (todo.map Prod.fst).Nodup
  entries : ∀ entry ∈ todo, 1 ≤ entry.1 ∧ s.fdAt entry.1 = some entry.2.1

theorem Pending.serve {listenfd : ℕ} {todo : List (ℕ × ℕ × Revents)} {revents : Revents}
    (h : Pending listenfd ((i, fd, revents) :: todo) s fds)
    (hrun : serve t i fd s = .ok (s', e)) :
    ∃ fds', EchoStep fds e fds' ∧ Pending listenfd todo s' fds' ∧ Serves t.read fd e := by
  obtain ⟨hi, hfd⟩ := h.entries _ List.mem_cons_self
  have hmem := (h.sound.mem_iff fd).mpr ⟨i, hi, hfd⟩
  obtain ⟨hnotMem, hnodup⟩ := List.nodup_cons.mp h.nodup
  have hrest := fun entry hentry => h.entries entry (List.mem_cons_of_mem _ hentry)
  obtain ⟨rfl, rfl, hread⟩ | ⟨data, hne, hread, rfl, rfl⟩ := serve_eq_ok hrun
  · refine ⟨_, .closed hmem, ⟨h.sound.drop hi hfd, h.listenfd, hnodup, fun entry hentry => ?_⟩,
      .inl ⟨rfl, hread⟩⟩
    rw [fdAt_drop, if_neg fun heq => hnotMem (List.mem_map.mpr ⟨entry, hentry, heq⟩)]
    exact hrest entry hentry
  · exact ⟨_, .echoed hmem hne, ⟨h.sound, h.listenfd, hnodup, hrest⟩, .inr ⟨data, _, rfl, hread⟩⟩

def marked (s : PollServer) : List (ℕ × ℕ × Revents) :=
  markedFrom slot (fun _ entry => entry.2.ready) s s.maxi 1

def serveMarked (t : PollTurn) (n : ℕ) (s : PollServer) : List Event × Except Fault PollServer :=
  serveAll (fun i entry => serve t i entry.1) (s.marked.take n) s

theorem clientLoop_eq {nready : ℤ} (hpos : 0 < nready) :
    s.clientLoop t nready = serveMarked t nready.toNat s := by
  rw [clientLoop, serveLoop_eq (fun i a s s' b => frame_serve i a s s' b) hpos, ← marked,
    ← serveMarked]

theorem of_serveMarked (h : Sound s fds) (n : ℕ) :
    ∃ fds', echo.Run fds (serveMarked t n s).1 fds' ∧ ∀ s', (serveMarked t n s).2 = .ok s' →
      Sound s' fds' ∧ (∀ e ∈ (serveMarked t n s).1, Serves t.read e.fd e) ∧
        (serveMarked t n s).1.map Event.fd = (s.marked.take n).map fun entry => entry.2.1 := by
  have hpending : Pending s.listenfd (s.marked.take n) s fds := by
    refine ⟨h, rfl, (nodup_markedFrom.sublist ((List.take_sublist _ _).map _)), ?_⟩
    intro entry hentry
    obtain ⟨hi, hslot, -⟩ := mem_markedFrom.mp (List.mem_of_mem_take hentry)
    exact ⟨hi.1, fdAt_of_slot hslot⟩
  obtain ⟨fds', hecho, hend⟩ := run_of_serveAll (M := echo)
    (P := Pending s.listenfd) (Q := fun entry => Serves t.read entry.1)
    (fun i a todo s u s' b hP hserve => hP.serve hserve) hpending
  refine ⟨fds', hecho, fun s' hs' => ?_⟩
  obtain ⟨hpending', hall⟩ := hend s' hs'
  obtain ⟨hmap, hserves⟩ := of_serves hall
  exact ⟨hpending'.sound, hserves, hmap⟩

end Steps

section Turns

variable {s s' : PollServer} {fds : Finset ℕ} {t : PollTurn} {es : List Event}

/-- The clients that are ready. -/
def readyClients (t : PollTurn) (fds : Finset ℕ) : Finset ℕ :=
  fds.filter fun fd => (t.conditions fd).ready

def countedClients (t : PollTurn) (fds : Finset ℕ) : Finset ℕ :=
  fds.filter fun fd => (t.conditions fd).nonzero

def clientsWith (p : ℕ → Bool) (s : PollServer) : List (ℕ × ℕ) :=
  markedFrom fdAt (fun _ fd => p fd) s s.maxi 1

theorem mem_clientsWith (h : Sound s fds) {p : ℕ → Bool} {entry : ℕ × ℕ} :
    entry ∈ clientsWith p s ↔ 1 ≤ entry.1 ∧ s.fdAt entry.1 = some entry.2 ∧ p entry.2 := by
  rw [clientsWith, mem_markedFrom]
  constructor
  · rintro ⟨hi, hfd, hp⟩
    exact ⟨hi.1, hfd, hp⟩
  · rintro ⟨hi, hfd, hp⟩
    have hle := h.le _ _ hfd
    exact ⟨⟨hi, by omega⟩, hfd, hp⟩

theorem nodup_clientsWith (h : Sound s fds) (p : ℕ → Bool) :
    ((clientsWith p s).map Prod.snd).Nodup := by
  have hentries : (clientsWith p s).Nodup := nodup_markedFrom.of_map _
  refine List.Nodup.map_on (fun entry hentry entry' hentry' heq => ?_) hentries
  have hfd := ((mem_clientsWith h).mp hentry).2.1
  have hfd' := ((mem_clientsWith h).mp hentry').2.1
  exact Prod.ext (h.unique _ _ _ hfd (heq ▸ hfd')) heq

theorem mem_map_clientsWith (h : Sound s fds) {p : ℕ → Bool} {fd : ℕ} :
    fd ∈ (clientsWith p s).map Prod.snd ↔ fd ∈ fds.filter fun fd => p fd := by
  rw [List.mem_map, Finset.mem_filter, h.mem_iff]
  constructor
  · rintro ⟨entry, hentry, rfl⟩
    obtain ⟨hi, hfd, hp⟩ := (mem_clientsWith h).mp hentry
    exact ⟨⟨entry.1, hi, hfd⟩, hp⟩
  · rintro ⟨⟨i, hi, hfd⟩, hp⟩
    exact ⟨(i, fd), (mem_clientsWith h).mpr ⟨hi, hfd, hp⟩, rfl⟩

theorem length_clientsWith (h : Sound s fds) (p : ℕ → Bool) :
    (clientsWith p s).length = (fds.filter fun fd => p fd).card := by
  rw [← List.length_map Prod.snd, ← List.toFinset_card_of_nodup (nodup_clientsWith h p)]
  congr 1
  ext fd
  rw [List.mem_toFinset, mem_map_clientsWith h]

theorem nready_eq (h : Sound s fds) :
    (s.poll t.conditions).1 =
      (if (t.conditions s.listenfd).nonzero then 1 else 0) + (countedClients t fds).card := by
  have hlength := length_clientsWith h fun fd => (t.conditions fd).nonzero
  rw [clientsWith, length_markedFrom] at hlength
  rw [nready_poll h.events, countedClients, ← hlength, List.range_eq_range', List.range'_succ,
    List.countP_cons, h.first, Nat.add_comm]
  push_cast
  cases hlisten : (t.conditions s.listenfd).nonzero <;> simp [hlisten]

theorem marked_poll (h : Sound s fds) :
    (s.poll t.conditions).2.marked.map (fun entry => entry.2.1) =
      (clientsWith (fun fd => (t.conditions fd).ready) s).map Prod.snd := by
  rw [marked, clientsWith, markedFrom, markedFrom, List.map_filterMap, List.map_filterMap]
  refine List.filterMap_congr fun j hj => ?_
  have hle : j ≤ s.maxi := by
    have hrange := (List.mem_range'_1.mp hj).2
    change j < 1 + s.maxi at hrange
    omega
  rw [slot_poll (h.events j) hle]
  cases s.fdAt j with
  | none => rfl
  | some fd => cases hready : (t.conditions fd).ready <;> simp [Option.filter, hready]

/-- The descriptor that a turn accepts. -/
def accepted (t : PollTurn) (s : PollServer) : Option ℕ :=
  if (t.conditions s.listenfd).rdnorm then t.connfd else none

/-- A new client comes behind the entries that were polled, where the memory says that it is ready,
and the count still has a client that is not served. -/
structure Stale (s : PollServer) (fds : Finset ℕ) (t : PollTurn) : Prop where
  accepts : (t.conditions s.listenfd).rdnorm = true
  full : ∀ i, 1 ≤ i → i ≤ s.maxi → s.fdAt i ≠ none
  memory : ∃ entry, s.client[s.maxi + 1]? = some entry ∧ entry.revents.ready = true
  counted : (readyClients t fds).card < (countedClients t fds).card

variable (t fds) in
theorem readyClients_subset : readyClients t fds ⊆ countedClients t fds := by
  refine Finset.monotone_filter_right fds fun fd _ hready => ?_
  simp only [Revents.nonzero, Bool.or_eq_true]
  exact .inl hready

theorem any_rdnorm_iff (h : Sound s fds) :
    ((s.poll t.conditions).2.client[0]?.any fun entry => entry.revents.rdnorm) =
      (t.conditions s.listenfd).rdnorm := by
  have hslot : (s.poll t.conditions).2.slot 0 = some (s.listenfd, t.conditions s.listenfd) := by
    rw [slot_poll (h.events 0) (Nat.zero_le _), h.first]
    rfl
  obtain ⟨entry, hentry, -, hrevents⟩ := slot_eq_some_iff.mp hslot
  rw [hentry, Option.any_some, hrevents]

theorem marked_save_of_le (h : Sound s fds) {i : ℕ} (hle : i ≤ s.maxi)
    (hfree : s.fdAt i = none) (connfd : ℕ) :
    ((s.poll t.conditions).2.save i connfd).marked = (s.poll t.conditions).2.marked := by
  have hmaxi : ((s.poll t.conditions).2.save i connfd).maxi = s.maxi :=
    if_neg (show ¬ s.maxi < i by omega)
  rw [marked, marked, hmaxi]
  refine List.filterMap_congr fun j _ => ?_
  by_cases hj : j = i
  · subst hj
    rw [slot_poll (h.events j) hle, hfree, Option.map_none]
    cases hentry : s.client[j]? with
    | none =>
      have hlt := h.lt
      rw [List.getElem?_eq_none_iff] at hentry
      omega
    | some entry =>
      have hnone : entry.fd = none := by rwa [fdAt, hentry, Option.bind_some] at hfree
      have hpolled : (s.poll t.conditions).2.client[j]? = some (report t.conditions entry) := by
        rw [poll_getElem?, hentry, Option.map_some, if_pos hle]
      rw [slot_save_self hpolled]
      simp [report, hnone, Revents.ready, Option.filter]
  · rw [slot_save_ne hj]

theorem marked_save_succ {entry : PollFd} (hentry : s.client[s.maxi + 1]? = some entry)
    (connfd : ℕ) :
    ((s.poll t.conditions).2.save (s.maxi + 1) connfd).marked =
      (s.poll t.conditions).2.marked ++
        if entry.revents.ready then [(s.maxi + 1, connfd, entry.revents)] else [] := by
  have hmaxi : ((s.poll t.conditions).2.save (s.maxi + 1) connfd).maxi = s.maxi + 1 :=
    if_pos (Nat.lt_succ_self s.maxi)
  have hpolled : (s.poll t.conditions).2.client[s.maxi + 1]? = some entry := by
    rw [poll_getElem?, hentry, Option.map_some, if_neg (by omega)]
  rw [marked, marked, hmaxi, markedFrom_concat, Nat.add_comm 1, slot_save_self hpolled]
  congr 1
  · refine List.filterMap_congr fun j hj => ?_
    have hlt := (List.mem_range'_1.mp hj).2
    rw [slot_save_ne (by omega)]
  · cases hready : entry.revents.ready <;> simp [Option.filter, hready]

theorem turn_of_clients (h : Sound s fds) (hserves : ∀ e ∈ es, Serves t.read e.fd e)
    (hmap : es.map Event.fd = (s.poll t.conditions).2.marked.map fun entry => entry.2.1) :
    Turn (readyClients t fds) none t.read es := by
  rw [marked_poll h] at hmap
  refine turn_of_serves hserves (hmap ▸ nodup_clientsWith h _) fun fd => ?_
  rw [hmap]
  exact mem_map_clientsWith h

theorem length_marked (h : Sound s fds) :
    (s.poll t.conditions).2.marked.length = (readyClients t fds).card := by
  rw [← List.length_map fun entry : ℕ × ℕ × Revents => entry.2.1, marked_poll h, List.length_map]
  exact length_clientsWith h _

theorem free_entry (h : Sound s fds) {i : ℕ} (hi : i < s.client.length)
    (hmin : ∀ j, 1 ≤ j → j < i → s.fdAt j ≠ none) :
    i ≤ s.maxi ∨ i = s.maxi + 1 ∧ (∀ j, 1 ≤ j → j ≤ s.maxi → s.fdAt j ≠ none) ∧
      ∃ entry, s.client[s.maxi + 1]? = some entry := by
  by_cases hle : i ≤ s.maxi
  · exact .inl hle
  · have hnext : s.fdAt (s.maxi + 1) = none := by
      cases hfd : s.fdAt (s.maxi + 1) with
      | none => rfl
      | some fd =>
        have hle := h.le _ _ hfd
        omega
    obtain rfl : i = s.maxi + 1 := by
      by_contra hne
      exact hmin (s.maxi + 1) (by omega) (by omega) hnext
    exact .inr ⟨rfl, fun j hj hle => hmin j hj (by omega),
      s.client[s.maxi + 1], List.getElem?_eq_getElem hi⟩

theorem of_loop_behind {connfd : ℕ} (h : Sound s fds) (hfresh : connfd ∉ insert s.listenfd fds)
    (haccepts : (t.conditions s.listenfd).rdnorm = true) {i : ℕ} (hi : i < s.client.length)
    (hfree : s.fdAt i = none) (hmin : ∀ j, 1 ≤ j → j < i → s.fdAt j ≠ none)
    (hserves : ∀ e ∈ es, Serves t.read e.fd e)
    (hmap : es.map Event.fd = (((s.poll t.conditions).2.save i connfd).marked.take
      (countedClients t fds).card).map fun entry => entry.2.1) :
    Turn (readyClients t fds) (some connfd) t.read (.opened connfd :: es) ↔
      ¬ Stale s fds t := by
  have hcard := Finset.card_le_card (readyClients_subset fds t)
  have hlength := length_marked (t := t) h
  have hnew : connfd ∉ readyClients t fds := fun hmem =>
    hfresh (Finset.mem_insert_of_mem (Finset.mem_of_mem_filter _ hmem))
  obtain hle | ⟨rfl, hfull, entry, hentry⟩ := free_entry h hi hmin
  · rw [marked_save_of_le h hle hfree, List.take_of_length_le (by omega)] at hmap
    refine iff_of_true ((turn_of_clients h hserves hmap).cons hnew) fun hstale => ?_
    by_cases hzero : i = 0
    · rw [hzero, h.first] at hfree
      cases hfree
    · exact hstale.full i (by omega) hle hfree
  · rw [marked_save_succ hentry] at hmap
    by_cases hready : entry.revents.ready = true
    · rw [if_pos hready] at hmap
      by_cases hcounted : (readyClients t fds).card < (countedClients t fds).card
      · refine iff_of_false (fun hturn => ?_)
          (not_not.mpr ⟨haccepts, hfull, ⟨entry, hentry, hready⟩,
          hcounted⟩)
        have hnodup := hturn.nodup
        rw [List.take_of_length_le (by rw [List.length_append, List.length_singleton]; omega),
          List.map_append] at hmap
        rw [List.map_cons, hmap] at hnodup
        exact (List.nodup_cons.mp hnodup).1 (List.mem_append_right _ (List.mem_singleton_self _))
      · rw [List.take_append_of_le_length (by omega), List.take_of_length_le (by omega)] at hmap
        exact iff_of_true ((turn_of_clients h hserves hmap).cons hnew)
          fun hstale => hcounted hstale.counted
    · rw [if_neg hready, List.append_nil, List.take_of_length_le (by omega)] at hmap
      refine iff_of_true ((turn_of_clients h hserves hmap).cons hnew) fun hstale => ?_
      obtain ⟨entry', hentry', hready'⟩ := hstale.memory
      rw [hentry, Option.some.injEq] at hentry'
      exact hready (hentry' ▸ hready')

theorem turn_of_not (h : Sound s fds) (hpoll : Polls s fds t)
    (haccepts : (t.conditions s.listenfd).rdnorm = false) :
    turn t s = serveMarked t (s.poll t.conditions).1.toNat (s.poll t.conditions).2 := by
  unfold turn
  dsimp only
  rw [any_rdnorm_iff h, if_neg (by simp [haccepts]), clientLoop_eq hpoll.nready]

theorem turn_of_none (h : Sound s fds) (haccepts : (t.conditions s.listenfd).rdnorm = true)
    (hconnfd : t.connfd = none) : turn t s = ([], .error .acceptError) := by
  unfold turn
  dsimp only
  rw [any_rdnorm_iff h, if_pos haccepts, hconnfd]
  rfl

theorem turn_of_some (h : Sound s fds) (haccepts : (t.conditions s.listenfd).rdnorm = true)
    {connfd : ℕ} (hconnfd : t.connfd = some connfd) :
    turn t s = ([.opened connfd], .error .tooManyClients) ∨
      ∃ i, 1 ≤ i ∧ i < s.client.length ∧ s.fdAt i = none ∧
        (∀ j, 1 ≤ j → j < i → s.fdAt j ≠ none) ∧
        turn t s =
          (.opened connfd :: (serveMarked t (countedClients t fds).card
              ((s.poll t.conditions).2.save i connfd)).1,
            (serveMarked t (countedClients t fds).card
              ((s.poll t.conditions).2.save i connfd)).2) := by
  have hcounted : (s.poll t.conditions).1 - 1 = (countedClients t fds).card := by
    rw [nready_eq h, if_pos (by simp [Revents.nonzero, Revents.ready, haccepts])]
    omega
  have hlength : (s.poll t.conditions).2.client.length = s.client.length := by
    rw [poll, List.length_mapIdx]
  have haccept := accept_some (s := (s.poll t.conditions).2)
    (by rw [hlength]; exact Nat.zero_lt_of_lt h.lt) connfd
  simp only [fdAt_poll, hlength] at haccept
  unfold turn
  dsimp only
  rw [any_rdnorm_iff h, if_pos haccepts, hconnfd, hcounted]
  obtain hfull | ⟨i, hi, hlt, hfree, hmin, heq⟩ := haccept
  · rw [hfull]
    exact .inl rfl
  · refine .inr ⟨i, hi, hlt, hfree, hmin, ?_⟩
    rw [heq]
    dsimp only
    split_ifs with hlast
    · rw [show (countedClients t fds).card = 0 by omega]
      rfl
    · rw [clientLoop_eq (by omega), Int.toNat_natCast]
      rfl

/-- What is done in a turn is a run of the service, also if the turn ends the program.  If it does
not, the descriptors that are ready are served and no other. -/
theorem of_turn (h : Sound s fds) (hpoll : Polls s fds t) :
    ∃ fds', echo.Run fds (turn t s).1 fds' ∧ ∀ s', (turn t s).2 = .ok s' → Sound s' fds' ∧
      (Turn (readyClients t fds) (accepted t s) t.read (turn t s).1 ↔ ¬ Stale s fds t) := by
  have hcard := Finset.card_le_card (readyClients_subset fds t)
  unfold accepted
  by_cases haccepts : (t.conditions s.listenfd).rdnorm = true
  · rw [if_pos haccepts]
    cases hconnfd : t.connfd with
    | none =>
      rw [turn_of_none h haccepts hconnfd]
      exact ⟨fds, .nil fds, nofun⟩
    | some connfd =>
      have hfresh := hpoll.fresh connfd hconnfd
      have hopened : EchoStep fds (.opened connfd) (insert connfd fds) :=
        .opened fun hmem => hfresh (Finset.mem_insert_of_mem hmem)
      obtain hfull | ⟨i, hi, hlt, hfree, hmin, heq⟩ := turn_of_some h haccepts hconnfd
      · rw [hfull]
        exact ⟨_, .cons hopened (.nil _), nofun⟩
      · have hpolled : Sound (s.poll t.conditions).2 fds := h.poll
        have hsound := hpolled.save hfresh hi
          (by rwa [poll, List.length_mapIdx]) (fdAt_poll.trans hfree)
        obtain ⟨fds', hecho, hend⟩ := of_serveMarked (t := t) hsound (countedClients t fds).card
        rw [heq]
        refine ⟨fds', .cons hopened hecho, fun s' hs' => ?_⟩
        obtain ⟨hsound', hserves, hmap⟩ := hend s' hs'
        exact ⟨hsound', of_loop_behind h hfresh haccepts hlt hfree hmin hserves hmap⟩
  · rw [if_neg haccepts, turn_of_not h hpoll (by simpa using haccepts)]
    have hpolled : Sound (s.poll t.conditions).2 fds := h.poll
    obtain ⟨fds', hecho, hend⟩ := of_serveMarked (t := t) hpolled (s.poll t.conditions).1.toNat
    refine ⟨fds', hecho, fun s' hs' => ?_⟩
    obtain ⟨hsound, hserves, hmap⟩ := hend s' hs'
    have hnready := nready_eq (t := t) h
    have hlength := length_marked (t := t) h
    rw [List.take_of_length_le (by split_ifs at hnready <;> omega)] at hmap
    exact ⟨hsound, iff_of_true (turn_of_clients h hserves hmap)
      fun hstale => haccepts hstale.accepts⟩

end Turns

section Runs

variable {s : PollServer} {fds : Finset ℕ} {t : PollTurn}

theorem sound_of_reachable (h : process.Reachable (.ok s, fds)) : Sound s fds := by
  refine h.invariant (P := fun p => ∀ s, p.1 = .ok s → Sound s p.2) ?_ ?_ s rfl
  · rintro p ⟨memory, listenfd, hne, rfl⟩ s ⟨⟩
    exact sound_start listenfd hne
  · rintro p ⟨t, es⟩ ⟨r, fds'⟩ hp ⟨s, hs, hpoll, hturn, hfds⟩ s' hs'
    obtain ⟨fds'', hecho, hend⟩ := of_turn (hp s hs) hpoll
    rw [hturn] at hecho hend
    dsimp only at hfds
    rw [hfds, ← eq_foldl_of_run hecho]
    exact (hend s' hs').1

/-- As long as `main_4` runs, whatever the memory of `client` holds, what is done in a turn is a run
of the echo service.  If the turn comes to its end, it serves the clients that are ready and no
other one, each of them once, unless a stale `revents` is taken for the one of the new client. -/
theorem pollServer_turn (h : process.Reachable (.ok s, fds)) (hpoll : Polls s fds t) :
    (∃ fds', echo.Run fds (turn t s).1 fds') ∧ ∀ s', (turn t s).2 = .ok s' →
      (Turn (readyClients t fds) (accepted t s) t.read (turn t s).1 ↔ ¬ Stale s fds t) := by
  obtain ⟨fds', hecho, hend⟩ := of_turn (sound_of_reachable h) hpoll
  exact ⟨⟨fds', hecho⟩, fun s' hs' => (hend s' hs').2⟩

def readyMemory : List PollFd := List.replicate 4 ⟨none, false, ⟨true, false, false⟩⟩

def newClient : PollTurn where
  conditions fd := ⟨fd = 3, false, false⟩
  connfd := some 4
  read := fun _ => .failed false
  writes := fun _ => false

def hangup : PollTurn where
  conditions fd := ⟨fd = 3, false, fd = 4⟩
  connfd := some 5
  read := fun _ => .piece [0x68]
  writes := fun _ => true

def withNew : PollServer := ((start readyMemory 3).poll newClient.conditions).2.save 1 4

theorem pollServer_turn_hangup :
    (∃ fds', echo.Run {4} (turn hangup withNew).1 fds') ∧ ∀ s', (turn hangup withNew).2 = .ok s' →
      (Turn (readyClients hangup {4}) (accepted hangup withNew) hangup.read (turn hangup withNew).1
        ↔ ¬ Stale withNew {4} hangup) := by
  have hstep : process.step (.ok (start readyMemory 3), ∅) (newClient, [.opened 4])
      (.ok withNew, {4}) := ⟨_, rfl, ⟨by decide, by decide⟩, rfl, rfl⟩
  exact pollServer_turn (.step (.init ⟨readyMemory, 3, by decide, rfl⟩) hstep)
    ⟨by decide, by decide⟩

example : Stale withNew {4} hangup where
  accepts := rfl
  full i hi hle := by
    obtain rfl : i = 1 := Nat.le_antisymm hle hi
    nofun
  memory := ⟨_, rfl, rfl⟩
  counted := by decide

/-- There the server reads from the new client, which `poll` has not reported. -/
example : (turn hangup withNew).1 = [.opened 5, .echoed 5 [0x68] [0x68, 0x0A]] := rfl

end Runs

end Mbtk.TcpServer.PollServer
