import Mbtk.TcpServer.SelectServer

namespace Mbtk.TcpServer.SelectServer

open Lib Sock

/-- What the kernel gives to a turn, where `fds` are the open connections. -/
structure Selects (s : SelectServer) (fds : Finset ℕ) (t : SelectTurn) : Prop where
  nonempty : t.rset.Nonempty
  subset : t.rset ⊆ s.allset
  le : ∀ fd ∈ t.rset, fd ≤ s.maxfd
  fresh : ∀ connfd ∈ t.connfd, connfd ∉ insert s.listenfd fds

/-- The process of `main_3`, as long as it runs, with the connections that are open. -/
def process (fdSetSize : ℕ) :
    System (Except Fault SelectServer × Finset ℕ) (SelectTurn × List Event) where
  init p := ∃ listenfd < fdSetSize, p = (.ok (start fdSetSize listenfd), ∅)
  step p label p' := ∃ s, p.1 = .ok s ∧ Selects s p.2 label.1 ∧
    turn fdSetSize label.1 s = (label.2, p'.1) ∧ p'.2 = label.2.foldl Event.apply p.2

/-- The tables agree with each other and with the connections. -/
structure Sound (fdSetSize : ℕ) (s : SelectServer) (fds : Finset ℕ) : Prop where
  length : s.client.length = fdSetSize
  mem_iff : ∀ fd, fd ∈ fds ↔ ∃ i, s.slot i = some fd
  unique : ∀ i j fd, s.slot i = some fd → s.slot j = some fd → i = j
  allset : s.allset = insert s.listenfd fds
  listenfd : s.listenfd ∉ fds
  maxi : ∀ i fd, s.slot i = some fd → (i : ℤ) ≤ s.maxi
  maxfd : ∀ fd ∈ s.allset, fd ≤ s.maxfd
  lt : ∀ fd ∈ s.allset, fd < fdSetSize

section Slots

variable {s : SelectServer} {i j fd : ℕ}

theorem slot_eq_some_iff : s.slot i = some fd ↔ s.client[i]? = some (some fd) := by
  rw [slot, Option.join_eq_some_iff]

theorem slot_drop_ne (h : j ≠ i) : (s.drop i fd).slot j = s.slot j := by
  rw [slot, slot, drop, List.getElem?_set_ne h.symm]

theorem lt_of_slot (h : s.slot i = some fd) : i < s.client.length := by
  rw [slot_eq_some_iff] at h
  exact (List.getElem?_eq_some_iff.mp h).1

end Slots

section Steps

variable {fdSetSize : ℕ} {s s' : SelectServer} {fds : Finset ℕ} {t : SelectTurn} {i fd : ℕ}
  {e : Event}

theorem sound_start {listenfd : ℕ} (h : listenfd < fdSetSize) :
    Sound fdSetSize (start fdSetSize listenfd) ∅ := by
  have hslot (i : ℕ) (fd : ℕ) : (start fdSetSize listenfd).slot i ≠ some fd := by
    rw [Ne, slot_eq_some_iff, start, List.getElem?_replicate]
    split_ifs <;> simp
  exact {
    length := List.length_replicate
    mem_iff := fun fd => iff_of_false (Finset.notMem_empty fd) fun ⟨i, hi⟩ => hslot i fd hi
    unique := fun i _ fd hi => absurd hi (hslot i fd)
    allset := rfl
    listenfd := Finset.notMem_empty _
    maxi := fun i fd hi => absurd hi (hslot i fd)
    maxfd := fun fd hfd => (Finset.mem_singleton.mp hfd).le
    lt := fun fd hfd => (Finset.mem_singleton.mp hfd) ▸ h }

theorem slot_drop_iff {j fd' : ℕ} (hslot : s.slot i = some fd) :
    (s.drop i fd).slot j = some fd' ↔ j ≠ i ∧ s.slot j = some fd' := by
  by_cases hj : j = i
  · subst hj
    rw [slot, SelectServer.drop, List.getElem?_set_self (lt_of_slot hslot)]
    simp
  · rw [and_iff_right hj, slot_drop_ne hj]

theorem Sound.drop (h : Sound fdSetSize s fds) (hslot : s.slot i = some fd) :
    Sound fdSetSize (s.drop i fd) (fds.erase fd) := by
  have hset (j fd' : ℕ) : (s.drop i fd).slot j = some fd' ↔ j ≠ i ∧ s.slot j = some fd' :=
    slot_drop_iff hslot
  have hne : s.listenfd ≠ fd := fun heq => h.listenfd (heq ▸ (h.mem_iff fd).mpr ⟨i, hslot⟩)
  exact {
    length := (List.length_set ..).trans h.length
    mem_iff := by
      intro fd'
      simp only [hset, Finset.mem_erase, h.mem_iff]
      constructor
      · rintro ⟨hfd, j, hj⟩
        exact ⟨j, fun heq => hfd (Option.some.inj ((heq ▸ hj).symm.trans hslot)), hj⟩
      · rintro ⟨j, hji, hj⟩
        exact ⟨fun heq => hji (h.unique j i fd (heq ▸ hj) hslot), j, hj⟩
    unique := fun j k fd' hj hk => h.unique j k fd' ((hset j fd').mp hj).2 ((hset k fd').mp hk).2
    allset := by rw [SelectServer.drop, h.allset, Finset.erase_insert_of_ne hne]
    listenfd := fun hmem => h.listenfd (Finset.mem_of_mem_erase hmem)
    maxi := fun j fd' hj => h.maxi j fd' ((hset j fd').mp hj).2
    maxfd := fun fd' hfd' => h.maxfd fd' (Finset.mem_of_mem_erase hfd')
    lt := fun fd' hfd' => h.lt fd' (Finset.mem_of_mem_erase hfd') }

theorem slot_save_iff {connfd j fd' : ℕ} (hlt : i < s.client.length) (hfree : s.slot i = none) :
    (s.save i connfd).slot j = some fd' ↔ j = i ∧ fd' = connfd ∨ s.slot j = some fd' := by
  by_cases hj : j = i
  · subst hj
    rw [slot, SelectServer.save, List.getElem?_set_self hlt, hfree]
    simp [eq_comm]
  · rw [slot, SelectServer.save, List.getElem?_set_ne (Ne.symm hj), ← slot]
    simp [hj]

theorem Sound.save {connfd : ℕ} (h : Sound fdSetSize s fds)
    (hfresh : connfd ∉ insert s.listenfd fds) (hrange : connfd < fdSetSize)
    (hlt : i < s.client.length) (hfree : s.slot i = none) :
    Sound fdSetSize (s.save i connfd) (insert connfd fds) := by
  have hset (j fd' : ℕ) :
      (s.save i connfd).slot j = some fd' ↔ j = i ∧ fd' = connfd ∨ s.slot j = some fd' :=
    slot_save_iff hlt hfree
  rw [Finset.mem_insert, not_or] at hfresh
  exact {
    length := (List.length_set ..).trans h.length
    mem_iff := by
      intro fd'
      simp only [hset, Finset.mem_insert, h.mem_iff]
      constructor
      · rintro (rfl | ⟨j, hj⟩)
        · exact ⟨i, .inl ⟨rfl, rfl⟩⟩
        · exact ⟨j, .inr hj⟩
      · rintro ⟨j, ⟨-, rfl⟩ | hj⟩
        · exact .inl rfl
        · exact .inr ⟨j, hj⟩
    unique := by
      intro j k fd' hj hk
      have hused {j : ℕ} (hj : s.slot j = some connfd) : False :=
        hfresh.2 ((h.mem_iff connfd).mpr ⟨j, hj⟩)
      obtain ⟨rfl, rfl⟩ | hold := (hset j fd').mp hj
      · obtain ⟨rfl, -⟩ | hold := (hset k fd').mp hk
        · rfl
        · exact (hused hold).elim
      · obtain ⟨rfl, rfl⟩ | hold' := (hset k fd').mp hk
        · exact (hused hold).elim
        · exact h.unique j k fd' hold hold'
    allset := by
      dsimp only [SelectServer.save]
      rw [h.allset, Finset.insert_comm]
    listenfd := by
      rw [Finset.mem_insert, not_or]
      exact ⟨Ne.symm hfresh.1, h.listenfd⟩
    maxi := by
      intro j fd' hj
      dsimp only [SelectServer.save]
      obtain ⟨rfl, -⟩ | hj := (hset j fd').mp hj
      · split_ifs <;> omega
      · have hle := h.maxi j fd' hj
        split_ifs <;> omega
    maxfd := by
      intro fd' hfd'
      dsimp only [SelectServer.save]
      obtain rfl | hfd' := Finset.mem_insert.mp hfd'
      · split_ifs <;> omega
      · have hle := h.maxfd fd' hfd'
        split_ifs <;> omega
    lt := by
      intro fd' hfd'
      obtain rfl | hfd' := Finset.mem_insert.mp hfd'
      · exact hrange
      · exact h.lt fd' hfd' }

/-- The listening descriptor has a number below `FD_SETSIZE` too, so that a slot is always free. -/
theorem exists_free (h : Sound fdSetSize s fds) : ∃ i < s.client.length, s.slot i = none := by
  by_contra hfull
  push Not at hfull
  have hslot (i : Fin fdSetSize) : ∃ fd : Fin fdSetSize, s.slot i = some fd.val := by
    obtain ⟨fd, hfd⟩ := Option.ne_none_iff_exists'.mp (hfull i (h.length ▸ i.isLt))
    have hmem : fd ∈ s.allset := by
      rw [h.allset]
      exact Finset.mem_insert_of_mem ((h.mem_iff fd).mpr ⟨i, hfd⟩)
    exact ⟨⟨fd, h.lt fd hmem⟩, hfd⟩
  choose f hf using hslot
  have hinj : Function.Injective f := fun i j heq =>
    Fin.ext (h.unique i j (f i) (hf i) (heq ▸ hf j))
  have hlisten : s.listenfd < fdSetSize :=
    h.lt _ (h.allset ▸ Finset.mem_insert_self _ _)
  obtain ⟨i, hi⟩ := (Finite.injective_iff_surjective.mp hinj) ⟨s.listenfd, hlisten⟩
  have hi := hi ▸ hf i
  exact h.listenfd ((h.mem_iff _).mpr ⟨i, hi⟩)

theorem free_findIdx (h : Sound fdSetSize s fds) :
    s.client.findIdx Option.isNone < s.client.length ∧
      s.slot (s.client.findIdx Option.isNone) = none := by
  obtain ⟨i, hi, hfree⟩ := exists_free h
  have hlt : s.client.findIdx Option.isNone < s.client.length := by
    refine List.findIdx_lt_length_of_exists ⟨s.client[i], List.getElem_mem hi, ?_⟩
    rw [slot, List.getElem?_eq_getElem hi, Option.join_some] at hfree
    rw [hfree]
    rfl
  have hnone := List.findIdx_getElem (w := hlt)
  rw [Option.isNone_iff_eq_none] at hnone
  refine ⟨hlt, ?_⟩
  rw [slot, List.getElem?_eq_getElem hlt, hnone, Option.join_some]

def saved (connfd : ℕ) (s : SelectServer) : SelectServer :=
  s.save (s.client.findIdx Option.isNone) connfd

theorem Sound.saved {connfd : ℕ} (h : Sound fdSetSize s fds)
    (hfresh : connfd ∉ insert s.listenfd fds) (hrange : connfd < fdSetSize) :
    Sound fdSetSize (s.saved connfd) (insert connfd fds) :=
  h.save hfresh hrange (free_findIdx h).1 (free_findIdx h).2

theorem accept_some (h : Sound fdSetSize s fds) (connfd : ℕ) :
    s.accept fdSetSize (some connfd) = ([.opened connfd],
      if connfd < fdSetSize then .ok (s.saved connfd) else .error .fdOutOfRange) := by
  rw [accept]
  rw [if_neg (free_findIdx h).1.ne]
  simp only [← not_lt, ite_not, saved]

structure Pending (fdSetSize listenfd : ℕ) (todo : List (ℕ × ℕ)) (s : SelectServer)
    (fds : Finset ℕ) : Prop where
  sound : Sound fdSetSize s fds
  listenfd : s.listenfd = listenfd
  nodup : (todo.map Prod.fst).Nodup
  slots : ∀ entry ∈ todo, s.slot entry.1 = some entry.2

theorem serve_eq_ok (h : serve t i fd s = .ok (s', e)) :
    (t.read fd = .piece [] ∧ s' = s.drop i fd ∧ e = .closed fd) ∨
      ∃ data, data ≠ [] ∧ t.read fd = .piece data ∧ s' = s ∧
        e = .echoed fd data (data ++ [0x0A]) := by
  unfold serve at h
  cases hread : t.read fd with
  | failed reset => simp [hread] at h
  | piece data =>
    cases data with
    | nil =>
      simp only [hread, Except.ok.injEq, Prod.mk.injEq] at h
      exact .inl ⟨rfl, h.1.symm, h.2.symm⟩
    | cons c data =>
      simp only [hread, reply] at h
      split_ifs at h <;> simp only [Except.map, Except.ok.injEq, Prod.mk.injEq, reduceCtorEq] at h
      exact .inr ⟨c :: data, List.cons_ne_nil c data, rfl, h.1.symm, h.2.symm⟩

theorem frame_serve (i fd : ℕ) (s s' : SelectServer) (e : Event)
    (h : serve t i fd s = .ok (s', e)) (j : ℕ) (hj : j ≠ i) : s'.slot j = s.slot j := by
  obtain ⟨-, rfl, -⟩ | ⟨data, -, -, rfl, -⟩ := serve_eq_ok h
  · exact slot_drop_ne hj
  · rfl

theorem Pending.serve {listenfd : ℕ} {todo : List (ℕ × ℕ)}
    (h : Pending fdSetSize listenfd ((i, fd) :: todo) s fds)
    (hrun : serve t i fd s = .ok (s', e)) :
    ∃ fds', EchoStep fds e fds' ∧ Pending fdSetSize listenfd todo s' fds' ∧
      Serves t.read fd e := by
  have hslot := h.slots (i, fd) List.mem_cons_self
  have hmem := (h.sound.mem_iff fd).mpr ⟨i, hslot⟩
  obtain ⟨hnotMem, hnodup⟩ := List.nodup_cons.mp h.nodup
  have hslots : ∀ entry ∈ todo, s'.slot entry.1 = some entry.2 := by
    intro entry hentry
    rw [frame_serve i fd s s' e hrun entry.1 fun heq =>
      hnotMem (List.mem_map.mpr ⟨entry, hentry, heq⟩)]
    exact h.slots entry (List.mem_cons_of_mem _ hentry)
  obtain ⟨hread, rfl, rfl⟩ | ⟨data, hne, hread, rfl, rfl⟩ := serve_eq_ok hrun
  · exact ⟨_, .closed hmem, ⟨h.sound.drop hslot, h.listenfd, hnodup, hslots⟩,
      .inl ⟨rfl, fun data hdata => ReadAnswer.piece.inj (hdata.symm.trans hread)⟩⟩
  · exact ⟨_, .echoed hmem hne, ⟨h.sound, h.listenfd, hnodup, hslots⟩,
      .inr ⟨data, _, rfl, hread⟩⟩

end Steps

section Turns

variable {fdSetSize : ℕ} {s s' : SelectServer} {fds : Finset ℕ} {t : SelectTurn} {es : List Event}

/-- The clients that are ready, in the order of their slots. -/
def readyClients (t : SelectTurn) (s : SelectServer) : List (ℕ × ℕ) :=
  markedFrom slot (fun _ sockfd => sockfd ∈ t.rset) s (s.maxi + 1).toNat 0

theorem mem_readyClients (h : Sound fdSetSize s fds) {entry : ℕ × ℕ} :
    entry ∈ readyClients t s ↔ s.slot entry.1 = some entry.2 ∧ entry.2 ∈ t.rset := by
  rw [readyClients, mem_markedFrom, decide_eq_true_eq]
  refine and_iff_right_of_imp fun hand => ⟨Nat.zero_le _, ?_⟩
  have hle := h.maxi _ _ hand.1
  omega

theorem mem_map_readyClients (h : Sound fdSetSize s fds) (hsub : t.rset ⊆ insert s.listenfd fds)
    (fd : ℕ) : fd ∈ (readyClients t s).map Prod.snd ↔ fd ∈ t.rset.erase s.listenfd := by
  rw [List.mem_map, Finset.mem_erase]
  constructor
  · rintro ⟨entry, hentry, rfl⟩
    obtain ⟨hslot, hready⟩ := (mem_readyClients h).mp hentry
    have hmem := (h.mem_iff entry.2).mpr ⟨entry.1, hslot⟩
    exact ⟨fun heq => h.listenfd (heq ▸ hmem), hready⟩
  · rintro ⟨hne, hready⟩
    have hmem := Finset.mem_of_mem_insert_of_ne (hsub hready) hne
    obtain ⟨i, hi⟩ := (h.mem_iff fd).mp hmem
    exact ⟨(i, fd), (mem_readyClients h).mpr ⟨hi, hready⟩, rfl⟩

theorem nodup_readyClients (h : Sound fdSetSize s fds) :
    ((readyClients t s).map Prod.snd).Nodup := by
  have hslots : (readyClients t s).Nodup := nodup_markedFrom.of_map _
  refine List.Nodup.map_on (fun entry hentry entry' hentry' heq => ?_) hslots
  have hslot := ((mem_readyClients h).mp hentry).1
  have hslot' := ((mem_readyClients h).mp hentry').1
  exact Prod.ext (h.unique _ _ _ hslot (heq ▸ hslot')) heq

theorem length_readyClients (h : Sound fdSetSize s fds)
    (hsub : t.rset ⊆ insert s.listenfd fds) :
    (readyClients t s).length = (t.rset.erase s.listenfd).card := by
  rw [← List.length_map Prod.snd, ← List.toFinset_card_of_nodup (nodup_readyClients h)]
  congr 1
  ext fd
  rw [List.mem_toFinset, mem_map_readyClients h hsub]

theorem clientLoop_eq (h : Sound fdSetSize s fds) (hsub : t.rset ⊆ insert s.listenfd fds)
    {nready : ℤ} (hpos : 0 < nready) (hle : (t.rset.erase s.listenfd).card ≤ nready) :
    s.clientLoop t nready = serveAll (serve t) (readyClients t s) s := by
  have hlength := length_readyClients h hsub
  rw [clientLoop, serveLoop_eq (fun i a s s' b => frame_serve i a s s' b) hpos,
    ← readyClients, List.take_of_length_le (by omega)]

theorem pending_readyClients (h : Sound fdSetSize s fds) :
    Pending fdSetSize s.listenfd (readyClients t s) s fds :=
  ⟨h, rfl, nodup_markedFrom, fun _ hentry => ((mem_readyClients h).mp hentry).1⟩

theorem of_serveAll (h : Sound fdSetSize s fds) (hsub : t.rset ⊆ insert s.listenfd fds) :
    ∃ fds', echo.Run fds (serveAll (serve t) (readyClients t s) s).1 fds' ∧
      ∀ s', (serveAll (serve t) (readyClients t s) s).2 = .ok s' → Sound fdSetSize s' fds' ∧
        Turn (t.rset.erase s.listenfd) none t.read
          (serveAll (serve t) (readyClients t s) s).1 := by
  obtain ⟨fds', hecho, hend⟩ := run_of_serveAll (M := echo)
    (P := Pending fdSetSize s.listenfd) (Q := Serves t.read)
    (fun i a todo s u s' b hP hserve => hP.serve hserve) (pending_readyClients h)
  refine ⟨fds', hecho, fun s' hs' => ?_⟩
  obtain ⟨hpending, hall⟩ := hend s' hs'
  obtain ⟨hmap, hserves⟩ := of_serves hall
  refine ⟨hpending.sound, turn_of_serves hserves ?_ fun fd => ?_⟩
  · rw [hmap]
    exact nodup_readyClients h
  · rw [hmap]
    exact mem_map_readyClients h hsub fd

/-- The descriptor that a turn accepts. -/
def accepted (t : SelectTurn) (s : SelectServer) : Option ℕ :=
  if s.listenfd ∈ t.rset then t.connfd else none

theorem turn_of_notMem (h : Sound fdSetSize s fds) (hsel : Selects s fds t)
    (hlisten : s.listenfd ∉ t.rset) :
    turn fdSetSize t s = serveAll (serve t) (readyClients t s) s := by
  have hcard := hsel.nonempty.card_pos
  unfold turn
  dsimp only
  rw [if_neg hlisten, clientLoop_eq h (h.allset ▸ hsel.subset) (by omega)
    (by rw [Finset.erase_eq_of_notMem hlisten])]

theorem turn_of_none (hlisten : s.listenfd ∈ t.rset) (hconnfd : t.connfd = none) :
    turn fdSetSize t s = ([], .error .acceptError) := by
  unfold turn
  dsimp only
  rw [if_pos hlisten, hconnfd]
  rfl

theorem turn_of_le {connfd : ℕ} (h : Sound fdSetSize s fds) (hlisten : s.listenfd ∈ t.rset)
    (hconnfd : t.connfd = some connfd) (hrange : fdSetSize ≤ connfd) :
    turn fdSetSize t s = ([.opened connfd], .error .fdOutOfRange) := by
  unfold turn
  dsimp only
  rw [if_pos hlisten, hconnfd, accept_some h, if_neg (not_lt.mpr hrange)]

theorem subset_saved (h : Sound fdSetSize s fds) (hsel : Selects s fds t) (connfd : ℕ) :
    t.rset ⊆ insert (s.saved connfd).listenfd (insert connfd fds) :=
  (h.allset ▸ hsel.subset).trans (Finset.insert_subset_insert _ (Finset.subset_insert _ _))

theorem turn_of_lt {connfd : ℕ} (h : Sound fdSetSize s fds) (hsel : Selects s fds t)
    (hlisten : s.listenfd ∈ t.rset) (hconnfd : t.connfd = some connfd)
    (hrange : connfd < fdSetSize) :
    turn fdSetSize t s =
      (.opened connfd ::
          (serveAll (serve t) (readyClients t (s.saved connfd)) (s.saved connfd)).1,
        (serveAll (serve t) (readyClients t (s.saved connfd)) (s.saved connfd)).2) := by
  have hsound := h.saved (hsel.fresh connfd hconnfd) hrange
  have hsub := subset_saved h hsel connfd
  have herase : (t.rset.erase (s.saved connfd).listenfd).card = t.rset.card - 1 :=
    Finset.card_erase_of_mem hlisten
  have hpos := hsel.nonempty.card_pos
  unfold turn
  dsimp only
  rw [if_pos hlisten, hconnfd, accept_some h, if_pos hrange]
  dsimp only
  split_ifs with hlast
  · have hnil : readyClients t (s.saved connfd) = [] := by
      rw [← List.length_eq_zero_iff, length_readyClients hsound hsub]
      omega
    rw [hnil, serveAll]
  · rw [clientLoop_eq hsound hsub (by omega) (by omega)]
    rfl

/-- What is done in a turn is a run of the service, also if the turn ends the program.  If it does
not, every descriptor that is ready is served once. -/
theorem of_turn (h : Sound fdSetSize s fds) (hsel : Selects s fds t) :
    ∃ fds', echo.Run fds (turn fdSetSize t s).1 fds' ∧ ∀ s', (turn fdSetSize t s).2 = .ok s' →
      Sound fdSetSize s' fds' ∧
        Turn (t.rset.erase s.listenfd) (accepted t s) t.read (turn fdSetSize t s).1 := by
  have hsub : t.rset ⊆ insert s.listenfd fds := h.allset ▸ hsel.subset
  unfold accepted
  by_cases hlisten : s.listenfd ∈ t.rset
  · rw [if_pos hlisten]
    cases hconnfd : t.connfd with
    | none =>
      rw [turn_of_none hlisten hconnfd]
      exact ⟨fds, .nil fds, nofun⟩
    | some connfd =>
      have hfresh := hsel.fresh connfd hconnfd
      have hopened : EchoStep fds (.opened connfd) (insert connfd fds) :=
        .opened fun hmem => hfresh (Finset.mem_insert_of_mem hmem)
      by_cases hrange : connfd < fdSetSize
      · rw [turn_of_lt h hsel hlisten hconnfd hrange]
        obtain ⟨fds', hecho, hend⟩ :=
          of_serveAll (h.saved hfresh hrange) (subset_saved h hsel connfd)
        refine ⟨fds', .cons hopened hecho, fun s' hs' => ?_⟩
        obtain ⟨hsound, hturn⟩ := hend s' hs'
        exact ⟨hsound, hturn.cons fun hready => hfresh (hsub (Finset.mem_of_mem_erase hready))⟩
      · rw [turn_of_le h hlisten hconnfd (not_lt.mp hrange)]
        exact ⟨insert connfd fds, .cons hopened (.nil _), nofun⟩
  · rw [if_neg hlisten, turn_of_notMem h hsel hlisten]
    exact of_serveAll h hsub

/-- A client is answered unless its piece is too long for `buf`, or `read` or `Writen` fails. -/
def Answered (t : SelectTurn) (fd : ℕ) : Prop :=
  ∃ data, t.read fd = .piece data ∧ (data ≠ [] → data.length + 2 ≤ MAXLINE ∧ t.writes fd)

theorem exists_serve_iff {i fd : ℕ} :
    (∃ s' e, serve t i fd s = .ok (s', e)) ↔ Answered t fd := by
  unfold serve Answered
  cases hread : t.read fd with
  | failed reset => simp
  | piece data =>
    cases data with
    | nil => simp
    | cons c data =>
      simp only [reply]
      by_cases hlong : MAXLINE < (c :: data).length + 2
      · rw [if_pos hlong]
        simp only [Except.map, reduceCtorEq, exists_false, false_iff]
        rintro ⟨data', heq, hdata⟩
        cases heq
        have hle := (hdata (List.cons_ne_nil c data)).1
        omega
      · rw [if_neg hlong]
        cases t.writes fd with
        | false => simp [Except.map]
        | true => simpa [Except.map] using hlong

theorem exists_serveAll_ok_iff (h : Sound fdSetSize s fds)
    (hsub : t.rset ⊆ insert s.listenfd fds) :
    (∃ s', (serveAll (serve t) (readyClients t s) s).2 = .ok s') ↔
      ∀ fd ∈ t.rset.erase s.listenfd, Answered t fd := by
  refine (exists_serveAll_iff (G := Answered t) fun i fd s => exists_serve_iff).trans
    ⟨fun hall fd hfd => ?_, fun hall entry hentry => ?_⟩
  · obtain ⟨entry, hentry, rfl⟩ := List.mem_map.mp ((mem_map_readyClients h hsub fd).mpr hfd)
    exact hall entry hentry
  · exact hall _ ((mem_map_readyClients h hsub _).mp (List.mem_map_of_mem hentry))

theorem exists_turn_iff (h : Sound fdSetSize s fds) (hsel : Selects s fds t) :
    (∃ s', (turn fdSetSize t s).2 = .ok s') ↔
      (s.listenfd ∈ t.rset → ∃ connfd ∈ t.connfd, connfd < fdSetSize) ∧
        ∀ fd ∈ t.rset.erase s.listenfd, Answered t fd := by
  by_cases hlisten : s.listenfd ∈ t.rset
  · rw [forall_prop_of_true hlisten]
    cases hconnfd : t.connfd with
    | none =>
      rw [turn_of_none hlisten hconnfd]
      exact iff_of_false nofun fun hand => nomatch hand.1
    | some connfd =>
      have hsome : (∃ fd ∈ some connfd, fd < fdSetSize) ↔ connfd < fdSetSize := by simp
      rw [hsome]
      by_cases hrange : connfd < fdSetSize
      · rw [turn_of_lt h hsel hlisten hconnfd hrange, and_iff_right hrange]
        exact exists_serveAll_ok_iff (h.saved (hsel.fresh connfd hconnfd) hrange)
          (subset_saved h hsel connfd)
      · rw [turn_of_le h hlisten hconnfd (not_lt.mp hrange)]
        exact iff_of_false nofun fun hand => hrange hand.1
  · rw [turn_of_notMem h hsel hlisten, exists_serveAll_ok_iff h (h.allset ▸ hsel.subset)]
    exact (and_iff_right fun hmem => absurd hmem hlisten).symm

theorem serve_ne_tooManyClients (i fd : ℕ) (s : SelectServer) :
    serve t i fd s ≠ .error .tooManyClients := by
  unfold serve
  cases t.read fd with
  | failed reset => simp
  | piece data =>
    cases data with
    | nil => simp
    | cons c data =>
      simp only [reply]
      split_ifs <;> simp [Except.map]

theorem turn_ne_tooManyClients (h : Sound fdSetSize s fds) (hsel : Selects s fds t) :
    (turn fdSetSize t s).2 ≠ .error .tooManyClients := by
  have hserved (todo : List (ℕ × ℕ)) (u : SelectServer) :
      (serveAll (serve t) todo u).2 ≠ .error .tooManyClients := by
    intro herror
    obtain ⟨entry, -, v, hv⟩ := exists_error_of_serveAll herror
    exact serve_ne_tooManyClients _ _ _ hv
  by_cases hlisten : s.listenfd ∈ t.rset
  · cases hconnfd : t.connfd with
    | none =>
      rw [turn_of_none hlisten hconnfd]
      nofun
    | some connfd =>
      by_cases hrange : connfd < fdSetSize
      · rw [turn_of_lt h hsel hlisten hconnfd hrange]
        exact hserved _ _
      · rw [turn_of_le h hlisten hconnfd (not_lt.mp hrange)]
        nofun
  · rw [turn_of_notMem h hsel hlisten]
    exact hserved _ _

end Turns

section Runs

variable {fdSetSize : ℕ} {s : SelectServer} {fds : Finset ℕ} {t : SelectTurn}

/-- The connections of a process, and its tables as long as it runs. -/
def Serving (fdSetSize : ℕ) (p : Except Fault SelectServer × Finset ℕ) : Prop :=
  ∀ s, p.1 = .ok s → Sound fdSetSize s p.2

theorem Serving.step {p p' : Except Fault SelectServer × Finset ℕ} {label : SelectTurn × List Event}
    (h : Serving fdSetSize p) (hstep : (process fdSetSize).step p label p') :
    echo.Run p.2 label.2 p'.2 ∧ Serving fdSetSize p' := by
  obtain ⟨s, hs, hsel, hturn, hfds⟩ := hstep
  obtain ⟨fds', hecho, hend⟩ := of_turn (h s hs) hsel
  rw [hturn] at hecho hend
  rw [← eq_foldl_of_run hecho] at hfds
  subst hfds
  exact ⟨hecho, fun s' hs' => (hend s' hs').1⟩

theorem serving_start {listenfd : ℕ} (h : listenfd < fdSetSize) :
    Serving fdSetSize (.ok (start fdSetSize listenfd), ∅) := by
  rintro s ⟨⟩
  exact sound_start h

theorem sound_of_reachable (h : (process fdSetSize).Reachable (.ok s, fds)) :
    Sound fdSetSize s fds := by
  refine h.invariant (P := Serving fdSetSize) ?_ (fun p label p' hp hstep => (hp.step hstep).2) s
    rfl
  rintro p ⟨listenfd, hlt, rfl⟩
  exact serving_start hlt

/-- As long as `main_3` runs, a turn comes to its end exactly if `Accept`, where it is called,
returns a descriptor that fits into an `fd_set` and every client that is ready can be answered.
Then there is one event for each of these descriptors, and none for another one. -/
theorem selectServer_turn (h : (process fdSetSize).Reachable (.ok s, fds))
    (hsel : Selects s fds t) :
    ((∃ s', (turn fdSetSize t s).2 = .ok s') ↔
      (s.listenfd ∈ t.rset → ∃ connfd ∈ t.connfd, connfd < fdSetSize) ∧
        ∀ fd ∈ t.rset.erase s.listenfd, Answered t fd) ∧
    ∀ s', (turn fdSetSize t s).2 = .ok s' →
      Turn (t.rset.erase s.listenfd) (accepted t s) t.read (turn fdSetSize t s).1 := by
  have hsound := sound_of_reachable h
  refine ⟨exists_turn_iff hsound hsel, fun s' hs' => ?_⟩
  obtain ⟨fds', -, hend⟩ := of_turn hsound hsel
  exact (hend s' hs').2

theorem echo_run_of_run {p p' : Except Fault SelectServer × Finset ℕ}
    {labels : List (SelectTurn × List Event)}
    (h : (process fdSetSize).Run p labels p') (hp : Serving fdSetSize p) :
    echo.Run p.2 (labels.flatMap Prod.snd) p'.2 ∧ Serving fdSetSize p' := by
  induction h with
  | nil p => exact ⟨.nil _, hp⟩
  | cons hstep _ ih =>
    obtain ⟨hecho, hnext⟩ := hp.step hstep
    obtain ⟨hrest, hlast⟩ := ih hnext
    exact ⟨hecho.append hrest, hlast⟩

/-- The events of a run of `main_3`, with those of the turn that ends it, are a run of the echo
service, and its clients are the connections of the service. -/
theorem echo_run_of_selectServer {listenfd : ℕ} (hlisten : listenfd < fdSetSize)
    {labels : List (SelectTurn × List Event)} {p : Except Fault SelectServer × Finset ℕ}
    (h : (process fdSetSize).Run (.ok (start fdSetSize listenfd), ∅) labels p) :
    echo.Run ∅ (labels.flatMap Prod.snd) p.2 ∧ ∀ s, p.1 = .ok s →
      s.allset = insert s.listenfd p.2 ∧
      ∀ fd, fd ∈ p.2 ↔ ∃ i : ℕ, (i : ℤ) ≤ s.maxi ∧ s.slot i = some fd := by
  obtain ⟨hrun, hserving⟩ := echo_run_of_run h (serving_start hlisten)
  refine ⟨hrun, fun s hs => ⟨(hserving s hs).allset, fun fd => ?_⟩⟩
  rw [(hserving s hs).mem_iff]
  exact exists_congr fun i => (and_iff_right_of_imp fun hi => (hserving s hs).maxi i fd hi).symm

/-- In no run of `main_3` there are too many clients: a slot is free whenever one is accepted. -/
theorem selectServer_ne_tooManyClients (h : (process fdSetSize).Reachable (.ok s, fds))
    (hsel : Selects s fds t) : (turn fdSetSize t s).2 ≠ .error .tooManyClients :=
  turn_ne_tooManyClients (sound_of_reachable h) hsel

end Runs

section Samples

def firstClient : SelectTurn where
  rset := {3}
  connfd := some 4
  read := fun _ => .failed false
  writes := fun _ => false

def secondClient : SelectTurn where
  rset := {3, 4}
  connfd := some 5
  read := fun _ => .piece [0x68, 0x69]
  writes := fun _ => true

def firstEnded : SelectTurn where
  rset := {4}
  connfd := none
  read := fun _ => .piece []
  writes := fun _ => false

def secondFails : SelectTurn where
  rset := {3, 5}
  connfd := some 4
  read := fun _ => .failed true
  writes := fun _ => false

def withFirst : SelectServer := (start 8 3).saved 4

def withBoth : SelectServer := withFirst.saved 5

def withSecond : SelectServer := withBoth.drop 0 4

theorem step_firstClient : (process 8).step (.ok (start 8 3), ∅) (firstClient, [.opened 4])
    (.ok withFirst, {4}) :=
  ⟨_, rfl, ⟨by decide, by decide, by decide, by decide⟩, rfl, rfl⟩

theorem step_secondClient : (process 8).step (.ok withFirst, {4})
    (secondClient, [.opened 5, .echoed 4 [0x68, 0x69] [0x68, 0x69, 0x0A]])
    (.ok withBoth, {5, 4}) :=
  ⟨_, rfl, ⟨by decide, by decide, by decide, by decide⟩, rfl, rfl⟩

theorem step_firstEnded : (process 8).step (.ok withBoth, {5, 4}) (firstEnded, [.closed 4])
    (.ok withSecond, {5}) :=
  ⟨_, rfl, ⟨by decide, by decide, by decide, by decide⟩, rfl, rfl⟩

theorem step_secondFails : (process 8).step (.ok withSecond, {5}) (secondFails, [.opened 4])
    (.error .readError, {4, 5}) :=
  ⟨_, rfl, ⟨by decide, by decide, by decide, by decide⟩, rfl, rfl⟩

theorem selectServer_turn_secondClient :
    ((∃ s', (turn 8 secondClient withFirst).2 = .ok s') ↔
      (3 ∈ secondClient.rset → ∃ connfd ∈ secondClient.connfd, connfd < 8) ∧
        ∀ fd ∈ secondClient.rset.erase 3, Answered secondClient fd) ∧
    ∀ s', (turn 8 secondClient withFirst).2 = .ok s' →
      Turn (secondClient.rset.erase 3) (accepted secondClient withFirst) secondClient.read
        (turn 8 secondClient withFirst).1 :=
  selectServer_turn (.step (.init ⟨3, by decide, rfl⟩) step_firstClient)
    ⟨by decide, by decide, by decide, by decide⟩

theorem echo_run_of_secondFails :
    (echo.Run ∅
        [.opened 4, .opened 5, .echoed 4 [0x68, 0x69] [0x68, 0x69, 0x0A], .closed 4] {5} ∧
      ∀ s, .ok withSecond = (.ok s : Except Fault SelectServer) →
        s.allset = insert s.listenfd {5} ∧
        ∀ fd, fd ∈ ({5} : Finset ℕ) ↔ ∃ i : ℕ, (i : ℤ) ≤ s.maxi ∧ s.slot i = some fd) ∧
    echo.Run ∅ [.opened 4, .opened 5, .echoed 4 [0x68, 0x69] [0x68, 0x69, 0x0A], .closed 4,
      .opened 4] {4, 5} := by
  have hrun := System.Run.cons step_firstClient <| .cons step_secondClient <|
    .cons step_firstEnded <| .nil _
  refine ⟨echo_run_of_selectServer (by decide) hrun, ?_⟩
  exact (echo_run_of_selectServer (by decide) (hrun.append (.cons step_secondFails (.nil _)))).1

theorem selectServer_ne_tooManyClients_third :
    (turn 3 { firstClient with rset := {0}, connfd := some 3 }
      (((start 3 0).saved 1).saved 2)).2 ≠ .error .tooManyClients := by
  have hfirst : (process 3).step (.ok (start 3 0), ∅)
      ({ firstClient with rset := {0}, connfd := some 1 }, [.opened 1])
      (.ok ((start 3 0).saved 1), {1}) :=
    ⟨_, rfl, ⟨by decide, by decide, by decide, by decide⟩, rfl, rfl⟩
  have hsecond : (process 3).step (.ok ((start 3 0).saved 1), {1})
      ({ firstClient with rset := {0}, connfd := some 2 }, [.opened 2])
      (.ok (((start 3 0).saved 1).saved 2), {2, 1}) :=
    ⟨_, rfl, ⟨by decide, by decide, by decide, by decide⟩, rfl, rfl⟩
  exact selectServer_ne_tooManyClients (.step (.step (.init ⟨0, by decide, rfl⟩) hfirst) hsecond)
    ⟨by decide, by decide, by decide, by decide⟩

end Samples

end Mbtk.TcpServer.SelectServer
