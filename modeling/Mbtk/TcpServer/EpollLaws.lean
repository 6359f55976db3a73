import Mbtk.TcpServer.EpollServer

namespace Mbtk.TcpServer

open Lib Sock

theorem Socket.readable_iff {b : Socket} :
    b.readable = true ↔ b.data ≠ [] ∨ b.ended = true ∨ b.reset = true := by
  simp [readable, or_assoc]

namespace EpollServer

variable {κ : Type} {s t : EpollServer κ} {c c' : κ} {fd fd' number listenfd : ℕ} {b : Socket}
  {connfd : Option ℕ}

section Invariant

structure Sound (s : EpollServer κ) : Prop where
  item_iff : ∀ fd c, s.conn fd = some c ↔ (s.socket c).item = some fd
  listen : s.conn s.listenfd = none
  connected : ∀ c fd, (s.socket c).item = some fd → (s.socket c).connected = true
  waiting : ∀ c ∈ s.backlog, (s.socket c).connected = true ∧ (s.socket c).item = none
  nodup_backlog : s.backlog.Nodup
  nodup : s.events.Nodup
  reported : ∀ fd ∈ s.events, s.readable fd = true

theorem sound_start : Sound (start listenfd : EpollServer κ) where
  item_iff := fun fd c => by simp [start, Socket.fresh]
  listen := rfl
  connected := by simp [start, Socket.fresh]
  waiting := by simp [start]
  nodup_backlog := .nil
  nodup := .nil
  reported := by simp [start]

theorem readable_listenfd : s.readable s.listenfd = true ↔ s.backlog ≠ [] := by
  simp [readable]

theorem readable_of_conn (h : fd ≠ s.listenfd) (hconn : s.conn fd = some c) :
    s.readable fd = (s.socket c).readable := by
  simp [readable, h, hconn]

theorem Sound.ne_listenfd (h : Sound s) (hconn : s.conn fd = some c) : fd ≠ s.listenfd := by
  rintro rfl
  exact nomatch h.listen.symm.trans hconn

theorem readable_iff : s.readable fd = true ↔
    (fd = s.listenfd ∧ s.backlog ≠ []) ∨
      fd ≠ s.listenfd ∧ ∃ c, s.conn fd = some c ∧ (s.socket c).readable = true := by
  by_cases hfd : fd = s.listenfd
  · simp [hfd, readable_listenfd]
  · simp [readable, hfd, Option.any_eq_true]

end Invariant

variable [DecidableEq κ] {e : EpollEvent κ} {writes : Bool} {rest : List ℕ}
  {past more : List (EpollEvent κ)}

section Serving

/-- What the server does with a descriptor that is reported. -/
inductive Handles (s : EpollServer κ) (connfd : Option ℕ) (fd : ℕ) :
    EpollEvent κ → EpollServer κ → Prop
  | accepted {number : ℕ} {c : κ} {backlog : List κ} : fd = s.listenfd → connfd = some number →
      s.backlog = c :: backlog →
      Handles s connfd fd (.accepted number c) (s.enroll number c backlog)
  | closed {c : κ} {b : Socket} : fd ≠ s.listenfd → s.conn fd = some c → (s.socket c).data = [] →
      b.data = [] → Handles s connfd fd (.closed fd c) (s.close fd c b)
  | answered {c : κ} : fd ≠ s.listenfd → s.conn fd = some c → (s.socket c).data ≠ [] →
      (s.socket c).data.length < MAXLINE →
      Handles s connfd fd (.answered fd c (s.socket c).data [0x4F, 0x4B])
        (s.store c { s.socket c with data := [] })

theorem serve_of_data (hconn : s.conn fd = some c) (hdata : (s.socket c).data ≠ []) :
    s.serve writes fd =
      if MAXLINE ≤ (s.socket c).data.length then .error .overflow
      else if writes then
        .ok (s.store c { s.socket c with data := [] },
          .answered fd c (s.socket c).data [0x4F, 0x4B])
      else .error .writeError := by
  have hpos : 0 < MAXLINE := by decide
  rw [serve, hconn]
  dsimp only
  rw [Socket.read, if_pos hdata]
  by_cases hlong : MAXLINE ≤ (s.socket c).data.length
  · have htake : ((s.socket c).data.take MAXLINE).length = MAXLINE := List.length_take_of_le hlong
    obtain ⟨x, xs, hx⟩ := List.exists_cons_of_ne_nil (List.ne_nil_of_length_pos (htake ▸ hpos))
    rw [hx] at htake ⊢
    simp [htake, hlong]
  · obtain ⟨x, xs, hx⟩ := List.exists_cons_of_ne_nil hdata
    rw [List.take_of_length_le (not_le.mp hlong).le, List.drop_of_length_le (not_le.mp hlong).le,
      hx]

theorem serve_of_nil (hconn : s.conn fd = some c) (hdata : (s.socket c).data = []) :
    s.serve writes fd =
      if (s.socket c).readable then
        .ok (s.close fd c { s.socket c with reset := (s.socket c).ended && (s.socket c).reset },
          .closed fd c)
      else .error .blocked := by
  rw [serve, hconn]
  dsimp only
  rw [Socket.read, if_neg (not_not.mpr hdata)]
  generalize s.socket c = b at hdata ⊢
  obtain ⟨connected, data, ended, reset, item⟩ := b
  cases hdata
  cases ended <;> cases reset <;> rfl

theorem handles_of_ok (h : handle connfd writes fd s = .ok (t, e)) : Handles s connfd fd e t := by
  rw [handle] at h
  split_ifs at h with hfd
  · cases connfd with
    | none => cases h
    | some number =>
      simp only [accept] at h
      cases hbacklog : s.backlog with
      | nil =>
        rw [hbacklog] at h
        cases h
      | cons c backlog =>
        rw [hbacklog] at h
        cases h
        exact .accepted hfd rfl hbacklog
  · cases hconn : s.conn fd with
    | none =>
      rw [serve, hconn] at h
      cases h
    | some c =>
      by_cases hdata : (s.socket c).data = []
      · rw [serve_of_nil hconn hdata] at h
        split_ifs at h
        cases h
        exact .closed hfd hconn hdata hdata
      · rw [serve_of_data hconn hdata] at h
        split_ifs at h with hlong
        cases h
        exact .answered hfd hconn hdata (not_le.mp hlong)

theorem handle_error {stop : Stop} (hreadable : s.readable fd = true)
    (h : handle connfd writes fd s = .error stop) :
    (stop = .acceptError ∧ fd = s.listenfd ∧ connfd = none) ∨
      (stop = .overflow ∧ ∃ c, s.conn fd = some c ∧ MAXLINE ≤ (s.socket c).data.length) ∨
      stop = .writeError ∧ writes = false := by
  obtain ⟨rfl, hbacklog⟩ | ⟨hfd, c, hconn, hsocket⟩ := readable_iff.mp hreadable
  · rw [handle, if_pos rfl] at h
    cases connfd with
    | none =>
      cases h
      exact .inl ⟨rfl, rfl, rfl⟩
    | some number =>
      obtain ⟨c, backlog, hcons⟩ := List.exists_cons_of_ne_nil hbacklog
      simp only [accept, hcons] at h
      cases h
  · rw [handle, if_neg hfd] at h
    by_cases hdata : (s.socket c).data = []
    · rw [serve_of_nil hconn hdata, if_pos hsocket] at h
      cases h
    · rw [serve_of_data hconn hdata] at h
      split_ifs at h with hlong hwrites
      · cases h
        exact .inr (.inl ⟨rfl, c, hconn, hlong⟩)
      · cases h
        exact .inr (.inr ⟨rfl, by simpa using hwrites⟩)

end Serving

section Steps

theorem socket_connect :
    (s.connect c).socket = Function.update s.socket c { s.socket c with connected := true } := rfl

theorem socket_arrive : (s.arrive c b).socket = Function.update s.socket c b := rfl

theorem socket_close :
    (s.close fd c b).socket = Function.update s.socket c { b with item := none } := rfl

theorem conn_close : (s.close fd c b).conn = Function.update s.conn fd none := rfl

theorem socket_enroll {backlog : List κ} : (s.enroll number c backlog).socket =
    Function.update s.socket c { s.socket c with item := some number } := rfl

theorem conn_enroll {backlog : List κ} :
    (s.enroll number c backlog).conn = Function.update s.conn number (some c) := rfl

theorem ready_enroll {backlog : List κ} : (s.enroll number c backlog).ready =
    if (s.socket c).readable then insert number s.ready else s.ready := rfl

theorem socket_store : (s.store c b).socket = Function.update s.socket c b := rfl

omit [DecidableEq κ] in
theorem Sound.of_items (h : Sound s) (hlisten : t.listenfd = s.listenfd) (hconn : t.conn = s.conn)
    (hitem : ∀ c, (t.socket c).item = (s.socket c).item)
    (hconnected : ∀ c, (s.socket c).connected = true → (t.socket c).connected = true)
    (hwaiting : ∀ c ∈ t.backlog, (t.socket c).connected = true ∧ (t.socket c).item = none)
    (hbacklog : t.backlog.Nodup) (hnodup : t.events.Nodup)
    (hreported : ∀ fd ∈ t.events, t.readable fd = true) : Sound t where
  item_iff := fun fd c => by rw [hconn, hitem, h.item_iff]
  listen := by rw [hconn, hlisten, h.listen]
  connected := fun c fd hfd => hconnected c (h.connected c fd ((hitem c).symm.trans hfd))
  waiting := hwaiting
  nodup_backlog := hbacklog
  nodup := hnodup
  reported := hreported

theorem update_item (hb : b.item = (s.socket c).item) (c' : κ) :
    (Function.update s.socket c b c').item = (s.socket c').item := by
  rw [Function.update_apply]
  split_ifs with hcc
  · rw [hb, hcc]
  · rfl

theorem update_connected (hb : (s.socket c).connected = true → b.connected = true) (c' : κ)
    (h : (s.socket c').connected = true) : (Function.update s.socket c b c').connected = true := by
  rw [Function.update_apply]
  split_ifs with hcc
  · exact hb (hcc ▸ h)
  · exact h

theorem Sound.connect (h : Sound s) (hc : (s.socket c).connected = false) :
    Sound (s.connect c) := by
  have hitem : (s.socket c).item = none := by
    cases hitem : (s.socket c).item with
    | none => rfl
    | some fd => exact nomatch hc.symm.trans (h.connected c fd hitem)
  have hnot : c ∉ s.backlog := fun hmem => nomatch hc.symm.trans (h.waiting c hmem).1
  have hsockets : ∀ c', ((s.connect c).socket c').item = (s.socket c').item :=
    update_item (b := { s.socket c with connected := true }) rfl
  have hconnected : ∀ c', (s.socket c').connected = true →
      ((s.connect c).socket c').connected = true := update_connected fun _ => rfl
  refine h.of_items rfl rfl hsockets hconnected ?_ ?_ h.nodup ?_
  · intro c' hc'
    obtain hc' | rfl := List.mem_append.mp hc' |>.imp_right List.eq_of_mem_singleton
    · exact ⟨hconnected c' (h.waiting c' hc').1, (hsockets c').trans (h.waiting c' hc').2⟩
    · exact ⟨by rw [socket_connect, Function.update_self], (hsockets c').trans hitem⟩
  · exact List.nodup_append_comm.mp (List.nodup_cons.mpr ⟨hnot, h.nodup_backlog⟩)
  · intro fd hfd
    have hreadable := h.reported fd hfd
    rw [readable_iff] at hreadable ⊢
    refine hreadable.imp (fun hl => ⟨hl.1, by simp [EpollServer.connect]⟩) ?_
    rintro ⟨hne, c', hconn, hsocket⟩
    refine ⟨hne, c', hconn, ?_⟩
    have hne' : c' ≠ c := by
      rintro rfl
      exact nomatch hitem.symm.trans ((h.item_iff fd c').mp hconn)
    rwa [socket_connect, Function.update_of_ne hne']

theorem Sound.arrive (h : Sound s) (hitem : b.item = (s.socket c).item)
    (hconnected : b.connected = (s.socket c).connected)
    (hreadable : (s.socket c).readable = true → b.readable = true) : Sound (s.arrive c b) := by
  have hsocket := update_connected (s := s) (c := c) (b := b) fun h => hconnected.trans h
  refine h.of_items rfl rfl (update_item hitem) hsocket ?_ h.nodup_backlog h.nodup ?_
  · intro c' hc'
    exact ⟨hsocket c' (h.waiting c' hc').1, (update_item hitem c').trans (h.waiting c' hc').2⟩
  · intro fd hfd
    have hreported := h.reported fd hfd
    rw [readable_iff] at hreported ⊢
    refine hreported.imp id ?_
    rintro ⟨hne, c', hconn, hold⟩
    refine ⟨hne, c', hconn, ?_⟩
    rw [socket_arrive, Function.update_apply]
    split_ifs with hcc
    · exact hreadable (hcc ▸ hold)
    · exact hold

omit [DecidableEq κ] in
theorem Sound.wait (h : Sound s) {fds : List ℕ} {ready : Finset ℕ} (hnodup : fds.Nodup)
    (hfds : ∀ fd ∈ fds, s.readable fd = true) :
    Sound { s with ready := ready, events := fds } :=
  h.of_items rfl rfl (fun _ => rfl) (fun _ => id) h.waiting h.nodup_backlog hnodup hfds

omit [DecidableEq κ] in
theorem Sound.item_ne (h : Sound s) (hconn : s.conn fd = some c) (hconn' : s.conn fd' = some c')
    (hne : fd' ≠ fd) : c' ≠ c := by
  rintro rfl
  have hitem := (h.item_iff fd c').mp hconn
  rw [(h.item_iff fd' c').mp hconn', Option.some_inj] at hitem
  exact hne hitem

theorem Sound.enroll (h : Sound s) {backlog : List κ} (hevents : s.listenfd ∉ s.events)
    (hbacklog : s.backlog = c :: backlog) (hlisten : number ≠ s.listenfd)
    (hfree : s.conn number = none) : Sound (s.enroll number c backlog) := by
  obtain ⟨hconnected, hitem⟩ := h.waiting c (by simp [hbacklog])
  obtain ⟨hnotMem, hnodup⟩ := List.nodup_cons.mp (hbacklog ▸ h.nodup_backlog)
  have hunused : ∀ c', (s.socket c').item ≠ some number := fun c' hc' =>
    nomatch hfree.symm.trans ((h.item_iff number c').mpr hc')
  refine ⟨?_, ?_, ?_, ?_, hnodup, h.nodup, ?_⟩
  · intro fd c'
    rw [socket_enroll, conn_enroll, Function.update_apply, Function.update_apply]
    split_ifs with hfd hc' hc'
    · simp [hfd, hc']
    · rw [hfd]
      exact iff_of_false (fun heq => hc' (Option.some_inj.mp heq).symm) (hunused c')
    · rw [hc', h.item_iff, hitem]
      simp [Ne.symm hfd]
    · exact h.item_iff fd c'
  · exact (Function.update_of_ne hlisten.symm _ _).trans h.listen
  · intro c' fd hfd
    rw [socket_enroll, Function.update_apply] at hfd ⊢
    split_ifs at hfd ⊢
    · exact hconnected
    · exact h.connected c' fd hfd
  · intro c' hc'
    rw [socket_enroll, Function.update_of_ne (ne_of_mem_of_not_mem hc' hnotMem)]
    exact h.waiting c' (by simp [hbacklog, show c' ∈ backlog from hc'])
  · intro fd hfd
    obtain ⟨rfl, -⟩ | ⟨hne, c', hconn, hreadable⟩ := readable_iff.mp (h.reported fd hfd)
    · exact absurd hfd hevents
    · refine readable_iff.mpr (.inr ⟨hne, c', ?_, ?_⟩)
      · have hne' : fd ≠ number := by
          rintro rfl
          exact nomatch hfree.symm.trans hconn
        exact (Function.update_of_ne hne' _ _).trans hconn
      · have hne' : c' ≠ c := by
          rintro rfl
          exact nomatch hitem.symm.trans ((h.item_iff fd c').mp hconn)
        rwa [socket_enroll, Function.update_of_ne hne']

theorem Sound.close (h : Sound s) (hconn : s.conn fd = some c) (hfd : fd ∉ s.events) :
    Sound (s.close fd c b) := by
  have hitem := (h.item_iff fd c).mp hconn
  have hnot : c ∉ s.backlog := fun hmem => nomatch hitem.symm.trans (h.waiting c hmem).2
  refine ⟨?_, ?_, ?_, ?_, h.nodup_backlog, h.nodup, ?_⟩
  · intro fd' c'
    rw [socket_close, conn_close, Function.update_apply, Function.update_apply]
    split_ifs with hfd' hc' hc'
    · simp
    · refine iff_of_false nofun fun hc => hc' ?_
      rw [hfd'] at hc
      exact Option.some_inj.mp (((h.item_iff fd c').mpr hc).symm.trans hconn)
    · rw [hc', h.item_iff, hitem]
      simp [Ne.symm hfd']
    · exact h.item_iff fd' c'
  · exact (Function.update_of_ne (h.ne_listenfd hconn).symm _ _).trans h.listen
  · intro c' fd' hc'
    rw [socket_close, Function.update_apply] at hc' ⊢
    split_ifs at hc' ⊢
    exact h.connected c' fd' hc'
  · intro c' hc'
    rw [socket_close, Function.update_of_ne (ne_of_mem_of_not_mem hc' hnot)]
    exact h.waiting c' hc'
  · intro fd' hfd'
    have hne : fd' ≠ fd := ne_of_mem_of_not_mem hfd' hfd
    refine readable_iff.mpr ((readable_iff.mp (h.reported fd' hfd')).imp id ?_)
    rintro ⟨hlisten, c', hconn', hreadable⟩
    refine ⟨hlisten, c', (Function.update_of_ne hne _ _).trans hconn', ?_⟩
    rwa [socket_close, Function.update_of_ne (h.item_ne hconn hconn' hne)]

theorem Sound.store (h : Sound s) (hconn : s.conn fd = some c) (hfd : fd ∉ s.events)
    (hitem : b.item = (s.socket c).item) (hconnected : b.connected = (s.socket c).connected) :
    Sound (s.store c b) := by
  have hsocket := update_connected (s := s) (c := c) (b := b) fun h => hconnected.trans h
  refine h.of_items rfl rfl (update_item hitem) hsocket ?_ h.nodup_backlog h.nodup ?_
  · intro c' hc'
    exact ⟨hsocket c' (h.waiting c' hc').1, (update_item hitem c').trans (h.waiting c' hc').2⟩
  · intro fd' hfd'
    have hne : fd' ≠ fd := ne_of_mem_of_not_mem hfd' hfd
    refine readable_iff.mpr ((readable_iff.mp (h.reported fd' hfd')).imp id ?_)
    rintro ⟨hlisten, c', hconn', hreadable⟩
    refine ⟨hlisten, c', hconn', ?_⟩
    rwa [socket_store, Function.update_of_ne (h.item_ne hconn hconn' hne)]

theorem Sound.handles (h : Sound s) (hfd : fd ∉ s.events)
    (hfree : ∀ number ∈ connfd, number ≠ s.listenfd ∧ s.conn number = none)
    (hstep : Handles s connfd fd e t) : Sound t := by
  cases hstep with
  | accepted heq hnumber hbacklog =>
    obtain ⟨hlisten, hunused⟩ := hfree _ hnumber
    exact h.enroll (heq ▸ hfd) hbacklog hlisten hunused
  | closed _ hconn => exact h.close hconn hfd
  | answered _ hconn => exact h.store hconn hfd rfl rfl

omit [DecidableEq κ] in
theorem Sound.next (h : Sound s) (hevents : s.events = fd :: rest) :
    Sound { s with events := rest } ∧ fd ∉ rest ∧ s.readable fd = true := by
  obtain ⟨hnotMem, hnodup⟩ := List.nodup_cons.mp (hevents ▸ h.nodup)
  have hrest : ∀ fd' ∈ fd :: rest, s.readable fd' = true := hevents ▸ h.reported
  exact ⟨h.wait hnodup fun fd' hfd' => hrest fd' (List.mem_cons_of_mem _ hfd'), hnotMem,
    hrest fd List.mem_cons_self⟩

theorem Sound.step (h : Sound s) (hstep : EpollStep s e t) : Sound t := by
  cases hstep with
  | connected c hc => exact h.connect hc
  | sent c data _ _ _ hdata =>
    exact h.arrive rfl rfl fun _ => Socket.readable_iff.mpr (.inl (by simp [hdata]))
  | ended c => exact h.arrive rfl rfl (by simp [Socket.readable])
  | reset c => exact h.arrive rfl rfl (by simp [Socket.readable])
  | waited fds dropped hevents hnodup _ hfds => exact h.wait hnodup fun fd hfd => (hfds fd hfd).2
  | handled hevents hfree hhandle =>
    obtain ⟨hnext, hnotMem, -⟩ := h.next hevents
    exact hnext.handles hnotMem hfree (handles_of_ok hhandle)

end Steps

section Backlog

/-- Whether a connection has come since the listening descriptor was reported last, and how many
have come while that was so already. -/
structure Edges where
  armed : Bool
  merged : ℕ

def Edges.next (listenfd : ℕ) (a : Edges) : EpollEvent κ → Edges
  | .connected _ => ⟨true, a.merged + a.armed.toNat⟩
  | .waited fds => if listenfd ∈ fds then ⟨false, a.merged⟩ else a
  | _ => a

def edges (listenfd : ℕ) (past : List (EpollEvent κ)) : Edges :=
  past.foldl (Edges.next listenfd) ⟨false, 0⟩

omit [DecidableEq κ] in
theorem edges_concat (past : List (EpollEvent κ)) (e : EpollEvent κ) :
    edges listenfd (past ++ [e]) = (edges listenfd past).next listenfd e := by
  rw [edges, List.foldl_append]
  rfl

/-- The connections that are not accepted, by the edges of the listening descriptor. -/
structure Counted (s : EpollServer κ) (a : Edges) : Prop where
  sound : Sound s
  armed : s.listenfd ∈ s.ready ↔ a.armed = true
  length : s.backlog.length =
    a.merged + a.armed.toNat + if s.listenfd ∈ s.events then 1 else 0

theorem listenfd_of_step (hstep : EpollStep s e t) : t.listenfd = s.listenfd := by
  cases hstep with
  | handled _ _ hhandle => cases handles_of_ok hhandle <;> rfl
  | _ => rfl

theorem Counted.arrive {a : Edges} (h : Counted s a) (hitem : b.item = (s.socket c).item)
    (hsound : Sound (s.arrive c b)) : Counted (s.arrive c b) a := by
  refine ⟨hsound, ?_, h.length⟩
  rw [← h.armed, EpollServer.arrive, hitem]
  cases hfd : (s.socket c).item with
  | none => rfl
  | some fd =>
    have hne := h.sound.ne_listenfd ((h.sound.item_iff fd c).mpr hfd)
    simp [hne.symm]

omit [DecidableEq κ] in
theorem Counted.wait {a : Edges} (h : Counted s a) {fds : List ℕ} {dropped : Finset ℕ}
    (hevents : s.events = []) (hfds : ∀ fd ∈ fds, fd ∈ s.ready ∧ s.readable fd = true)
    (hdropped : ∀ fd ∈ dropped, s.readable fd = false)
    (hsound : Sound { s with ready := s.ready \ (fds.toFinset ∪ dropped), events := fds }) :
    Counted { s with ready := s.ready \ (fds.toFinset ∪ dropped), events := fds }
      (a.next s.listenfd (.waited fds : EpollEvent κ)) := by
  have hlength := h.length
  rw [hevents, if_neg List.not_mem_nil] at hlength
  rw [Edges.next]
  split_ifs with hmem
  · rw [h.armed.mp (hfds _ hmem).1] at hlength
    refine ⟨hsound, by simp [hmem], ?_⟩
    change s.backlog.length = a.merged + 0 + if s.listenfd ∈ fds then 1 else 0
    rw [if_pos hmem, hlength]
    rfl
  · -- The listening descriptor has something as long as a connection is not accepted.
    have hkept : s.listenfd ∈ s.ready → s.listenfd ∉ dropped := by
      intro hready hdrop
      have hnil : s.backlog = [] := not_not.mp fun hne =>
        nomatch (hdropped _ hdrop).symm.trans (readable_listenfd.mpr hne)
      rw [hnil, h.armed.mp hready] at hlength
      exact absurd hlength (by simp)
    refine ⟨hsound, ?_, ?_⟩
    · rw [← h.armed]
      simpa [hmem] using hkept
    · change s.backlog.length = a.merged + a.armed.toNat + if s.listenfd ∈ fds then 1 else 0
      rw [if_neg hmem, hlength]

theorem Counted.step {a : Edges} (h : Counted s a) (hstep : EpollStep s e t) :
    Counted t (a.next s.listenfd e) := by
  have hsound := h.sound.step hstep
  cases hstep with
  | connected c hc =>
    refine ⟨hsound, by simp [EpollServer.connect, Edges.next], ?_⟩
    change (s.backlog ++ [c]).length =
      a.merged + a.armed.toNat + 1 + if s.listenfd ∈ s.events then 1 else 0
    rw [List.length_append, List.length_singleton, h.length, Nat.add_right_comm]
  | sent c data => exact h.arrive rfl hsound
  | ended c => exact h.arrive rfl hsound
  | reset c => exact h.arrive rfl hsound
  | waited fds dropped hevents _ _ hfds hdropped => exact h.wait hevents hfds hdropped hsound
  | @handled fd connfd rest writes _ _ hevents hfree hhandle =>
    obtain ⟨hnext, hnotMem, -⟩ := h.sound.next hevents
    have hlength := h.length
    rw [hevents] at hlength
    have hlast (hne : s.listenfd ≠ fd) :
        (if s.listenfd ∈ fd :: rest then 1 else 0) = if s.listenfd ∈ rest then 1 else 0 := by
      simp [hne]
    cases handles_of_ok hhandle with
    | @accepted number c backlog hfd hnumber hbacklog =>
      have hlisten := (hfree number hnumber).1
      refine ⟨hsound, ?_, ?_⟩
      · change s.listenfd ∈ ite ((s.socket c).readable = true) (insert number s.ready) s.ready ↔
          a.armed = true
        rw [← h.armed]
        split_ifs <;> simp [hlisten.symm]
      · change backlog.length = a.merged + a.armed.toNat + if s.listenfd ∈ rest then 1 else 0
        rw [if_pos (hfd ▸ List.mem_cons_self),
          show s.backlog = c :: backlog from hbacklog] at hlength
        rw [if_neg fun hmem => hnotMem (hfd ▸ hmem)]
        exact Nat.add_right_cancel hlength
    | @closed c b hfd hconn =>
      refine ⟨hsound, ?_, ?_⟩
      · change s.listenfd ∈ s.ready.erase fd ↔ a.armed = true
        rw [Finset.mem_erase, and_iff_right (Ne.symm hfd), h.armed]
      · exact hlength.trans (by rw [hlast (Ne.symm hfd)]; rfl)
    | answered hfd hconn =>
      refine ⟨hsound, h.armed, ?_⟩
      exact hlength.trans (by rw [hlast (Ne.symm hfd)]; rfl)

theorem counted_of_run (hrun : (epollServer κ listenfd).Run (start listenfd) past s) :
    s.listenfd = listenfd ∧ Counted s (edges listenfd past) :=
  hrun.history (P := fun past s => s.listenfd = listenfd ∧ Counted s (edges listenfd past))
    (fun past s e t hs hstep => by
      obtain ⟨rfl, hs⟩ := hs
      refine ⟨listenfd_of_step hstep, ?_⟩
      rw [edges_concat]
      exact hs.step hstep)
    (show (start listenfd : EpollServer κ).listenfd = listenfd ∧
        Counted (start listenfd : EpollServer κ) (edges listenfd []) from
      ⟨rfl, sound_start, by simp [start, edges], rfl⟩)

omit [DecidableEq κ] in
theorem merged_le_append (past more : List (EpollEvent κ)) :
    (edges listenfd past).merged ≤ (edges listenfd (past ++ more)).merged := by
  induction more using List.reverseRecOn with
  | nil => rw [List.append_nil]
  | append_singleton more e ih =>
    rw [← List.append_assoc, edges_concat]
    refine ih.trans ?_
    cases e with
    | connected c => exact Nat.le_add_right _ _
    | waited fds =>
      rw [Edges.next]
      split_ifs <;> exact le_rfl
    | _ => exact le_rfl

/-- The clients that are not accepted are those that came while an edge was pending already, which
stay so for ever, and those whose edge is pending or reported. -/
theorem length_backlog_of_run (hrun : (epollServer κ listenfd).Run (start listenfd) past s) :
    s.backlog.length = (edges listenfd past).merged + (edges listenfd past).armed.toNat +
        (if listenfd ∈ s.events then 1 else 0) ∧
      ∀ more t, (epollServer κ listenfd).Run s more t →
        (edges listenfd past).merged ≤ t.backlog.length := by
  obtain ⟨rfl, hcounted⟩ := counted_of_run hrun
  refine ⟨hcounted.length, fun more t hmore => ?_⟩
  rw [(counted_of_run (hrun.append hmore)).2.length]
  exact (merged_le_append past more).trans ((Nat.le_add_right _ _).trans (Nat.le_add_right _ _))

end Backlog

section Data

/-- What a client sends. -/
def sentBy (c : κ) : EpollEvent κ → List UInt8
  | .sent c' data => if c' = c then data else []
  | _ => []

/-- What the server reads of a client. -/
def readOf (c : κ) : EpollEvent κ → List UInt8
  | .answered _ c' data _ => if c' = c then data else []
  | _ => []

theorem update_data (hb : b.data = (s.socket c').data) (c : κ) :
    (Function.update s.socket c' b c).data = (s.socket c).data := by
  rw [Function.update_apply]
  split_ifs with hcc
  · rw [hb, hcc]
  · rfl

theorem data_step (hstep : EpollStep s e t) (c : κ) :
    readOf c e ++ (t.socket c).data = (s.socket c).data ++ sentBy c e := by
  have hquiet (hdata : (t.socket c).data = (s.socket c).data) (hread : readOf c e = [])
      (hsent : sentBy c e = []) :
      readOf c e ++ (t.socket c).data = (s.socket c).data ++ sentBy c e := by
    rw [hread, hsent, hdata, List.nil_append, List.append_nil]
  cases hstep with
  | connected c' hc' =>
    exact hquiet (update_data (b := { s.socket c' with connected := true }) rfl c) rfl rfl
  | sent c' data =>
    rw [readOf, List.nil_append, socket_arrive, Function.update_apply, sentBy]
    by_cases hcc : c' = c
    · rw [if_pos hcc.symm, if_pos hcc, hcc]
    · rw [if_neg (Ne.symm hcc), if_neg hcc, List.append_nil]
    · simp
  | ended c' => exact hquiet (update_data (b := { s.socket c' with ended := true }) rfl c) rfl rfl
  | reset c' => exact hquiet (update_data (b := { s.socket c' with reset := true }) rfl c) rfl rfl
  | waited fds dropped => exact hquiet rfl rfl rfl
  | @handled fd connfd rest _ _ _ _ _ hhandle =>
    cases handles_of_ok hhandle with
    | @accepted number c' =>
      exact hquiet (update_data (b := { s.socket c' with item := some number }) rfl c) rfl rfl
    | @closed c' b _ _ hdata hb =>
      exact hquiet (update_data (b := { b with item := none }) (hb.trans hdata.symm) c) rfl rfl
    | @answered c' hfd hconn =>
      rw [socket_store, Function.update_apply, readOf, sentBy, List.append_nil]
      by_cases hcc : c' = c
      · rw [if_pos hcc.symm, if_pos hcc, hcc, List.append_nil]
      · rw [if_neg (Ne.symm hcc), if_neg hcc, List.nil_append]
      · simp

end Data

section Stuck

/-- A connection with something to read that is neither on the ready list nor reported. -/
structure Stuck (s : EpollServer κ) (fd : ℕ) (c : κ) : Prop where
  conn : s.conn fd = some c
  readable : (s.socket c).readable = true
  ready : fd ∉ s.ready
  events : fd ∉ s.events

/-- The server answers a client whose end, or reset, has come with the data, on the same edge. -/
def Misses (u : EpollServer κ) (fd : ℕ) (c : κ) : Prop :=
  ((u.socket c).ended = true ∨ (u.socket c).reset = true) ∧ fd ∉ u.ready

def Drained (s : EpollServer κ) : Prop := ∀ fd c, Stuck s fd c → (s.socket c).data = []

omit [DecidableEq κ] in
theorem stuck_congr (hconn : t.conn fd = s.conn fd)
    (hsocket : s.conn fd = some c → t.socket c = s.socket c)
    (hready : fd ∈ t.ready ↔ fd ∈ s.ready) (hevents : fd ∈ t.events ↔ fd ∈ s.events) :
    Stuck t fd c ↔ Stuck s fd c := by
  constructor
  · intro h
    have hold := hconn.symm.trans h.conn
    exact ⟨hold, hsocket hold ▸ h.readable, fun hmem => h.ready (hready.mpr hmem),
      fun hmem => h.events (hevents.mpr hmem)⟩
  · intro h
    exact ⟨hconn.trans h.conn, (hsocket h.conn).symm ▸ h.readable,
      fun hmem => h.ready (hready.mp hmem), fun hmem => h.events (hevents.mp hmem)⟩

theorem stuck_of_arrive (h : Sound s) (hstuck : Stuck (s.arrive c' b) fd c)
    (hitem : b.item = (s.socket c').item) : c ≠ c' ∧ Stuck s fd c := by
  have hne : c ≠ c' := by
    rintro rfl
    refine hstuck.ready ?_
    rw [EpollServer.arrive, hitem, (h.item_iff fd c).mp hstuck.conn]
    exact Finset.mem_insert_self ..
  refine ⟨hne, hstuck.conn, ?_, fun hready => hstuck.ready ?_, hstuck.events⟩
  · have hreadable := hstuck.readable
    rwa [socket_arrive, Function.update_of_ne hne] at hreadable
  · rw [EpollServer.arrive]
    cases b.item with
    | none => exact hready
    | some fd' => exact Finset.mem_insert_of_mem hready

theorem arrive_of_stuck (h : Sound s) (hitem : b.item = (s.socket c').item) (hne : c ≠ c')
    (hstuck : Stuck s fd c) : Stuck (s.arrive c' b) fd c := by
  refine ⟨hstuck.conn, ?_, ?_, hstuck.events⟩
  · rw [socket_arrive, Function.update_of_ne hne]
    exact hstuck.readable
  · rw [EpollServer.arrive, hitem]
    cases hfd : (s.socket c').item with
    | none => exact hstuck.ready
    | some fd' =>
      have hne' : fd ≠ fd' := by
        rintro rfl
        exact hne (Option.some_inj.mp (hstuck.conn.symm.trans ((h.item_iff fd c').mpr hfd)))
      simpa [hne'] using hstuck.ready

theorem stuck_enroll (h : Sound s) {backlog : List κ} (hwaiting : c' ∈ s.backlog)
    (hfree : s.conn number = none) :
    Stuck (s.enroll number c' backlog) fd c ↔ Stuck s fd c := by
  have hitem := (h.waiting c' hwaiting).2
  by_cases hfd : fd = number
  · subst hfd
    refine iff_of_false (fun hstuck => ?_) fun hstuck => nomatch hfree.symm.trans hstuck.conn
    have hconn := hstuck.conn
    have hreadable := hstuck.readable
    rw [conn_enroll, Function.update_self, Option.some_inj] at hconn
    rw [← hconn, socket_enroll, Function.update_self] at hreadable
    refine hstuck.ready ?_
    rw [ready_enroll, if_pos (show (s.socket c').readable = true from hreadable)]
    exact Finset.mem_insert_self ..
  · have hmem : fd ∈ (s.enroll number c' backlog).ready ↔ fd ∈ s.ready := by
      rw [ready_enroll]
      split_ifs <;> simp [hfd]
    have hconn : (s.enroll number c' backlog).conn fd = s.conn fd := by
      rw [conn_enroll, Function.update_of_ne hfd]
    have hsocket (hold : s.conn fd = some c) :
        (s.enroll number c' backlog).socket c = s.socket c := by
      rw [socket_enroll, Function.update_of_ne]
      rintro rfl
      exact nomatch hitem.symm.trans ((h.item_iff fd c).mp hold)
    exact stuck_congr hconn hsocket hmem Iff.rfl

theorem stuck_close (h : Sound s) (hconn : s.conn fd' = some c') (hne : fd ≠ fd') :
    Stuck (s.close fd' c' b) fd c ↔ Stuck s fd c := by
  refine stuck_congr ?_ (fun hold => ?_) (by simp [close, hne]) Iff.rfl
  · rw [conn_close, Function.update_of_ne hne]
  · rw [socket_close, Function.update_of_ne (h.item_ne hconn hold hne)]

theorem stuck_store (h : Sound s) (hconn : s.conn fd' = some c') (hne : fd ≠ fd') :
    Stuck (s.store c' b) fd c ↔ Stuck s fd c := by
  refine stuck_congr rfl (fun hold => ?_) Iff.rfl Iff.rfl
  rw [socket_store, Function.update_of_ne (h.item_ne hconn hold hne)]

theorem stuck_connect (h : Sound s) (hc : (s.socket c').connected = false) :
    Stuck (s.connect c') fd c ↔ Stuck s fd c := by
  by_cases hfd : fd = s.listenfd
  · refine iff_of_false (fun hstuck => ?_) fun hstuck => h.ne_listenfd hstuck.conn hfd
    exact hstuck.ready (hfd ▸ Finset.mem_insert_self ..)
  · refine stuck_congr rfl (fun hold => ?_) (by simp [EpollServer.connect, hfd]) Iff.rfl
    rw [socket_connect, Function.update_of_ne]
    rintro rfl
    exact nomatch hc.symm.trans (h.connected c fd ((h.item_iff fd c).mp hold))

omit [DecidableEq κ] in
theorem stuck_next (hevents : s.events = fd' :: rest) (hne : fd ≠ fd') :
    Stuck { s with events := rest } fd c ↔ Stuck s fd c :=
  stuck_congr rfl (fun _ => rfl) Iff.rfl (by simp [hevents, hne])

omit [DecidableEq κ] in
theorem not_stuck_head (hevents : s.events = fd :: rest) : ¬ Stuck s fd c :=
  fun hstuck => hstuck.events (hevents ▸ List.mem_cons_self)

omit [DecidableEq κ] in
theorem Drained.ne_of_stuck (hdrained : Drained s) (hstuck : Stuck s fd c)
    (hended : (s.socket c').ended = false) (hreset : (s.socket c').reset = false) : c ≠ c' := by
  rintro rfl
  have hreadable := Socket.readable_iff.mp hstuck.readable
  simp [hdrained fd c hstuck, hended, hreset] at hreadable

omit [DecidableEq κ] in
theorem stuck_wait (h : Sound s) {fds : List ℕ} {dropped : Finset ℕ} (hevents : s.events = [])
    (hfds : ∀ fd ∈ fds, fd ∈ s.ready ∧ s.readable fd = true)
    (hdropped : ∀ fd ∈ dropped, s.readable fd = false) :
    Stuck { s with ready := s.ready \ (fds.toFinset ∪ dropped), events := fds } fd c ↔
      Stuck s fd c := by
  constructor
  · intro hstuck
    refine ⟨hstuck.conn, hstuck.readable, fun hready => hstuck.ready ?_, by simp [hevents]⟩
    have hnot : fd ∉ dropped := fun hdrop => by
      have hreadable := hdropped fd hdrop
      rw [readable_of_conn (h.ne_listenfd hstuck.conn) hstuck.conn] at hreadable
      exact nomatch hreadable.symm.trans hstuck.readable
    simp [hready, hnot, show fd ∉ fds from hstuck.events]
  · intro hstuck
    exact ⟨hstuck.conn, hstuck.readable,
      fun hready => hstuck.ready (Finset.mem_sdiff.mp hready).1,
      fun hmem => hstuck.ready (hfds fd hmem).1⟩

theorem stuck_store_self (hconn : s.conn fd = some c') (hevents : fd ∉ s.events) :
    Stuck (s.store c' { s.socket c' with data := [] }) fd c ↔ c' = c ∧ Misses s fd c := by
  constructor
  · intro hstuck
    obtain rfl : c' = c := Option.some_inj.mp (hconn.symm.trans hstuck.conn)
    have hreadable := hstuck.readable
    rw [socket_store, Function.update_self, Socket.readable_iff] at hreadable
    exact ⟨rfl, hreadable.resolve_left (not_not.mpr rfl), hstuck.ready⟩
  · rintro ⟨rfl, hmisses, hready⟩
    refine ⟨hconn, ?_, hready, hevents⟩
    rw [socket_store, Function.update_self, Socket.readable_iff]
    exact .inr hmisses

theorem stuck_step (h : Sound s) (hdrained : Drained s) (hstep : EpollStep s e t) :
    Stuck t fd c ↔ (Stuck s fd c ∧ e ≠ .reset c) ∨
      ∃ data answer, e = .answered fd c data answer ∧ Misses s fd c := by
  have hquiet (hiff : Stuck t fd c ↔ Stuck s fd c) (hreset : e ≠ .reset c)
      (hanswered : ∀ data answer, e ≠ .answered fd c data answer) :
      Stuck t fd c ↔ (Stuck s fd c ∧ e ≠ .reset c) ∨
        ∃ data answer, e = .answered fd c data answer ∧ Misses s fd c := by
    rw [hiff]
    exact ⟨fun hstuck => .inl ⟨hstuck, hreset⟩, fun hor => hor.elim And.left
      fun ⟨data, answer, heq, _⟩ => absurd heq (hanswered data answer)⟩
  cases hstep with
  | connected c' hc' => exact hquiet (stuck_connect h hc') nofun nofun
  | sent c' data _ hended hreset =>
    exact hquiet ⟨fun hstuck => (stuck_of_arrive h hstuck rfl).2, fun hstuck =>
      arrive_of_stuck h rfl (hdrained.ne_of_stuck hstuck hended hreset) hstuck⟩ nofun nofun
  | ended c' _ hended hreset =>
    exact hquiet ⟨fun hstuck => (stuck_of_arrive h hstuck rfl).2, fun hstuck =>
      arrive_of_stuck h rfl (hdrained.ne_of_stuck hstuck hended hreset) hstuck⟩ nofun nofun
  | reset c' =>
    constructor
    · intro hstuck
      obtain ⟨hne, hold⟩ := stuck_of_arrive h hstuck rfl
      exact .inl ⟨hold, fun heq => hne (EpollEvent.reset.inj heq).symm⟩
    · rintro (⟨hstuck, hne⟩ | ⟨data, answer, heq, -⟩)
      · exact arrive_of_stuck h rfl (fun heq => hne (heq ▸ rfl)) hstuck
      · cases heq
  | waited fds dropped hevents _ _ hfds hdropped =>
    exact hquiet (stuck_wait h hevents hfds hdropped) nofun nofun
  | @handled fd' connfd rest writes _ _ hevents hfree hhandle =>
    obtain ⟨hnext, hnotMem, -⟩ := h.next hevents
    cases handles_of_ok hhandle with
    | @accepted number c' backlog hfd hnumber hbacklog =>
      have hwaiting : c' ∈ s.backlog := by simp [show s.backlog = c' :: backlog from hbacklog]
      refine hquiet ((stuck_enroll hnext hwaiting (hfree number hnumber).2).trans ?_) nofun nofun
      by_cases hne : fd = s.listenfd
      · exact iff_of_false (fun hstuck => hnext.ne_listenfd hstuck.conn hne)
          fun hstuck => h.ne_listenfd hstuck.conn hne
      · exact stuck_next hevents fun heq => hne (heq.trans hfd)
    | @closed c' b hfd hconn =>
      refine hquiet ?_ nofun nofun
      by_cases hne : fd = fd'
      · subst hne
        refine iff_of_false (fun hstuck => ?_) (not_stuck_head hevents)
        have hgone := hstuck.conn
        rw [conn_close, Function.update_self] at hgone
        cases hgone
      · rw [stuck_close hnext hconn hne, stuck_next hevents hne]
    | @answered c' hfd hconn hdata =>
      by_cases hne : fd = fd'
      · subst hne
        rw [or_iff_right fun hstuck => not_stuck_head hevents hstuck.1]
        refine (stuck_store_self hconn hnotMem).trans ⟨?_, ?_⟩
        · rintro ⟨rfl, hmisses⟩
          exact ⟨_, _, rfl, hmisses⟩
        · rintro ⟨data, answer, heq, hmisses⟩
          exact ⟨(EpollEvent.answered.inj heq).2.1, hmisses⟩
      · refine hquiet ?_ nofun fun data answer heq => hne (EpollEvent.answered.inj heq).1.symm
        rw [stuck_store hnext hconn hne, stuck_next hevents hne]

theorem data_of_answered {data answer : List UInt8}
    (hstep : EpollStep s (.answered fd c data answer) t) : (t.socket c).data = [] := by
  cases hstep with
  | handled _ _ hhandle =>
    cases handles_of_ok hhandle with
    | answered => rw [socket_store, Function.update_self]

/-- A turn reads all that is there, since a full buffer is no turn. -/
theorem Drained.step (hdrained : Drained s) (h : Sound s) (hstep : EpollStep s e t) :
    Drained t := by
  intro fd c hstuck
  obtain ⟨hold, -⟩ | ⟨data, answer, rfl, -⟩ := (stuck_step h hdrained hstep).mp hstuck
  · have hdata := data_step hstep c
    have hsent : sentBy c e = [] := by
      cases e with
      | sent c' data =>
        rw [sentBy, if_neg]
        cases hstep with
        | sent => exact (stuck_of_arrive h hstuck rfl).1.symm
        | handled _ _ hhandle => cases handles_of_ok hhandle
      | _ => rfl
    rw [hdrained fd c hold, hsent, List.append_nil] at hdata
    exact (List.append_eq_nil_iff.mp hdata).2
  · exact data_of_answered hstep

structure Safe (s : EpollServer κ) : Prop where
  sound : Sound s
  drained : Drained s

theorem Safe.step (h : Safe s) (hstep : EpollStep s e t) : Safe t :=
  ⟨h.sound.step hstep, h.drained.step h.sound hstep⟩

theorem Safe.run (h : Safe s) (hrun : (epollServer κ listenfd).Run s past t) : Safe t := by
  induction hrun with
  | nil => exact h
  | cons hstep _ ih => exact ih (h.step hstep)

omit [DecidableEq κ] in
theorem safe_start : Safe (start listenfd : EpollServer κ) :=
  ⟨sound_start, fun _ _ hstuck => nomatch hstuck.conn⟩

theorem Stuck.run (hstuck : Stuck s fd c) (h : Safe s)
    (hrun : (epollServer κ listenfd).Run s past t) (hreset : .reset c ∉ past) : Stuck t fd c := by
  induction hrun with
  | nil => exact hstuck
  | cons hstep _ ih =>
    rw [List.mem_cons, not_or] at hreset
    exact ih ((stuck_step h.sound h.drained hstep).mpr (.inl ⟨hstuck, Ne.symm hreset.1⟩))
      (h.step hstep) hreset.2

theorem safe_of_run (hrun : (epollServer κ listenfd).Run (start listenfd) past s) : Safe s :=
  safe_start.run hrun

theorem conn_of_closed (hstep : EpollStep s (.closed fd c) t) : t.conn fd = none := by
  cases hstep with
  | handled _ _ hhandle =>
    cases handles_of_ok hhandle with
    | closed => rw [conn_close, Function.update_self]

/-- A connection is stuck exactly if the server has answered it once its end, or a reset, had come,
with no edge left, and no reset has come since. -/
theorem stuck_iff (hrun : (epollServer κ listenfd).Run (start listenfd) past s) :
    Stuck s fd c ↔ ∃ before data answer after u v,
      past = before ++ .answered fd c data answer :: after ∧
      (epollServer κ listenfd).Run (start listenfd) before u ∧
      (epollServer κ listenfd).step u (.answered fd c data answer) v ∧
      (epollServer κ listenfd).Run v after s ∧ Misses u fd c ∧ .reset c ∉ after := by
  constructor
  · intro hstuck
    induction past using List.reverseRecOn generalizing s with
    | nil =>
      cases hrun
      exact nomatch hstuck.conn
    | append_singleton past e ih =>
      obtain ⟨r, hpast, hlast⟩ := hrun.of_append
      obtain _ | ⟨hstep, hnil⟩ := hlast
      cases hnil
      have hsafe := safe_of_run hpast
      obtain ⟨hold, hreset⟩ | ⟨data, answer, rfl, hmisses⟩ :=
        (stuck_step hsafe.sound hsafe.drained hstep).mp hstuck
      · obtain ⟨before, data, answer, after, u, v, rfl, hbefore, hanswer, hafter, hmisses, hnot⟩ :=
          ih hpast hold
        refine ⟨before, data, answer, after ++ [e], u, v, by simp, hbefore, hanswer,
          hafter.append (.cons hstep (.nil _)), hmisses, ?_⟩
        simpa [Ne.symm hreset] using hnot
      · exact ⟨past, data, answer, [], r, s, rfl, hpast, hstep, .nil _, hmisses, List.not_mem_nil⟩
  · rintro ⟨before, data, answer, after, u, v, rfl, hbefore, hanswer, hafter, hmisses, hnot⟩
    have hsafe := safe_of_run hbefore
    have hstuck := (stuck_step hsafe.sound hsafe.drained hanswer).mpr
      (.inr ⟨data, answer, rfl, hmisses⟩)
    exact hstuck.run (hsafe.step hanswer) hafter hnot

/-- The descriptor of a connection that is stuck is not closed before a reset comes. -/
theorem not_closed_of_stuck (hrun : (epollServer κ listenfd).Run (start listenfd) past s)
    (hstuck : Stuck s fd c) (hmore : (epollServer κ listenfd).Run s more t)
    (hreset : .reset c ∉ more) : t.conn fd = some c ∧ .closed fd c ∉ more := by
  have hsafe := safe_of_run hrun
  refine ⟨(hstuck.run hsafe hmore hreset).conn, fun hmem => ?_⟩
  obtain ⟨before, after, rfl⟩ := List.append_of_mem hmem
  obtain ⟨u, hbefore, hafter⟩ := hmore.of_append
  obtain _ | ⟨hstep, -⟩ := hafter
  have hclosed := hbefore.append (.cons hstep (.nil _))
  have hstill := hstuck.run hsafe hclosed fun hmem => hreset (by simp_all)
  exact nomatch (conn_of_closed hstep).symm.trans hstill.conn

end Stuck

section Runs

theorem data_of_run (hrun : (epollServer κ listenfd).Run (start listenfd) past s) (c : κ) :
    past.flatMap (readOf c) ++ (s.socket c).data = past.flatMap (sentBy c) :=
  hrun.history
    (P := fun past s => past.flatMap (readOf c) ++ (s.socket c).data = past.flatMap (sentBy c))
    (fun past s e t hs hstep => by
      rw [List.flatMap_append, List.flatMap_append, List.flatMap_singleton, List.flatMap_singleton,
        List.append_assoc, data_step hstep, ← List.append_assoc, hs])
    (show ([] : List (EpollEvent κ)).flatMap (readOf c) ++
        ((start listenfd : EpollServer κ).socket c).data = [].flatMap (sentBy c) from rfl)

/-- What the server reads at once is smaller than its buffer. -/
def Fits (past : List (EpollEvent κ)) : Prop :=
  ∀ fd c data answer, .answered fd c data answer ∈ past → data.length < MAXLINE

theorem fits_of_run (hrun : (epollServer κ listenfd).Run (start listenfd) past s) : Fits past := by
  refine hrun.history (P := fun past _ => Fits past) (fun past s e t hs hstep => ?_)
    (show Fits ([] : List (EpollEvent κ)) from fun _ _ _ _ h => absurd h List.not_mem_nil)
  intro fd c data answer hmem
  obtain hmem | heq := List.mem_append.mp hmem |>.imp_right List.eq_of_mem_singleton
  · exact hs fd c data answer hmem
  · subst heq
    cases hstep with
    | handled _ _ hhandle =>
      cases handles_of_ok hhandle with
      | answered _ _ _ hlength => exact hlength

/-- While `epoll_wait` has nothing to report, all that a client with a connection has sent is read
and answered, though there is one edge, and one read, for any number of pieces.  Each of these reads
has found less than the buffer holds, and so has taken all there was. -/
theorem read_of_sleeping (hrun : (epollServer κ listenfd).Run (start listenfd) past s)
    (hevents : s.events = []) (hready : ∀ fd ∈ s.ready, s.readable fd = false)
    (hconn : s.conn fd = some c) :
    Fits past ∧ past.flatMap (readOf c) = past.flatMap (sentBy c) := by
  have hsafe := safe_of_run hrun
  have hdata : (s.socket c).data = [] := by
    by_contra hne
    have hreadable : (s.socket c).readable = true := Socket.readable_iff.mpr (.inl hne)
    refine hne (hsafe.drained fd c ⟨hconn, hreadable, fun hmem => ?_, by simp [hevents]⟩)
    have hnot := hready fd hmem
    rw [readable_of_conn (hsafe.sound.ne_listenfd hconn) hconn] at hnot
    exact nomatch hnot.symm.trans hreadable
  refine ⟨fits_of_run hrun, ?_⟩
  rw [← data_of_run hrun c, hdata, List.append_nil]

end Runs

section Samples

/-- The client 0 sends and ends before the server reads: both are one edge. -/
def missedRun : List (EpollEvent ℕ) :=
  [.connected 0, .waited [3], .accepted 4 0, .sent 0 [0x68], .ended 0, .waited [4],
    .answered 4 0 [0x68] [0x4F, 0x4B]]

theorem exists_missedRun : ∃ s, (epollServer ℕ 3).Run (start 3) missedRun s ∧ s.events = [] ∧
    s.ready = ∅ ∧ s.conn 4 = some 0 ∧ Stuck s 4 0 ∧ (s.socket 1).connected = false := by
  refine ⟨_, .cons (.connected 0 rfl) <| .cons (.waited [3] ∅ rfl (by decide) (by decide)
    (by decide) (by decide)) <| .cons (@EpollStep.handled _ _ _ 3 (some 4) [] true _ _ rfl
    (by rintro _ ⟨⟩; exact ⟨by decide, rfl⟩) rfl) <|
    .cons (.sent 0 [0x68] rfl rfl rfl (by decide)) <| .cons (.ended 0 rfl rfl rfl) <|
    .cons (.waited [4] ∅ rfl (by decide) (by decide) (by decide) (by decide)) <|
    .cons (@EpollStep.handled _ _ _ 4 none [] true _ _ rfl nofun rfl) <| .nil _,
    rfl, rfl, rfl, ?_, rfl⟩
  exact ⟨rfl, rfl, by decide, by decide⟩

theorem stuck_iff_missed : ∃ s, (epollServer ℕ 3).Run (start 3) missedRun s ∧ (Stuck s 4 0 ↔
    ∃ before data answer after u v, missedRun = before ++ .answered 4 0 data answer :: after ∧
      (epollServer ℕ 3).Run (start 3) before u ∧
      (epollServer ℕ 3).step u (.answered 4 0 data answer) v ∧
      (epollServer ℕ 3).Run v after s ∧ Misses u 4 0 ∧ .reset 0 ∉ after) := by
  obtain ⟨s, hrun, -⟩ := exists_missedRun
  exact ⟨s, hrun, stuck_iff hrun⟩

theorem not_closed_of_stuck_missed : ∃ s t, (epollServer ℕ 3).Run (start 3) missedRun s ∧
    (epollServer ℕ 3).Run s [.connected 1] t ∧ t.conn 4 = some 0 ∧
      .closed 4 0 ∉ [(.connected 1 : EpollEvent ℕ)] := by
  obtain ⟨s, hrun, -, -, -, hstuck, hfresh⟩ := exists_missedRun
  have hmore : (epollServer ℕ 3).Run s [.connected 1] (s.connect 1) :=
    .cons (.connected 1 hfresh) (.nil _)
  exact ⟨s, _, hrun, hmore, not_closed_of_stuck hrun hstuck hmore (by decide)⟩

theorem read_of_sleeping_missed :
    Fits missedRun ∧ missedRun.flatMap (readOf 0) = missedRun.flatMap (sentBy 0) := by
  obtain ⟨s, hrun, hevents, hready, hconn, -⟩ := exists_missedRun
  exact read_of_sleeping hrun hevents (by simp [hready]) hconn

/-- Two clients come with one edge of the listening descriptor, and a third behind it. -/
def mergedRun : List (EpollEvent ℕ) :=
  [.connected 0, .connected 1, .waited [3], .accepted 4 0, .connected 2]

theorem exists_mergedRun : ∃ s, (epollServer ℕ 3).Run (start 3) mergedRun s ∧
    s.backlog = [1, 2] ∧ s.events = [] := by
  refine ⟨_, .cons (.connected 0 rfl) <| .cons (.connected 1 rfl) <|
    .cons (.waited [3] ∅ rfl (by decide) (by decide) (by decide) (by decide)) <|
    .cons (@EpollStep.handled _ _ _ 3 (some 4) [] true _ _ rfl
    (by rintro _ ⟨⟩; exact ⟨by decide, rfl⟩) rfl) <| .cons (.connected 2 rfl) <| .nil _, rfl, rfl⟩

theorem length_backlog_of_run_merged : ∃ s, (epollServer ℕ 3).Run (start 3) mergedRun s ∧
    s.backlog = [1, 2] ∧ (edges 3 mergedRun).merged = 1 ∧
    s.backlog.length = (edges 3 mergedRun).merged + (edges 3 mergedRun).armed.toNat +
        (if 3 ∈ s.events then 1 else 0) ∧
      ∀ more t, (epollServer ℕ 3).Run s more t → (edges 3 mergedRun).merged ≤ t.backlog.length := by
  obtain ⟨s, hrun, hbacklog, -⟩ := exists_mergedRun
  exact ⟨s, hrun, hbacklog, by decide, length_backlog_of_run hrun⟩

/-- The client 0 has sent a piece, and the server is about to read it. -/
def reportedRun : List (EpollEvent ℕ) :=
  [.connected 0, .waited [3], .accepted 4 0, .sent 0 [0x68], .waited [4]]

theorem exists_reportedRun : ∃ s, (epollServer ℕ 3).Run (start 3) reportedRun s ∧
    s.events = [4] ∧ handle none false 4 { s with events := [] } = .error .writeError :=
  ⟨_, .cons (.connected 0 rfl) <| .cons (.waited [3] ∅ rfl (by decide) (by decide)
    (by decide) (by decide)) <| .cons (@EpollStep.handled _ _ _ 3 (some 4) [] true _ _ rfl
    (by rintro _ ⟨⟩; exact ⟨by decide, rfl⟩) rfl) <|
    .cons (.sent 0 [0x68] rfl rfl rfl (by decide)) <|
    .cons (.waited [4] ∅ rfl (by decide) (by decide) (by decide) (by decide)) <| .nil _, rfl, rfl⟩

end Samples

end EpollServer

end Mbtk.TcpServer
