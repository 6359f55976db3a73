import Mbtk.VideoServer.Server

namespace Mbtk.VideoServer

open Lib

namespace ClientFds

variable {clientFds : ClientFds} {fd sockfd i : ℕ}

theorem count_register (clientFds : ClientFds) (sockfd fd : ℕ) :
    (clientFds.register sockfd).count (some fd) =
      clientFds.count (some fd) + if none ∈ clientFds ∧ sockfd = fd then 1 else 0 := by
  induction clientFds with
  | nil => rfl
  | cons entry rest ih =>
    cases entry with
    | none =>
      rw [register, List.count_cons, List.count_cons]
      simp
    | some other =>
      rw [register, List.count_cons, List.count_cons, ih]
      simp only [List.mem_cons, reduceCtorEq, false_or]
      omega

theorem used_lt (h : clientFds.used i) : i < clientFds.length := by
  unfold used at h
  split at h
  case h_1 hget => exact (List.getElem?_eq_some_iff.mp hget).1
  case h_2 => cases h

theorem count_remove_le (clientFds : ClientFds) (i fd : ℕ) :
    (clientFds.remove i).count (some fd) ≤ clientFds.count (some fd) := by
  unfold remove
  split
  case h_1 j hj =>
    obtain ⟨hlt, hused⟩ : i < j ∧ clientFds.used j := by simpa using List.find?_some hj
    have hlen := used_lt hused
    have hget : clientFds.getD j none = clientFds[j] := by
      rw [List.getD_eq_getElem?_getD, List.getElem?_eq_getElem hlen, Option.getD_some]
    rw [hget, List.count_set (by simpa using hlen), List.count_set (by omega),
      List.getElem_set_ne (by omega)]
    have hpos : (if clientFds[i] = some fd then 1 else 0) ≤ clientFds.count (some fd) := by
      split_ifs with heq
      · exact List.count_pos_iff.mpr (heq ▸ List.getElem_mem _)
      · omega
    simp only [beq_iff_eq, reduceCtorEq, if_false]
    omega
  case h_2 =>
    by_cases hlen : i < clientFds.length
    · rw [List.count_set hlen]
      simp
    · rw [List.set_eq_of_length_le (by omega)]

theorem count_videoSendData_le {data : List UInt8} {results : List WriteResult}
    {out : ClientFds × List (ℕ × List UInt8)}
    (h : videoSendData data clientFds i results = some out) (fd : ℕ) :
    out.1.count (some fd) ≤ clientFds.count (some fd) := by
  induction results generalizing clientFds i out with
  | nil =>
    unfold videoSendData at h
    split_ifs at h
    cases h
    exact Nat.le_refl _
  | cons result results ih =>
    unfold videoSendData at h
    split_ifs at h
    · cases result with
      | full =>
        obtain ⟨rest, hrest, h⟩ := Option.bind_eq_some_iff.mp h
        have hle := ih hrest
        rwa [← Option.some.inj h]
      | badf => exact (ih h).trans (count_remove_le clientFds i fd)
      | failed =>
        cases h
        exact Nat.le_refl _
    · cases h
      exact Nat.le_refl _

theorem mem_of_count_le {clientFds' : ClientFds}
    (h : clientFds'.count (some fd) ≤ clientFds.count (some fd)) (hmem : some fd ∈ clientFds') :
    some fd ∈ clientFds :=
  List.count_pos_iff.mp (Nat.lt_of_lt_of_le (List.count_pos_iff.mpr hmem) h)

end ClientFds

namespace State

variable {s t : State} {e : Event} {sockfd : ℕ}

/-- Each positive entry of the table is the descriptor of an open connection on which its client
has sent a CMD:VIDEO_GET, and no descriptor occurs twice. -/
structure Subscribed (s : State) : Prop where
  conn : ∀ fd, 0 < fd → some fd ∈ s.clientFds → ∃ conn ∈ s.conns, conn.fd = fd ∧ conn.sentGet
  once : ∀ fd, s.clientFds.count (some fd) ≤ 1

/-- A client subscribes only once, and stays connected as long as it is in the table. -/
def SubscribeGuard (s : State) : Event → Prop
  | .data sockfd buf =>
    buf.take 13 = cmdVideoGet → none ∈ s.clientFds → some sockfd ∉ s.clientFds
  | .disconnect sockfd | .reset sockfd => 0 < sockfd → some sockfd ∉ s.clientFds
  | _ => True

instance (s : State) : (e : Event) → Decidable (s.SubscribeGuard e)
  | .data sockfd buf => inferInstanceAs (Decidable
      (buf.take 13 = cmdVideoGet → none ∈ s.clientFds → some sockfd ∉ s.clientFds))
  | .disconnect sockfd | .reset sockfd =>
    inferInstanceAs (Decidable (0 < sockfd → some sockfd ∉ s.clientFds))
  | .accept _ | .frame _ _ | .collectEnd => inferInstanceAs (Decidable True)

theorem mem_assign {f : Conn → Conn} {conn : Conn} (h : conn ∈ s.conns) :
    (if conn.fd = sockfd then f conn else conn) ∈ (s.assign sockfd f).conns :=
  List.mem_map_of_mem h

theorem Subscribed.mono (h : s.Subscribed)
    (hcount : ∀ fd, t.clientFds.count (some fd) ≤ s.clientFds.count (some fd))
    (hconns : ∀ conn ∈ s.conns, conn.sentGet →
      ∃ conn' ∈ t.conns, conn'.fd = conn.fd ∧ conn'.sentGet) : t.Subscribed where
  conn fd hpos hmem := by
    obtain ⟨conn, hconn, hfd, hget⟩ := h.conn fd hpos (ClientFds.mem_of_count_le (hcount fd) hmem)
    obtain ⟨conn', hconn', hfd', hget'⟩ := hconns conn hconn hget
    exact ⟨conn', hconn', hfd'.trans hfd, hget'⟩
  once fd := (hcount fd).trans (h.once fd)

theorem subscribed_videoGet (h : s.Subscribed) (hpolled : s.Polled sockfd) :
    (s.videoGet sockfd).Subscribed ↔ (none ∈ s.clientFds → some sockfd ∉ s.clientFds) := by
  have hassign : (s.assign sockfd fun conn => { conn with sentGet := true }).Subscribed := by
    refine h.mono (fun _ => Nat.le_refl _) fun conn hconn hget => ⟨_, mem_assign hconn, ?_⟩
    split_ifs
    · exact ⟨rfl, rfl⟩
    · exact ⟨rfl, hget⟩
  by_cases hfree : none ∈ s.clientFds
  · have hvideoGet : s.videoGet sockfd =
        { s.assign sockfd fun conn => { conn with sentGet := true } with
          clientFds := s.clientFds.register sockfd }.reply sockfd .success := if_pos hfree
    have hcount (fd : ℕ) := ClientFds.count_register s.clientFds sockfd fd
    rw [hvideoGet]
    constructor
    · intro ht _ hmem
      have honce := ht.once sockfd
      change (s.clientFds.register sockfd).count (some sockfd) ≤ 1 at honce
      rw [hcount, if_pos ⟨hfree, rfl⟩] at honce
      have := List.count_pos_iff.mpr hmem
      omega
    · intro hguard
      have hnew := List.count_eq_zero.mpr (hguard hfree)
      refine ⟨fun fd hpos hmem => ?_, fun fd => ?_⟩
      · by_cases hfd : sockfd = fd
        · subst hfd
          obtain ⟨conn, hconn, hfd, -⟩ := hpolled
          refine ⟨_, mem_assign hconn, ?_⟩
          rw [if_pos hfd]
          exact ⟨hfd, rfl⟩
        · have hle := hcount fd
          rw [if_neg fun h => hfd h.2, Nat.add_zero] at hle
          exact hassign.conn fd hpos (ClientFds.mem_of_count_le hle.le hmem)
      · change (s.clientFds.register sockfd).count (some fd) ≤ 1
        rw [hcount]
        split_ifs with hfd
        · rw [← hfd.2, hnew]
        · exact h.once fd
  · have hvideoGet : s.videoGet sockfd =
        (s.assign sockfd fun conn => { conn with sentGet := true }).reply sockfd .fail :=
      if_neg hfree
    rw [hvideoGet]
    exact iff_of_true ⟨hassign.conn, hassign.once⟩ fun h => absurd h hfree

theorem subscribed_videoCollectReg (h : s.Subscribed) (sockfd : ℕ) :
    (s.videoCollectReg sockfd).Subscribed := by
  unfold videoCollectReg
  split_ifs
  · refine h.mono (fun _ => Nat.le_refl _) fun conn hconn hget => ⟨_, mem_assign hconn, ?_⟩
    split_ifs
    · exact ⟨rfl, hget⟩
    · exact ⟨rfl, hget⟩
  · exact ⟨h.conn, h.once⟩

theorem subscribed_closeConn (h : s.Subscribed) (hstep : s.closeConn sockfd = some t) :
    t.Subscribed ↔ (0 < sockfd → some sockfd ∉ s.clientFds) := by
  unfold closeConn at hstep
  split_ifs at hstep with hpolled
  cases hstep
  constructor
  · intro ht hpos hmem
    obtain ⟨conn, hconn, hfd, -⟩ := ht.conn sockfd hpos hmem
    simpa [hfd] using (List.mem_filter.mp hconn).2
  · intro hguard
    refine ⟨fun fd hpos hmem => ?_, h.once⟩
    obtain ⟨conn, hconn, hfd, hget⟩ := h.conn fd hpos hmem
    refine ⟨conn, List.mem_filter.mpr ⟨hconn, ?_⟩, hfd, hget⟩
    have hne : conn.fd ≠ sockfd := by
      rintro rfl
      rw [← hfd] at hpos hmem
      exact hguard hpos hmem
    simpa using hne

theorem subscribed_clientData {buf : List UInt8} (h : s.Subscribed)
    (hstep : s.clientData sockfd buf = some t) :
    t.Subscribed ↔ s.SubscribeGuard (.data sockfd buf) := by
  unfold clientData at hstep
  split_ifs at hstep with hdata hget hreg
  · cases hstep
    rw [subscribed_videoGet h hdata.1]
    exact ⟨fun hguard _ => hguard, fun hguard => hguard hget⟩
  · cases hstep
    exact iff_of_true (subscribed_videoCollectReg h sockfd) fun hword => absurd hword hget
  · cases hstep
    exact iff_of_true h fun hword => absurd hword hget

theorem subscribed_step (h : s.Subscribed) (hstep : system.step s e t) :
    t.Subscribed ↔ s.SubscribeGuard e := by
  have hreact : s.react e = some t := hstep
  cases e with
  | accept connfd =>
    unfold react at hreact
    dsimp only at hreact
    split_ifs at hreact
    cases hreact
    refine iff_of_true (h.mono (fun _ => Nat.le_refl _) fun conn hconn hget => ?_) trivial
    exact ⟨conn, List.mem_append_left _ hconn, rfl, hget⟩
  | data sockfd buf => exact subscribed_clientData h hreact
  | disconnect sockfd => exact subscribed_closeConn h hreact
  | reset sockfd => exact subscribed_closeConn h hreact
  | frame data results =>
    unfold react sendFrame at hreact
    dsimp only at hreact
    split_ifs at hreact
    obtain ⟨out, hsend, hreact⟩ := Option.bind_eq_some_iff.mp hreact
    cases hreact
    exact iff_of_true (h.mono (ClientFds.count_videoSendData_le hsend)
      fun conn hconn hget => ⟨conn, hconn, rfl, hget⟩) trivial
  | collectEnd =>
    unfold react endCollect at hreact
    dsimp only at hreact
    split_ifs at hreact
    cases hreact
    exact iff_of_true ⟨h.conn, h.once⟩ trivial

theorem subscribed_start (serverFd epfd : ℕ) : (start serverFd epfd).Subscribed where
  conn fd _ hmem := by cases (List.mem_replicate.mp hmem).2
  once fd := by
    change (List.replicate VIDEO_CLIENT_MAX none).count (some fd) ≤ 1
    rw [List.count_replicate]
    simp

end State

end Mbtk.VideoServer
