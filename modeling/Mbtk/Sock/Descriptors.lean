import Mbtk.Sock.Table

namespace Mbtk.Sock

open Lib

namespace State

variable {s : State} {index i : Slot} {fd : ℤ} {p : MbtkSock → Bool} {f : MbtkSock → MbtkSock}

theorem find_some (h : s.find p = some index) : p (s.mbtkSocks index) = true := by
  have := List.find?_some h
  exact this

@[simp]
theorem modify_self : (s.modify index f).mbtkSocks index = f (s.mbtkSocks index) :=
  Function.update_self ..

theorem modify_of_ne (h : i ≠ index) : (s.modify index f).mbtkSocks i = s.mbtkSocks i :=
  Function.update_of_ne h ..

@[simp]
theorem mbtkSocks_socket :
    (s.socket index fd).mbtkSocks = (s.modify index ({ · with fd })).mbtkSocks := by
  unfold socket
  dsimp only
  split <;> rfl

theorem closeSlot_of_ne (h : i ≠ index) : (s.closeSlot index).mbtkSocks i = s.mbtkSocks i :=
  Function.update_of_ne h ..

/-- The descriptors of the slots in use. -/
def table (s : State) (i : Slot) : Option ℤ := (s.mbtkSocks i).desc

theorem table_update {sock : MbtkSock} {log : List (ResourceEvent ℤ)} :
    table ⟨Function.update s.mbtkSocks index sock, log⟩ =
      Function.update s.table index sock.desc :=
  Function.comp_update MbtkSock.desc s.mbtkSocks index sock

theorem table_eq_some_iff : s.table i = some fd ↔ 0 < fd ∧ (s.mbtkSocks i).fd = fd := by
  unfold table MbtkSock.desc
  split_ifs <;> simp <;> omega

theorem table_eq_none_iff : s.table i = none ↔ ¬ 0 < (s.mbtkSocks i).fd := by
  unfold table MbtkSock.desc
  split_ifs <;> simp [*]

@[simp]
theorem fd_configure (isSsl : Bool) (canReadCb readCb : Callback) (sock : MbtkSock) :
    (sock.configure isSsl canReadCb readCb).fd = sock.fd := by
  unfold MbtkSock.configure
  split <;> rfl

/-- The descriptors of the slots in use are those that are open. -/
def Tracks (s : State) : Prop := Resource.Tracks s.table s.log

theorem Tracks.modify (h : s.Tracks) (hfd : (f (s.mbtkSocks index)).fd = (s.mbtkSocks index).fd) :
    (s.modify index f).Tracks := by
  have hdesc : (f (s.mbtkSocks index)).desc = s.table index := by
    rw [table, MbtkSock.desc, hfd, MbtkSock.desc]
  unfold Tracks State.modify
  rw [table_update, hdesc, Function.update_eq_self]
  exact h

theorem Tracks.socket (h : s.Tracks) (hfree : ¬ 0 < (s.mbtkSocks index).fd)
    (hfresh : fd < 0 ∨ 0 < fd ∧ fd ∉ Resource.held s.log) : (s.socket index fd).Tracks := by
  have hnone := table_eq_none_iff.mpr hfree
  unfold State.socket Tracks State.modify
  rcases hfresh with hneg | ⟨hpos, hfresh⟩
  · have hdesc : ({ s.mbtkSocks index with fd } : MbtkSock).desc = s.table index := by
      rw [hnone]
      exact if_neg (by dsimp only; omega)
    rw [if_pos hneg, table_update, hdesc, Function.update_eq_self]
    exact h
  · have hdesc : ({ s.mbtkSocks index with fd } : MbtkSock).desc = some fd := if_pos hpos
    rw [if_neg (by omega), table_update, hdesc]
    exact Resource.Tracks.acquire h hnone hfresh

theorem Tracks.closeSlot (h : s.Tracks) (hpos : 0 < (s.mbtkSocks index).fd) :
    (s.closeSlot index).Tracks := by
  have hsome := table_eq_some_iff.mpr ⟨hpos, rfl⟩
  have hzero : MbtkSock.zero.desc = none := rfl
  unfold State.closeSlot Tracks State.modify
  rw [table_update, hzero]
  exact Resource.Tracks.release h hsome

theorem Tracks.mbtkSockOpen (h : s.Tracks) {type : SockType} {isSsl : Bool}
    {canReadCb readCb : Callback} {o : OpenOutcome}
    (hfresh : o.socket < 0 ∨ 0 < o.socket ∧ o.socket ∉ Resource.held s.log) :
    (mbtkSockOpen s type isSsl canReadCb readCb o).2.Tracks := by
  unfold Sock.mbtkSockOpen
  split
  · exact h
  · next index hfind =>
    have hfree : ¬ 0 < (s.mbtkSocks index).fd := by simpa using find_some hfind
    have htype : (s.modify index ({ · with type })).Tracks := h.modify rfl
    have htypeFree : ¬ 0 < ((s.modify index ({ · with type })).mbtkSocks index).fd := by
      rw [modify_self]
      exact hfree
    have hsocket := htype.socket htypeFree hfresh
    have hfd : (((s.modify index ({ · with type })).socket index o.socket).mbtkSocks index).fd =
        o.socket := by
      rw [mbtkSocks_socket, modify_self]
    dsimp only
    generalize (s.modify index ({ · with type })).socket index o.socket = t at hsocket hfd ⊢
    have hconfigure : (t.modify index (·.configure isSsl canReadCb readCb)).Tracks :=
      hsocket.modify (fd_configure ..)
    have hpos (hneg : ¬ o.socket < 0) :
        0 < ((t.modify index (·.configure isSsl canReadCb readCb)).mbtkSocks index).fd := by
      rw [modify_self, fd_configure, hfd]
      exact (hfresh.resolve_left hneg).1
    split_ifs with hneg hget hset
    · exact hsocket
    · exact hconfigure.closeSlot (hpos hneg)
    · exact hconfigure.closeSlot (hpos hneg)
    · exact hconfigure

theorem Tracks.mbtkSockConn (h : s.Tracks) {o : ConnOutcome} : (mbtkSockConn s fd o).2.Tracks := by
  unfold Sock.mbtkSockConn
  split
  · exact h
  · next index hfind =>
    have hfd : (s.mbtkSocks index).fd = fd := by simpa using find_some hfind
    split_ifs with hpos hconnects
    · exact h
    · exact h
    · exact h.closeSlot (by omega)

theorem Tracks.mbtkSockClose (h : s.Tracks) : (mbtkSockClose s fd).2.Tracks := by
  unfold Sock.mbtkSockClose
  split
  · exact h
  · next index hfind =>
    have hfd : (s.mbtkSocks index).fd = fd := by simpa using find_some hfind
    split_ifs with hpos
    · exact h
    · exact h.closeSlot (by omega)

theorem tracks_step {c : Call} {t : State} (h : s.Tracks) (hfresh : s.FreshSocket c)
    (hstep : system.step s c t) : t.Tracks := by
  obtain rfl : (s.call c).2 = t := hstep
  cases c with
  | sockOpen type isSsl canReadCb readCb o => exact h.mbtkSockOpen hfresh
  | sockConn fd o => exact h.mbtkSockConn
  | sockClose fd => exact h.mbtkSockClose

theorem tracks_of_reachable (h : (system.restrict FreshSocket).Reachable s) : s.Tracks := by
  refine h.invariant (P := Tracks) ?_ ?_
  · rintro _ rfl
    exact Resource.Tracks.empty
  · rintro s c t hs ⟨hfresh, hstep⟩
    exact tracks_step hs hfresh hstep

/-- The slot that a call is about: the first free one, or the one with its descriptor. -/
def Concerns (s : State) (i : Slot) : Call → Prop
  | .sockOpen _ _ _ _ _ => s.find (fun sock => ¬ 0 < sock.fd) = some i
  | .sockConn fd _ | .sockClose fd => 0 < fd ∧ (s.mbtkSocks i).fd = fd

theorem mbtkSocks_call {c : Call} (h : ¬ s.Concerns i c) :
    (s.call c).2.mbtkSocks i = s.mbtkSocks i := by
  cases c with
  | sockOpen type isSsl canReadCb readCb o =>
    simp only [call, Sock.mbtkSockOpen]
    split
    · rfl
    · next index hfind =>
      have hne : i ≠ index := by
        rintro rfl
        exact h hfind
      split_ifs <;> simp [closeSlot_of_ne hne, modify_of_ne hne]
  | sockConn fd o =>
    simp only [call, Sock.mbtkSockConn]
    split
    · rfl
    · next index hfind =>
      have hfd : (s.mbtkSocks index).fd = fd := by simpa using find_some hfind
      split_ifs with hpos hconnects
      · rfl
      · rfl
      · refine closeSlot_of_ne ?_
        rintro rfl
        exact h ⟨by omega, hfd⟩
  | sockClose fd =>
    simp only [call, Sock.mbtkSockClose]
    split
    · rfl
    · next index hfind =>
      have hfd : (s.mbtkSocks index).fd = fd := by simpa using find_some hfind
      split_ifs with hpos
      · rfl
      · refine closeSlot_of_ne ?_
        rintro rfl
        exact h ⟨by omega, hfd⟩

theorem find_eq_none (h : ∀ i, p (s.mbtkSocks i) = false) : s.find p = none := by
  refine List.find?_eq_none.mpr fun i _ => ?_
  simp [h i]

theorem call_unknown (h : ∀ i, ¬ (0 < fd ∧ (s.mbtkSocks i).fd = fd)) (o : ConnOutcome) :
    s.call (.sockConn fd o) = (-1, s) ∧ s.call (.sockClose fd) = (-1, s) := by
  simp only [call, Sock.mbtkSockConn, Sock.mbtkSockClose]
  cases hfind : s.find fun sock => sock.fd = fd with
  | none => exact ⟨rfl, rfl⟩
  | some index =>
    have hfd : (s.mbtkSocks index).fd = fd := by simpa using find_some hfind
    have hneg : fd ≤ 0 := not_lt.mp fun hpos => h index ⟨hpos, hfd⟩
    exact ⟨if_pos hneg, if_pos hneg⟩

theorem call_full (h : ∀ i, 0 < (s.mbtkSocks i).fd) (type : SockType) (isSsl : Bool)
    (canReadCb readCb : Callback) (o : OpenOutcome) :
    s.call (.sockOpen type isSsl canReadCb readCb o) = (-1, s) := by
  have hfind : s.find (fun sock => ¬ 0 < sock.fd) = none :=
    find_eq_none fun i => by simpa using h i
  simp only [call, Sock.mbtkSockOpen, hfind]

/-- No descriptor leaks or is closed twice. -/
structure Accounted (s : State) : Prop where
  distinct : ∀ i j, 0 < (s.mbtkSocks i).fd → (s.mbtkSocks i).fd = (s.mbtkSocks j).fd → i = j
  exact : ∀ fd, (0 < fd ∧ ∃ i, (s.mbtkSocks i).fd = fd) ↔ fd ∈ Resource.held s.log
  once : ∀ log, log <+: s.log → ∀ fd, log.count (.release fd) ≤ log.count (.acquire fd)

/-- What calls leave as it is. -/
structure Contained (s : State) : Prop where
  full : (∀ i, 0 < (s.mbtkSocks i).fd) → ∀ type isSsl canReadCb readCb o,
    s.call (.sockOpen type isSsl canReadCb readCb o) = (-1, s)
  unknown : ∀ fd, (∀ i, ¬ (0 < fd ∧ (s.mbtkSocks i).fd = fd)) → ∀ o,
    s.call (.sockConn fd o) = (-1, s) ∧ s.call (.sockClose fd) = (-1, s)
  others : ∀ c i, ¬ s.Concerns i c → (s.call c).2.mbtkSocks i = s.mbtkSocks i
  one : ∀ c i j, s.Concerns i c → s.Concerns j c → i = j

theorem Tracks.account (h : s.Tracks) : s.Accounted where
  distinct i j hpos heq := h.distinct i j (s.mbtkSocks i).fd (table_eq_some_iff.mpr ⟨hpos, rfl⟩)
    (table_eq_some_iff.mpr ⟨hpos, heq.symm⟩)
  exact fd := by
    rw [h.mem_held_iff, ← exists_and_left]
    exact exists_congr fun i => table_eq_some_iff.symm
  once log hlog fd := h.proper.count_release_le hlog fd

theorem Accounted.contained (h : s.Accounted) : s.Contained where
  full := call_full
  unknown fd hunknown o := call_unknown hunknown o
  others c i := mbtkSocks_call
  one c i j hi hj := by
    cases c with
    | sockOpen type isSsl canReadCb readCb o => exact Option.some.inj (hi.symm.trans hj)
    | sockConn fd o => exact h.distinct i j (hi.2 ▸ hi.1) (hi.2.trans hj.2.symm)
    | sockClose fd => exact h.distinct i j (hi.2 ▸ hi.1) (hi.2.trans hj.2.symm)

/-- Over every run in which `socket` returns descriptors that are not open. -/
theorem accounted (h : (system.restrict FreshSocket).Reachable s) : s.Accounted ∧ s.Contained :=
  have haccounted := (tracks_of_reachable h).account
  ⟨haccounted, haccounted.contained⟩

def sampleOpened : State := (start.call (.sockOpen .tcp false none none ⟨3, 0, 0⟩)).2

def sampleClosed : State :=
  (sampleOpened.call (.sockConn 3 ⟨false, 0, 0, 0, false, false, 0, 0, 0⟩)).2

theorem accounted_sampleClosed : sampleClosed.log = [.acquire 3, .release 3] ∧
    sampleClosed.Accounted ∧ sampleClosed.Contained := by
  have hfresh : start.FreshSocket (.sockOpen .tcp false none none ⟨3, 0, 0⟩) :=
    .inr ⟨by decide, by decide⟩
  have hopened : (system.restrict FreshSocket).Reachable sampleOpened :=
    .step (.init rfl) ⟨hfresh, rfl⟩
  have hconn : sampleOpened.FreshSocket
    (.sockConn 3 ⟨false, 0, 0, 0, false, false, 0, 0, 0⟩) := trivial
  have hclosed : (system.restrict FreshSocket).Reachable sampleClosed :=
    .step hopened ⟨hconn, rfl⟩
  exact ⟨by decide, accounted hclosed⟩

end State

end Mbtk.Sock
