import Mbtk.Coap.UdpSend
import Mbtk.Lib.Resource
import Mbtk.Lib.Transition
import Mbtk.Sock.InetAddresses

/-! The sockets of `mbtk_coap_generic.c`: which descriptors its items hold, and which are lost. -/

namespace Mbtk.Coap.Generic

open Lib UdpSend
open Sock (INADDRSZ AF_INET sockInetPton inetPton4 Octets inetPton4_iff)

section Functions

structure SockaddrIn where
  family : ℤ
  port : UInt16
  addr : List UInt8
  deriving DecidableEq

def SockaddrIn.zero : SockaddrIn := ⟨0, 0, List.replicate INADDRSZ 0⟩

/-- `sockaddr_init` with an address of `AF_INET`.  `sock_inet_pton` gives 0 for a text that is no
address, and leaves the address as it is. -/
def sockaddrInit (addr : SockaddrIn) (host : Option (List UInt8)) (port : ℤ) : ℤ × SockaddrIn :=
  match host with
  | none => (-1, addr)
  | some host =>
    if port ≤ 0 then (-1, addr)
    else
      let addr : SockaddrIn := { SockaddrIn.zero with family := AF_INET, port := .ofInt port }
      match sockInetPton AF_INET host with
      | (res, some dst) => (if res < 0 then -1 else 0, { addr with addr := dst })
      | (res, none) => (if res < 0 then -1 else 0, addr)

/-- The fields of `mbtk_coap_generic_type` that are used. -/
structure GenericType where
  item : CoapItem
  port : ℤ
  sockReset : Bool
  seraddr : SockaddrIn
  deriving DecidableEq

abbrev CoapType := Fin MBTK_COAP_TYPE_MAX

def MBTK_COAP_TYPE_CMD : CoapType := ⟨0, by decide⟩
def MBTK_COAP_TYPE_CTSN : CoapType := ⟨1, by decide⟩
def MBTK_COAP_TYPE_ALIYUN : CoapType := ⟨2, by decide⟩

/-- `coap_items`, with what `socket` returned, the calls of `close`, and the descriptors behind
which a call returned that did not store them. -/
structure State where
  coapItems : CoapType → GenericType
  log : List (ResourceEvent ℤ)
  lost : List ℤ

/-- What the system calls of `coap_sock_create` return. -/
structure CreateOutcome where
  socket : ℤ
  connect : ℤ
  getsockname : ℤ

structure CloseOutcome where
  res : ℤ
  left : Bool

namespace State

variable (s : State)

def modify (coapType : CoapType) (f : GenericType → GenericType) : State :=
  { s with coapItems := Function.update s.coapItems coapType (f (s.coapItems coapType)) }

def close (fd : ℤ) (o : CloseOutcome) : State :=
  if o.left then s else { s with log := s.log ++ [.release fd] }

def lose (fd : ℤ) : State := { s with lost := s.lost ++ [fd] }

def coapSockCreate (coapType : CoapType) (host : Option (List UInt8)) (port : ℤ)
    (o : CreateOutcome) : ℤ × State :=
  if o.socket < 0 then (-1, s)
  else
    let s : State := { s with log := s.log ++ [.acquire o.socket] }
    let init := sockaddrInit (s.coapItems coapType).seraddr host port
    let s := s.modify coapType ({ · with seraddr := init.2 })
    if init.1 < 0 then (-1, s.lose o.socket)
    else if o.connect < 0 then (-1, s.lose o.socket)
    else if o.getsockname < 0 then (-1, s.lose o.socket)
    else (o.socket, s.modify coapType ({ · with item := ⟨1, o.socket⟩, port }))

def coapSockClose (coapType : CoapType) (o : CloseOutcome) : Bool × State :=
  let item := (s.coapItems coapType).item
  if item.handle ≤ 0 ∨ item.sockfd ≤ 0 then (false, s)
  else
    let s := s.close item.sockfd o
    if o.res = 0 then (true, s.modify coapType ({ · with item := ⟨item.handle, -1⟩ }))
    else (false, s)

/-- `mbtk_coap_sock_init`.  `coap_net_open` returns TRUE. -/
def mbtkCoapSockInit (coapType : ℕ) (host : Option (List UInt8)) (port : ℤ) (o : CreateOutcome)
    (c : CloseOutcome) : Bool × State :=
  if h : coapType < MBTK_COAP_TYPE_MAX then
    let coapType : CoapType := ⟨coapType, h⟩
    let sockfd := (s.coapItems coapType).item.sockfd
    if (s.coapItems coapType).sockReset ∧ 0 < sockfd then
      let s := s.modify coapType ({ · with sockReset := false })
      let r := s.coapSockCreate coapType host port o
      if r.1 < 0 then (false, r.2) else (true, r.2.close sockfd c)
    else if sockfd ≤ 0 then
      let r := s.coapSockCreate coapType host port o
      (decide (0 ≤ r.1), r.2)
    else (true, s)
  else (false, s)

def mbtkCoapSockDeinit (coapType : ℕ) (o : CloseOutcome) : Bool × State :=
  if h : coapType < MBTK_COAP_TYPE_MAX then
    if 0 < (s.coapItems ⟨coapType, h⟩).item.sockfd then s.coapSockClose ⟨coapType, h⟩ o
    else (true, s)
  else (false, s)

end State

end Functions

/-- The calls, with what the system calls return that they make. -/
inductive Call
  | sockInit (coapType : ℕ) (host : Option (List UInt8)) (port : ℤ) (o : CreateOutcome)
      (c : CloseOutcome)
  | sockDeinit (coapType : ℕ) (c : CloseOutcome)

namespace State

def call (s : State) : Call → Bool × State
  | .sockInit coapType host port o c => s.mbtkCoapSockInit coapType host port o c
  | .sockDeinit coapType c => s.mbtkCoapSockDeinit coapType c

def start : State where
  coapItems _ := ⟨⟨0, 0⟩, 0, false, .zero⟩
  log := []
  lost := []

/-- A descriptor that `socket` returns is none that is open, and the standard input is.  Only a call
of `close` that fails leaves its descriptor open, and one that was. -/
def Sane (s : State) : Call → Prop
  | .sockInit _ _ _ o _ => o.socket < 0 ∨ 0 < o.socket ∧ o.socket ∉ Resource.held s.log
  | .sockDeinit coapType c => c.left = true → c.res ≠ 0 ∧
      ∀ i : CoapType, i = coapType → (s.coapItems i).item.sockfd ∈ Resource.held s.log

/-- The runs of the module's users.  The events carry what the calls return. -/
def system : System State (Call × Bool) where
  init s := s = start
  step s e t := s.Sane e.1 ∧ s.call e.1 = (e.2, t)

section Descriptors

variable {s t : State} {i j : CoapType} {fd port : ℤ} {host : Option (List UInt8)}
  {o : CreateOutcome} {c : CloseOutcome}

def desc (item : CoapItem) : Option ℤ := if 0 < item.sockfd then some item.sockfd else none

/-- The descriptors of the items, and the lost ones. -/
def table (s : State) : CoapType ⊕ ℕ → Option ℤ :=
  Sum.elim (fun i => desc (s.coapItems i).item) fun n => s.lost[n]?

theorem table_update {items : CoapType → GenericType} {x : GenericType}
    {log : List (ResourceEvent ℤ)} {lost : List ℤ} :
    table ⟨Function.update items i x, log, lost⟩ =
      Function.update (table ⟨items, log, lost⟩) (.inl i) (desc x.item) := by
  funext k
  cases k with
  | inl k =>
    by_cases hk : k = i
    · subst hk
      simp [table]
    · have hne : (Sum.inl k : CoapType ⊕ ℕ) ≠ .inl i := fun heq => hk (Sum.inl_injective heq)
      simp [table, Function.update_of_ne hk, Function.update_of_ne hne]
  | inr n => simp [table]

theorem table_concat {items : CoapType → GenericType} {log : List (ResourceEvent ℤ)}
    {lost : List ℤ} : table ⟨items, log, lost ++ [fd]⟩ =
      Function.update (table ⟨items, log, lost⟩) (.inr lost.length) (some fd) := by
  funext k
  cases k with
  | inl k => simp [table]
  | inr n =>
    by_cases hn : n = lost.length
    · subst hn
      simp [table]
    · have hne : (Sum.inr n : CoapType ⊕ ℕ) ≠ .inr lost.length := fun heq =>
        hn (Sum.inr_injective heq)
      rw [Function.update_of_ne hne]
      simp only [table, Sum.elim_inr, List.getElem?_append]
      split_ifs with hlt
      · rfl
      · rw [List.getElem?_singleton, if_neg (by omega), List.getElem?_eq_none (by omega)]

theorem desc_eq_some_iff {item : CoapItem} : desc item = some fd ↔ 0 < fd ∧ item.sockfd = fd := by
  unfold desc
  split_ifs <;> simp <;> omega

/-- An item that has a descriptor can be used, and none is to be reset. -/
structure Kept (s : State) : Prop where
  opened : ∀ i, 0 < (s.coapItems i).item.sockfd → (s.coapItems i).item.Open
  sockReset : ∀ i, (s.coapItems i).sockReset = false

theorem kept_start : start.Kept where
  opened _ h := absurd h (lt_irrefl 0)
  sockReset _ := rfl

theorem Kept.update {x : GenericType} {log : List (ResourceEvent ℤ)} {lost : List ℤ}
    (h : s.Kept) (hopened : 0 < x.item.sockfd → x.item.Open) (hreset : x.sockReset = false) :
    Kept ⟨Function.update s.coapItems i x, log, lost⟩ where
  opened j hj := by
    by_cases hji : j = i
    · subst hji
      simp only [Function.update_self] at hj ⊢
      exact hopened hj
    · simp only [Function.update_of_ne hji] at hj ⊢
      exact h.opened j hj
  sockReset j := by
    by_cases hji : j = i
    · subst hji
      simpa using hreset
    · simpa only [Function.update_of_ne hji] using h.sockReset j

/-- The address that a text stands for, which is 0 if the text is no address. -/
inductive Names (text : List UInt8) : List UInt8 → Prop
  | quad {dst : List UInt8} : Octets text dst → dst.length = INADDRSZ → Names text dst
  | none : (∀ dst, Octets text dst → dst.length ≠ INADDRSZ) →
      Names text (List.replicate INADDRSZ 0)

theorem sockaddrInit_cases (addr : SockaddrIn) (host : Option (List UInt8)) (port : ℤ) :
    (sockaddrInit addr host port).1 < 0 ∨ ∃ text dst, host = some text ∧ 0 < port ∧
      Names text dst ∧ (sockaddrInit addr host port).2 = ⟨AF_INET, .ofInt port, dst⟩ := by
  cases host with
  | none => exact .inl (show (-1 : ℤ) < 0 by decide)
  | some text =>
    rw [sockaddrInit]
    split_ifs with hport
    · exact .inl (show (-1 : ℤ) < 0 by decide)
    · refine .inr ⟨text, ?_⟩
      cases hpton : inetPton4 text with
      | none =>
        refine ⟨_, rfl, not_le.mp hport, .none fun dst hdst hlen => ?_, ?_⟩
        · cases hpton.symm.trans (inetPton4_iff.mpr ⟨hdst, hlen⟩)
        · simp [sockInetPton, hpton, SockaddrIn.zero]
      | some dst =>
        obtain ⟨hdst, hlen⟩ := inetPton4_iff.mp hpton
        exact ⟨dst, rfl, not_le.mp hport, .quad hdst hlen, by simp [sockInetPton, hpton]⟩

/-- What `coap_sock_create` does to the table: the descriptor is stored, or it is lost. -/
inductive Created (s : State) (i : CoapType) (host : Option (List UInt8)) (port : ℤ)
    (o : CreateOutcome) : ℤ × State → Prop
  | unopened : o.socket < 0 → Created s i host port o (-1, s)
  | lost (seraddr : SockaddrIn) : ¬ o.socket < 0 → Created s i host port o
      (-1, ⟨Function.update s.coapItems i { s.coapItems i with seraddr },
        s.log ++ [.acquire o.socket], s.lost ++ [o.socket]⟩)
  | stored {text dst : List UInt8} : ¬ o.socket < 0 → host = some text → 0 < port →
      Names text dst → Created s i host port o
      (o.socket, ⟨Function.update s.coapItems i
        ⟨⟨1, o.socket⟩, port, (s.coapItems i).sockReset, ⟨AF_INET, .ofInt port, dst⟩⟩,
        s.log ++ [.acquire o.socket], s.lost⟩)

theorem created_coapSockCreate (s : State) (i : CoapType) (host : Option (List UInt8)) (port : ℤ)
    (o : CreateOutcome) : Created s i host port o (s.coapSockCreate i host port o) := by
  have hinit := sockaddrInit_cases (s.coapItems i).seraddr host port
  unfold coapSockCreate
  dsimp only
  generalize sockaddrInit _ host port = init at hinit ⊢
  split_ifs with hsocket hneg
  · exact .unopened hsocket
  · exact .lost init.2 hsocket
  · exact .lost init.2 hsocket
  · exact .lost init.2 hsocket
  · obtain ⟨text, dst, hhost, hport, hnames, hseraddr⟩ := hinit.resolve_left hneg
    have hstored := Created.stored (s := s) (i := i) hsocket hhost hport hnames
    rw [hseraddr]
    simpa [modify] using hstored

theorem Kept.create {r : ℤ × State} (h : s.Kept)
    (hfresh : o.socket < 0 ∨ 0 < o.socket ∧ o.socket ∉ Resource.held s.log)
    (hcreated : Created s i host port o r) : r.2.Kept := by
  cases hcreated with
  | unopened => exact h
  | lost => exact h.update (h.opened i) (h.sockReset i)
  | stored hsocket =>
    exact h.update (fun _ => ⟨one_pos, (hfresh.resolve_left hsocket).1⟩) (h.sockReset i)

theorem tracks_create {r : ℤ × State} (h : Resource.Tracks s.table s.log)
    (hfree : ¬ 0 < (s.coapItems i).item.sockfd)
    (hfresh : o.socket < 0 ∨ 0 < o.socket ∧ o.socket ∉ Resource.held s.log)
    (hcreated : Created s i host port o r) : Resource.Tracks r.2.table r.2.log := by
  cases hcreated with
  | unopened => exact h
  | lost seraddr hsocket =>
    have hitem : Function.update s.table (.inl i) (desc (s.coapItems i).item) = s.table :=
      Function.update_eq_self ..
    have hnone : s.table (.inr s.lost.length) = none := List.getElem?_eq_none le_rfl
    rw [table_concat, table_update]
    change Resource.Tracks (Function.update (Function.update s.table _ _) _ _) _
    rw [hitem]
    exact h.acquire hnone (hfresh.resolve_left hsocket).2
  | stored hsocket =>
    obtain ⟨hpos, hfresh⟩ := hfresh.resolve_left hsocket
    have hnone : s.table (.inl i) = none := if_neg hfree
    rw [table_update, desc_eq_some_iff.mpr ⟨hpos, rfl⟩]
    exact h.acquire hnone hfresh

theorem Kept.sockInit_of_pos (h : s.Kept) (hpos : 0 < (s.coapItems i).item.sockfd)
    (host : Option (List UInt8)) (port : ℤ) (o : CreateOutcome) (c : CloseOutcome) :
    s.mbtkCoapSockInit i host port o c = (true, s) := by
  unfold mbtkCoapSockInit
  rw [dif_pos i.isLt]
  dsimp only
  rw [if_neg (by simp [h.sockReset]), if_neg (not_le.mpr hpos)]

theorem sockInit_of_not_pos (hpos : ¬ 0 < (s.coapItems i).item.sockfd)
    (host : Option (List UInt8)) (port : ℤ) (o : CreateOutcome) (c : CloseOutcome) :
    s.mbtkCoapSockInit i host port o c =
      (decide (0 ≤ (s.coapSockCreate i host port o).1), (s.coapSockCreate i host port o).2) := by
  unfold mbtkCoapSockInit
  rw [dif_pos i.isLt]
  dsimp only
  rw [if_neg fun hreset => hpos hreset.2, if_pos (not_lt.mp hpos)]

theorem Kept.sockDeinit_of_pos (h : s.Kept) (hpos : 0 < (s.coapItems i).item.sockfd)
    (c : CloseOutcome) : s.mbtkCoapSockDeinit i c =
      if c.res = 0 then
        (true, (s.close (s.coapItems i).item.sockfd c).modify i
          ({ · with item := ⟨(s.coapItems i).item.handle, -1⟩ }))
      else (false, s.close (s.coapItems i).item.sockfd c) := by
  have hclosed : ¬ ((s.coapItems i).item.handle ≤ 0 ∨ (s.coapItems i).item.sockfd ≤ 0) := by
    rw [not_or, not_le, not_le]
    exact h.opened i hpos
  unfold mbtkCoapSockDeinit coapSockClose
  rw [dif_pos i.isLt, if_pos hpos]
  dsimp only
  rw [if_neg hclosed]

theorem mbtkCoapSockInit_of_le {coapType : ℕ} (h : ¬ coapType < MBTK_COAP_TYPE_MAX) :
    s.mbtkCoapSockInit coapType host port o c = (false, s) := dif_neg h

theorem mbtkCoapSockDeinit_of_le {coapType : ℕ} (h : ¬ coapType < MBTK_COAP_TYPE_MAX) :
    s.mbtkCoapSockDeinit coapType c = (false, s) := dif_neg h

theorem mbtkCoapSockDeinit_of_not_pos (h : ¬ 0 < (s.coapItems i).item.sockfd) :
    s.mbtkCoapSockDeinit i c = (true, s) := by
  unfold mbtkCoapSockDeinit
  rw [dif_pos i.isLt, if_neg h]

/-- What a call does: it changes nothing, creates a socket where there is none, or closes one. -/
inductive Effect (s : State) : Call × Bool → State → Prop
  | refused {coapType : ℕ} {host : Option (List UInt8)} {port : ℤ} {o : CreateOutcome}
      {c : CloseOutcome} : ¬ coapType < MBTK_COAP_TYPE_MAX →
      Effect s (.sockInit coapType host port o c, false) s
  | kept {i : CoapType} {host : Option (List UInt8)} {port : ℤ} {o : CreateOutcome}
      {c : CloseOutcome} : 0 < (s.coapItems i).item.sockfd →
      Effect s (.sockInit i host port o c, true) s
  | created {i : CoapType} {host : Option (List UInt8)} {port : ℤ} {o : CreateOutcome}
      {c : CloseOutcome} {r : ℤ × State} : ¬ 0 < (s.coapItems i).item.sockfd →
      Created s i host port o r →
      (o.socket < 0 ∨ 0 < o.socket ∧ o.socket ∉ Resource.held s.log) →
      Effect s (.sockInit i host port o c, decide (0 ≤ r.1)) r.2
  | closed {i : CoapType} {c : CloseOutcome} : 0 < (s.coapItems i).item.sockfd → c.res = 0 →
      Effect s (.sockDeinit i c, true) ⟨Function.update s.coapItems i
        { s.coapItems i with item := ⟨(s.coapItems i).item.handle, -1⟩ },
        s.log ++ [.release (s.coapItems i).item.sockfd], s.lost⟩
  | left {i : CoapType} {c : CloseOutcome} : 0 < (s.coapItems i).item.sockfd → c.res ≠ 0 →
      c.left = true → Effect s (.sockDeinit i c, false) s
  -- the item goes on with a descriptor that is closed
  | dangling {i : CoapType} {c : CloseOutcome} : 0 < (s.coapItems i).item.sockfd → c.res ≠ 0 →
      c.left = false → Effect s (.sockDeinit i c, false)
        { s with log := s.log ++ [.release (s.coapItems i).item.sockfd] }
  | unclosed {coapType : ℕ} {c : CloseOutcome} {r : Bool} :
      (∀ i : CoapType, i = coapType → ¬ 0 < (s.coapItems i).item.sockfd ∧ r = true) →
      Effect s (.sockDeinit coapType c, r) s

theorem Kept.effect {e : Call × Bool} (h : s.Kept) (hstep : system.step s e t) : Effect s e t := by
  obtain ⟨call, r⟩ := e
  obtain ⟨hsane, hstep⟩ := hstep
  cases call with
  | sockInit coapType host port o c =>
    by_cases htype : coapType < MBTK_COAP_TYPE_MAX
    · obtain ⟨i, rfl⟩ : ∃ i : CoapType, i = coapType := ⟨⟨coapType, htype⟩, rfl⟩
      by_cases hpos : 0 < (s.coapItems i).item.sockfd
      · cases (h.sockInit_of_pos hpos host port o c).symm.trans hstep
        exact .kept hpos
      · cases (sockInit_of_not_pos hpos host port o c).symm.trans hstep
        exact .created hpos (created_coapSockCreate ..) hsane
    · cases (mbtkCoapSockInit_of_le htype).symm.trans hstep
      exact .refused htype
  | sockDeinit coapType c =>
    by_cases htype : coapType < MBTK_COAP_TYPE_MAX
    · obtain ⟨i, rfl⟩ : ∃ i : CoapType, i = coapType := ⟨⟨coapType, htype⟩, rfl⟩
      by_cases hpos : 0 < (s.coapItems i).item.sockfd
      · have hdeinit := (h.sockDeinit_of_pos hpos c).symm.trans hstep
        cases hleft : c.left with
        | true =>
          have hres : c.res ≠ 0 := (hsane hleft).1
          rw [if_neg hres, close, if_pos hleft] at hdeinit
          cases hdeinit
          exact .left hpos hres hleft
        | false =>
          rw [close, hleft] at hdeinit
          by_cases hres : c.res = 0
          · rw [if_pos hres] at hdeinit
            cases hdeinit
            exact .closed hpos hres
          · rw [if_neg hres] at hdeinit
            cases hdeinit
            exact .dangling hpos hres hleft
      · cases (mbtkCoapSockDeinit_of_not_pos hpos).symm.trans hstep
        exact .unclosed fun j hj => ⟨Fin.ext hj ▸ hpos, rfl⟩
    · cases (mbtkCoapSockDeinit_of_le htype).symm.trans hstep
      exact .unclosed fun j hj => absurd (hj ▸ j.isLt) htype

theorem Kept.step {e : Call × Bool} (h : s.Kept) (heffect : Effect s e t) : t.Kept := by
  cases heffect with
  | refused | kept | left | unclosed => exact h
  | created _ hcreated hfresh => exact h.create hfresh hcreated
  | closed =>
    exact h.update (fun hneg => absurd hneg (show ¬ (0 : ℤ) < -1 by decide)) (h.sockReset _)
  | dangling => exact ⟨h.opened, h.sockReset⟩

/-- A call of `close` that fails left its descriptor open. -/
def Leaves (e : Call × Bool) : Prop :=
  ∀ (i : CoapType) (c : CloseOutcome), e = (.sockDeinit i c, false) → c.left = true

theorem Effect.tracks {e : Call × Bool} (heffect : Effect s e t) (hleaves : Leaves e)
    (h : Resource.Tracks s.table s.log) : Resource.Tracks t.table t.log := by
  cases heffect with
  | refused | kept | left | unclosed => exact h
  | created hfree hcreated hfresh => exact tracks_create h hfree hfresh hcreated
  | closed hpos =>
    rw [table_update]
    exact h.release (desc_eq_some_iff.mpr ⟨hpos, rfl⟩)
  | dangling _ _ hleft => cases hleft.symm.trans (hleaves _ _ rfl)

end Descriptors

section History

variable {s t : State} {i j : CoapType} {past : List (Call × Bool)} {e : Call × Bool}

def lostBy : Call × Bool → List ℤ
  | (.sockInit coapType _ _ o _, false) =>
    if coapType < MBTK_COAP_TYPE_MAX ∧ 0 ≤ o.socket then [o.socket] else []
  | _ => []

theorem Effect.lost_eq (h : Effect s e t) : t.lost = s.lost ++ lostBy e := by
  cases h with
  | refused htype => simp [lostBy, htype]
  | kept => simp [lostBy]
  | @created i host port res o r _ hcreated =>
    cases hcreated with
    | unopened hsocket => simp [lostBy, not_le.mpr hsocket]
    | lost seraddr hsocket => simp [lostBy, not_lt.mp hsocket]
    | stored hsocket => simp [lostBy, not_lt.mp hsocket]
  | closed | left | dangling | unclosed => simp [lostBy]

/-- The item is as the call left it that created its socket, and it was not closed since. -/
def Serves (past : List (Call × Bool)) (i : CoapType) (x : GenericType) : Prop :=
  ∃ before text port o c after dst,
    past = before ++ (.sockInit i (some text) port o c, true) :: after ∧ 0 < port ∧
      Names text dst ∧ x = ⟨⟨1, o.socket⟩, port, false, ⟨AF_INET, .ofInt port, dst⟩⟩ ∧
      ∀ c : CloseOutcome, c.res = 0 → ∀ r, (.sockDeinit i c, r) ∉ after

theorem Serves.concat {x : GenericType} (h : Serves past i x)
    (he : ∀ c : CloseOutcome, c.res = 0 → ∀ r, e ≠ (.sockDeinit i c, r)) :
    Serves (past ++ [e]) i x := by
  obtain ⟨before, text, port, o, c, after, dst, rfl, hport, hnames, hx, hafter⟩ := h
  refine ⟨before, text, port, o, c, after ++ [e], dst, by simp, hport, hnames, hx, ?_⟩
  intro c hres r
  rw [List.mem_append, List.mem_singleton, not_or]
  exact ⟨hafter c hres r, Ne.symm (he c hres r)⟩

theorem Kept.serves (h : s.Kept) (heffect : Effect s e t)
    (hs : ∀ i, 0 < (s.coapItems i).item.sockfd → Serves past i (s.coapItems i))
    (hpos : 0 < (t.coapItems i).item.sockfd) : Serves (past ++ [e]) i (t.coapItems i) := by
  cases heffect with
  | refused => exact (hs i hpos).concat nofun
  | kept => exact (hs i hpos).concat nofun
  | @created j host port o c r hfree hcreated =>
    cases hcreated with
    | unopened => exact (hs i hpos).concat nofun
    | lost seraddr =>
      by_cases hij : i = j
      · subst hij
        simp only [Function.update_self] at hpos
        exact absurd hpos hfree
      · simp only [Function.update_of_ne hij] at hpos ⊢
        exact (hs i hpos).concat nofun
    | @stored text dst hsocket hhost hport hnames =>
      by_cases hij : i = j
      · subst hij
        subst hhost
        simp only [Function.update_self, h.sockReset]
        exact ⟨past, text, port, o, c, [], dst, by simp [not_lt.mp hsocket], hport, hnames, rfl,
          fun _ _ _ => List.not_mem_nil⟩
      · simp only [Function.update_of_ne hij] at hpos ⊢
        exact (hs i hpos).concat nofun
  | @closed j =>
    by_cases hij : i = j
    · subst hij
      simp only [Function.update_self] at hpos
      exact absurd hpos (by decide)
    · simp only [Function.update_of_ne hij] at hpos ⊢
      refine (hs i hpos).concat fun c _ r heq => hij ?_
      obtain ⟨hcall, -⟩ := Prod.mk.inj heq
      exact Fin.ext (Call.sockDeinit.inj hcall).1.symm
  | left _ hres _ =>
    refine (hs i hpos).concat fun c hzero r heq => hres ?_
    obtain ⟨hcall, -⟩ := Prod.mk.inj heq
    rw [(Call.sockDeinit.inj hcall).2, hzero]
  | dangling _ hres _ =>
    refine (hs i hpos).concat fun c hzero r heq => hres ?_
    obtain ⟨hcall, -⟩ := Prod.mk.inj heq
    rw [(Call.sockDeinit.inj hcall).2, hzero]
  | unclosed hfree =>
    refine (hs i hpos).concat fun c _ r heq => ?_
    obtain ⟨hcall, -⟩ := Prod.mk.inj heq
    exact (hfree i (Call.sockDeinit.inj hcall).1.symm).1 hpos

theorem kept_of_run (hrun : system.Run start past s) :
    s.Kept ∧ s.lost = past.flatMap lostBy ∧
      ∀ i, 0 < (s.coapItems i).item.sockfd → Serves past i (s.coapItems i) :=
  hrun.history
    (P := fun past s => s.Kept ∧ s.lost = past.flatMap lostBy ∧
      ∀ i, 0 < (s.coapItems i).item.sockfd → Serves past i (s.coapItems i))
    (fun past s e t hs hstep => by
      obtain ⟨hkept, hlost, hserves⟩ := hs
      have heffect := hkept.effect hstep
      refine ⟨hkept.step heffect, ?_, fun i => hkept.serves heffect hserves⟩
      rw [heffect.lost_eq, hlost, List.flatMap_append, List.flatMap_singleton])
    (show start.Kept ∧ start.lost = List.flatMap lostBy [] ∧
        ∀ i, 0 < (start.coapItems i).item.sockfd → Serves [] i (start.coapItems i) from
      ⟨kept_start, rfl, fun i hpos => absurd hpos (lt_irrefl 0)⟩)

theorem tracks_of_run (hrun : system.Run start past s) (hleaves : ∀ e ∈ past, Leaves e) :
    Resource.Tracks s.table s.log := by
  have hstart : start.table = fun _ => none := by
    funext k
    cases k <;> rfl
  have h : s.Kept ∧ ((∀ e ∈ past, Leaves e) → Resource.Tracks s.table s.log) := hrun.history
    (P := fun past s => s.Kept ∧ ((∀ e ∈ past, Leaves e) → Resource.Tracks s.table s.log))
    (fun past s e t hs hstep => by
      obtain ⟨hkept, htracks⟩ := hs
      have heffect := hkept.effect hstep
      refine ⟨hkept.step heffect, fun hall => ?_⟩
      obtain ⟨hpast, he⟩ := List.forall_mem_append.mp hall
      exact heffect.tracks (he e (List.mem_singleton_self e)) (htracks hpast))
    (show start.Kept ∧ ((∀ e ∈ ([] : List (Call × Bool)), Leaves e) →
        Resource.Tracks start.table start.log) from
      ⟨kept_start, fun _ => by
        rw [hstart]
        exact .empty⟩)
  exact h.2 hleaves

/-- Nothing was closed that was not open, and what is open are the descriptors of the items, each
once, and those behind which a call returned FALSE. -/
structure Accounted (s : State) (past : List (Call × Bool)) : Prop where
  proper : Resource.Proper s.log
  mem_held_iff (fd : ℤ) : fd ∈ Resource.held s.log ↔
    (∃ i, 0 < fd ∧ (s.coapItems i).item.sockfd = fd) ∨ fd ∈ past.flatMap lostBy
  distinct (i j : CoapType) : 0 < (s.coapItems i).item.sockfd →
    (s.coapItems i).item.sockfd = (s.coapItems j).item.sockfd → i = j
  notMem_lost (i : CoapType) : 0 < (s.coapItems i).item.sockfd →
    (s.coapItems i).item.sockfd ∉ past.flatMap lostBy
  nodup : (past.flatMap lostBy).Nodup

theorem accounted_of_tracks (h : Resource.Tracks s.table s.log)
    (hlost : s.lost = past.flatMap lostBy) : s.Accounted past := by
  have hitem (i : CoapType) (fd : ℤ) :
      s.table (.inl i) = some fd ↔ 0 < fd ∧ (s.coapItems i).item.sockfd = fd := desc_eq_some_iff
  have hmem (fd : ℤ) : fd ∈ s.lost ↔ ∃ n, s.table (.inr n) = some fd := List.mem_iff_getElem?
  refine ⟨h.proper, fun fd => ?_, fun i j hpos heq => ?_, fun i hpos hi => ?_, ?_⟩
  · rw [h.mem_held_iff, Sum.exists, ← hlost, hmem]
    simp only [hitem]
  · exact Sum.inl_injective (h.distinct _ _ _ ((hitem i _).mpr ⟨hpos, rfl⟩)
      ((hitem j _).mpr ⟨hpos, heq.symm⟩))
  · rw [← hlost, hmem] at hi
    obtain ⟨n, hn⟩ := hi
    exact Sum.inl_ne_inr (h.distinct _ _ _ ((hitem i _).mpr ⟨hpos, rfl⟩) hn)
  · rw [← hlost, List.nodup_iff_getElem?_ne_getElem?]
    intro m n hmn hn heq
    have hlookup : s.table (.inr n) = some s.lost[n] := List.getElem?_eq_getElem hn
    have := h.distinct (.inr m) (.inr n) _ (heq.trans hlookup) hlookup
    exact hmn.ne (Sum.inr_injective this)

theorem not_accounted_of_dangling {c : CloseOutcome} (h : s.Kept)
    (hstep : system.step s (.sockDeinit i c, false) t) (hleft : c.left = false) :
    ¬ t.Accounted past := by
  intro haccounted
  have heffect := h.effect hstep
  generalize he : (Call.sockDeinit i c, false) = e at heffect
  cases heffect with
  | refused | kept | created => cases he
  | closed => cases (Prod.mk.inj he).2
  | left _ _ htrue =>
    obtain ⟨hcall, -⟩ := Prod.mk.inj he
    rw [← (Call.sockDeinit.inj hcall).2, hleft] at htrue
    cases htrue
  | @dangling j _ hpos =>
    have hheld := (haccounted.mem_held_iff _).mpr (.inl ⟨j, hpos, rfl⟩)
    simp at hheld
  | unclosed hfree =>
    obtain ⟨hcall, rfl⟩ := Prod.mk.inj he
    cases (hfree i (Call.sockDeinit.inj hcall).1).2

/-- Through every run the descriptors are accounted for exactly if each call of `close` that failed
left its descriptor open. -/
theorem opened_of_run (hrun : system.Run start past s) :
    (∀ before t, before <+: past → system.Run start before t → t.Accounted before) ↔
      ∀ e ∈ past, Leaves e := by
  constructor
  · rintro haccounted e he i c rfl
    obtain ⟨before, after, rfl⟩ := List.append_of_mem he
    obtain ⟨u, hbefore, hafter⟩ := hrun.of_append
    obtain _ | ⟨hstep, -⟩ := hafter
    by_contra hleft
    have hbehind := haccounted (before ++ [(.sockDeinit i c, false)]) _ ⟨after, by simp⟩
      (hbefore.append (.cons hstep (.nil _)))
    exact not_accounted_of_dangling (kept_of_run hbefore).1 hstep (by simpa using hleft) hbehind
  · intro hleaves before t hpre hbefore
    exact accounted_of_tracks
      (tracks_of_run hbefore fun e he => hleaves e (hpre.subset he)) (kept_of_run hbefore).2.1

/-- In every run, an item that sends and receives can do so since a call of `mbtk_coap_sock_init`
created its socket, and it is connected to the address that this call named, or to 0.0.0.0 if the
text was no address. -/
theorem serves_of_run (hrun : system.Run start past s) (i : CoapType) :
    ((s.coapItems i).item.Open ↔ 0 < (s.coapItems i).item.sockfd) ∧
      ((s.coapItems i).item.Open → Serves past i (s.coapItems i)) := by
  obtain ⟨hkept, -, hserves⟩ := kept_of_run hrun
  exact ⟨⟨And.right, hkept.opened i⟩, fun hopen => hserves i hopen.2⟩

end History

section Samples

/-- The socket of a call that is refused is lost, another one is for a text that is no address, and
one is closed at the second try. -/
def sampleCalls : List (Call × Bool) :=
  [(.sockInit MBTK_COAP_TYPE_CMD (some [0x31, 0x2E, 0x32, 0x2E, 0x33, 0x2E, 0x34]) 5683
      ⟨3, 0, 0⟩ ⟨0, false⟩, true),
    (.sockInit MBTK_COAP_TYPE_CTSN none 5683 ⟨4, 0, 0⟩ ⟨0, false⟩, false),
    (.sockInit MBTK_COAP_TYPE_ALIYUN (some [0x6E, 0x6F]) 5683 ⟨5, 0, 0⟩ ⟨0, false⟩, true),
    (.sockDeinit MBTK_COAP_TYPE_CMD ⟨-1, true⟩, false),
    (.sockDeinit MBTK_COAP_TYPE_CMD ⟨0, false⟩, true)]

theorem exists_sampleCalls : ∃ s, system.Run start sampleCalls s ∧
    (s.coapItems MBTK_COAP_TYPE_ALIYUN).item = ⟨1, 5⟩ :=
  ⟨_, .cons ⟨.inr (by decide), rfl⟩ <| .cons ⟨.inr (by decide), rfl⟩ <|
    .cons ⟨.inr (by decide), rfl⟩ <|
    .cons ⟨fun _ => ⟨by decide, by rintro i hi; obtain rfl := Fin.ext hi; decide⟩, rfl⟩ <|
    .cons ⟨nofun, rfl⟩ <| .nil _, rfl⟩

theorem opened_of_run_sample : ∃ s, system.Run start sampleCalls s ∧
    ((∀ before t, before <+: sampleCalls → system.Run start before t → t.Accounted before) ↔
      ∀ e ∈ sampleCalls, Leaves e) := by
  obtain ⟨s, hrun, -⟩ := exists_sampleCalls
  exact ⟨s, hrun, opened_of_run hrun⟩

theorem serves_of_run_sample : ∃ s, system.Run start sampleCalls s ∧
    (s.coapItems MBTK_COAP_TYPE_ALIYUN).item.Open ∧
      Serves sampleCalls MBTK_COAP_TYPE_ALIYUN (s.coapItems MBTK_COAP_TYPE_ALIYUN) := by
  obtain ⟨s, hrun, hitem⟩ := exists_sampleCalls
  have hopen : (s.coapItems MBTK_COAP_TYPE_ALIYUN).item.Open := by
    rw [hitem]
    decide
  exact ⟨s, hrun, hopen, (serves_of_run hrun MBTK_COAP_TYPE_ALIYUN).2 hopen⟩

end Samples

end State

end Mbtk.Coap.Generic
