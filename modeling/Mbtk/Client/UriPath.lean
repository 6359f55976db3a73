import Mbtk.Client.SetOption
import Mbtk.Coap.Recv

namespace Mbtk.Client

open Lib Coap CoapPDU

/-- A segment of a path: at least one character, none of them `/`, `?` or NUL. -/
def Segment (s : List UInt8) : Prop := s ≠ [] ∧ 0x2F ∉ s ∧ 0x3F ∉ s ∧ 0 ∉ s

structure UriPath where
  segments : List (List UInt8)
  nonempty : segments ≠ []
  segment : ∀ s ∈ segments, Segment s
  fits : ([0x2F].intercalate segments).length ≤ 99

/-- The segments joined by `/`. -/
def UriPath.text (path : UriPath) : List UInt8 := [0x2F].intercalate path.segments

/-- The string in `uri_path` of `mbtk_coap_recv_resolve`. -/
def recvUriPath (p : CoapPDU) : Exec (List UInt8) := do
  let (_, uriPath) ← p.coapGetRecvOptionUriPath .uriPath (List.replicate 100 0)
  cString uriPath

section Segments

variable {s tail startP : List UInt8} {segs : List (List UInt8)}

theorem nextSegment_of_strip
    (hstrip : (if startP.head? = some 0x2F then startP.tail else startP) = s ++ tail)
    (hs : 0x2F ∉ s) (hq : 0x3F ∉ s) (htail : tail = [] ∨ ∃ t, tail = 0x2F :: t) :
    nextSegment startP 0x2F = (s, tail, false) := by
  obtain rfl | ⟨t, rfl⟩ := htail
  · rw [List.append_nil] at hstrip
    exact nextSegment_end hstrip hs hq
  · exact nextSegment_cut hstrip hs

def tailText (segs : List (List UInt8)) : List UInt8 := segs.flatMap fun s => 0x2F :: s

theorem intercalate_eq_tailText (s : List UInt8) (segs : List (List UInt8)) :
    [0x2F].intercalate (s :: segs) = s ++ tailText segs := by
  induction segs generalizing s with
  | nil => simp [tailText]
  | cons t segs ih =>
    rw [List.intercalate_cons_cons, ih]
    simp [tailText]

theorem tailText_cases (segs : List (List UInt8)) :
    tailText segs = [] ∨ ∃ t, tailText segs = 0x2F :: t := by
  cases segs with
  | nil => exact .inl rfl
  | cons s segs => exact .inr ⟨s ++ tailText segs, rfl⟩

theorem uriPairsLoop_tailText {fuel : ℕ} (hfuel : (tailText segs).length ≤ fuel)
    (h : ∀ s ∈ segs, Segment s) :
    uriPairsLoop fuel (tailText segs) 0x2F COAP_OPTION_URI_PATH =
      segs.map fun s => ⟨COAP_OPTION_URI_PATH, s⟩ := by
  induction segs generalizing fuel with
  | nil => cases fuel <;> rfl
  | cons s segs ih =>
    obtain ⟨hne, hslash, hquery, -⟩ := h s (by simp)
    have hpos := List.length_pos_iff.mpr hne
    have htext : tailText (s :: segs) = 0x2F :: (s ++ tailText segs) := rfl
    rw [htext, List.length_cons, List.length_append] at hfuel
    obtain ⟨fuel, rfl⟩ := Nat.exists_eq_succ_of_ne_zero (show fuel ≠ 0 by omega)
    rw [htext, uriPairsLoop, if_neg (by simp only [List.length_cons, List.length_append]; omega),
      nextSegment_of_strip (by simp) hslash hquery (tailText_cases segs)]
    dsimp only
    rw [if_neg (by simp), ih (by omega) fun s hs => h s (by simp [hs]), List.map_cons]

theorem uriPairs_text (path : UriPath) :
    uriPairs path.text = path.segments.map fun s => ⟨COAP_OPTION_URI_PATH, s⟩ := by
  obtain ⟨s, segs, hsegs⟩ := List.exists_cons_of_ne_nil path.nonempty
  have hall := path.segment
  rw [UriPath.text, hsegs, intercalate_eq_tailText]
  rw [hsegs] at hall
  obtain ⟨hne, hslash, hquery, -⟩ := hall s (by simp)
  obtain ⟨c, s, rfl⟩ := List.exists_cons_of_ne_nil hne
  by_cases hshort : s ++ tailText segs = []
  · obtain ⟨rfl, htail⟩ := List.append_eq_nil_iff.mp hshort
    cases segs with
    | nil => rfl
    | cons t segs => simp [tailText] at htail
  · have hpos := List.length_pos_iff.mpr hshort
    have hfirst :
        (if (c :: s ++ tailText segs).head? = some 0x2F then (c :: s ++ tailText segs).tail
        else c :: s ++ tailText segs) = c :: s ++ tailText segs := by
      rw [if_neg]
      simp only [List.cons_append, List.head?_cons, Option.some.injEq]
      rintro rfl
      exact hslash List.mem_cons_self
    have htwo : 2 ≤ (c :: s ++ tailText segs).length := by
      rw [List.cons_append, List.length_cons]
      omega
    rw [uriPairs_of_two_le htwo, List.cons_append, List.length_cons, uriPairsLoop,
      ← List.cons_append, if_neg (by omega),
      nextSegment_of_strip hfirst hslash hquery (tailText_cases segs)]
    dsimp only
    rw [if_neg (by simp), List.map_cons, uriPairsLoop_tailText (by simp)]
    exact fun s hs => hall s (by simp [hs])

theorem UriPath.zero_notMem_text (path : UriPath) : 0 ∉ path.text := by
  obtain ⟨s, segs, hsegs⟩ := List.exists_cons_of_ne_nil path.nonempty
  have hall := path.segment
  rw [hsegs] at hall
  rw [UriPath.text, hsegs, intercalate_eq_tailText, List.mem_append, tailText, List.mem_flatMap]
  rintro (h | ⟨t, ht, h⟩)
  · exact (hall s (by simp)).2.2.2 h
  · obtain h | h := List.mem_cons.mp h
    · exact absurd h (by decide)
    · exact (hall t (by simp [ht])).2.2.2 h

end Segments

section Receive

variable {p : CoapPDU} {path : UriPath} {opts : List Opt}

theorem mem_of_copyValues {buffer : Buffer} {size : ℕ} {s t : UInt16 × List UInt8}
    (h : opts.foldlM (copyValue buffer size) s = .ok t) :
    ∀ c ∈ t.2, c ∈ s.2 ∨ ∃ o ∈ opts, c ∈ o.value := by
  induction opts generalizing s with
  | nil =>
    obtain rfl := Except.ok.inj h
    exact fun c hc => .inl hc
  | cons o opts ih =>
    rw [List.foldlM_cons] at h
    obtain ⟨s', hcopy, hrest⟩ := bind_eq_ok.mp h
    unfold copyValue at hcopy
    split_ifs at hcopy
    obtain rfl := Except.ok.inj hcopy
    intro c hc
    obtain hc | ⟨o', ho', hc⟩ := ih hrest c hc
    · obtain hc | hc := List.mem_append.mp hc
      · exact .inr ⟨o, by simp, hc⟩
      · exact .inl (List.mem_of_mem_drop hc)
    · exact .inr ⟨o', by simp [ho'], hc⟩

theorem mem_of_cString {array s : List UInt8} (h : cString array = .ok s) : ∀ c ∈ s, c ∈ array := by
  unfold cString at h
  split_ifs at h
  obtain rfl := Except.ok.inj h
  exact fun c hc => (List.takeWhile_sublist _).mem hc

theorem slash_notMem_recvUriPath {s : List UInt8}
    (hget : ∀ buffer dst, p.getOptionValueById COAP_OPTION_URI_PATH buffer dst =
      copyValues buffer dst opts)
    (hopts : ∀ o ∈ opts, 0x2F ∉ o.value) (h : recvUriPath p = .ok s) : 0x2F ∉ s := by
  obtain ⟨⟨len, array⟩, hcopy, hstr⟩ := bind_eq_ok.mp h
  rw [coapGetRecvOptionUriPath, recvString, hget] at hcopy
  intro hc
  obtain hz | ⟨o, ho, hc⟩ := mem_of_copyValues hcopy _ (mem_of_cString hstr _ hc)
  · exact absurd (List.eq_of_mem_replicate hz) (by decide)
  · exact hopts o ho hc

theorem recvUriPath_nil (hget : ∀ buffer dst,
    p.getOptionValueById COAP_OPTION_URI_PATH buffer dst = copyValues buffer dst []) :
    recvUriPath p = .ok [] := by
  rw [recvUriPath, coapGetRecvOptionUriPath, recvString, hget]
  rfl

theorem recvUriPath_segment {s : List UInt8} (hs : 0 ∉ s) (hlen : s.length ≤ 99)
    (hget : ∀ buffer dst, p.getOptionValueById COAP_OPTION_URI_PATH buffer dst =
      copyValues buffer dst [⟨COAP_OPTION_URI_PATH, s⟩]) : recvUriPath p = .ok s := by
  have hcopy : copyValues .uriPath (List.replicate 100 0) [⟨COAP_OPTION_URI_PATH, s⟩] =
      .ok (UInt16.ofNat s.length, s ++ (List.replicate 100 0).drop s.length) := by
    have hle : s.length ≤ (List.replicate 100 (0 : UInt8)).length := by
      rw [List.length_replicate]
      omega
    rw [copyValues, List.foldlM_cons, copyValue, if_pos hle]
    rfl
  obtain ⟨k, hk⟩ : ∃ k, 100 - s.length = k + 1 := ⟨99 - s.length, by omega⟩
  have htake : (s ++ List.replicate (k + 1) 0).takeWhile (· ≠ 0) = s := by
    rw [List.takeWhile_append_of_pos, List.replicate_succ, List.takeWhile_cons_of_neg (by simp),
      List.append_nil]
    intro c hc
    simpa using fun h0 : c = 0 => hs (h0 ▸ hc)
  rw [recvUriPath, coapGetRecvOptionUriPath, recvString, hget, hcopy, ok_bind]
  dsimp only
  rw [List.drop_replicate, hk, cString, if_pos (by simp), htake]

variable {coap : Package} {g g' : SharedPDU} {datagram after : List UInt8} {addr : ℕ}
  {int0 int1 int2 : UInt32}

theorem uriPath_pairs (hset : coap.LastSet .uriPath path.text int0 int1 int2) :
    (packagePairs coap.options).filter (·.number = COAP_OPTION_URI_PATH) =
      path.segments.map fun s => ⟨COAP_OPTION_URI_PATH, s⟩ := by
  obtain ⟨option, hmem, htype, before, hbefore, hassign⟩ := hset.exists_option
  rw [filter_packagePairs hset.configured.nodup hmem (by rw [htype]; rfl) (by decide)]
  simp only [CoapOption.assign, hbefore] at hassign
  obtain ⟨array, harray, hassign⟩ := bind_eq_ok.mp hassign
  unfold setOptStr at harray
  split_ifs at harray with hlen
  have hstr : option.str = path.text := by
    rw [← Except.ok.inj hassign, CoapOption.str, ← Except.ok.inj harray]
    dsimp only
    rw [List.takeWhile_append_of_pos, List.takeWhile_replicate, if_neg (by simp), List.append_nil]
    intro c hc
    simpa using fun h0 : c = 0 => path.zero_notMem_text (h0 ▸ hc)
  rw [optionPairs, htype]
  dsimp only
  rw [hstr, uriPairs_text]
  simp [List.filter_eq_self]

/-- A path arrives exactly when it has one segment and the datagram has its option. -/
theorem uriPath_delivered_iff (hg : g.Used) (h8 : coap.tokenLen ≤ 8)
    (hset : coap.LastSet .uriPath path.text int0 int1 int2)
    (hsend : coapSend g coap = .ok (g', datagram))
    (hrecv : coapCreateRecv addr (datagram ++ after) datagram.length = .ok (some p)) :
    recvUriPath p = .ok path.text ↔ path.segments.length = 1 ∧
      coap.reach COAP_OPTION_URI_PATH ≤ coap.message.length % 65536 := by
  obtain ⟨opts, hget, hfront, hall⟩ :=
    getOptionValueById_sent hg.idle h8 hsend hrecv COAP_OPTION_URI_PATH
  rw [uriPath_pairs hset] at hfront hall
  obtain ⟨s, segs, hsegs⟩ := List.exists_cons_of_ne_nil path.nonempty
  have hall' := path.segment
  rw [hsegs] at hall' hfront hall ⊢
  have htext : path.text = s ++ tailText segs := by
    rw [UriPath.text, hsegs, intercalate_eq_tailText]
  cases segs with
  | nil =>
    obtain ⟨hne, -, -, hzero⟩ := hall' s (by simp)
    have hfits := path.fits
    rw [← UriPath.text, htext] at hfits
    rw [tailText, List.flatMap_nil, List.append_nil] at htext hfits
    rw [List.map_singleton] at hfront hall
    rw [htext]
    obtain rfl | rfl := eq_nil_or_eq_of_front hfront
    · rw [recvUriPath_nil hget]
      refine iff_of_false (fun h => hne (Except.ok.inj h).symm) fun h => ?_
      exact absurd (hall.mpr (.inr h.2)) (by simp)
    · rw [recvUriPath_segment hzero hfits hget]
      simpa using hall
  | cons t segs =>
    refine iff_of_false (fun h => ?_) (by simp)
    refine slash_notMem_recvUriPath hget (fun o ho => ?_) h (by simp [htext, tailText])
    obtain ⟨u, hu, rfl⟩ := List.mem_map.mp (hfront.subset ho)
    exact (hall' u hu).2.1

def pathA : UriPath where
  segments := [[0x61]]
  nonempty := by simp
  segment := by simp [Segment]
  fits := by decide

def pathAB : UriPath where
  segments := [[0x61], [0x62]]
  nonempty := by simp
  segment := by simp [Segment]
  fits := by decide

/-- A GET request on which only a path was set. -/
def pathRequest (path : UriPath) : Package :=
  { listItemInit 7 with
    code := COAP_GET
    options := [{ CoapOption.zero .uriPath with
      optStr := ⟨path.text ++ List.replicate (128 - path.text.length) 0, by
        have := path.fits
        rw [← UriPath.text] at this
        rw [List.length_append, List.length_replicate]
        omega⟩ }] }

theorem lastSet_pathRequest (path : UriPath) :
    (pathRequest path).LastSet .uriPath path.text 0 0 0 := by
  have hset : setOption { listItemInit 7 with code := COAP_GET } .uriPath path.text 0 0 0 =
      .ok (pathRequest path) := by
    have hfits : path.text.length ≤ 128 := path.fits.trans (by decide)
    rw [setOption, if_neg (by simp [listItemInit]), CoapOption.assign, CoapOption.zero]
    dsimp only
    rw [setOptStr, dif_pos hfits]
    rfl
  exact .set (.start rfl) hset

theorem pathA_delivered :
    ∃ g' p, coapSend (.null 0 fun _ => some ⟨0, fun _ => 0⟩) (pathRequest pathA) =
        .ok (g', [0x40, 0x01, 0x00, 0x07, 0xB1, 0x61]) ∧
      coapCreateRecv 0 ([0x40, 0x01, 0x00, 0x07, 0xB1, 0x61] ++ []) 6 = .ok (some p) ∧
      recvUriPath p = .ok pathA.text := by
  obtain ⟨g', hsend⟩ : ∃ g', coapSend (.null 0 fun _ => some ⟨0, fun _ => 0⟩) (pathRequest pathA) =
      .ok (g', [0x40, 0x01, 0x00, 0x07, 0xB1, 0x61]) := ⟨_, rfl⟩
  obtain ⟨p, hrecv⟩ : ∃ p, coapCreateRecv 0 ([0x40, 0x01, 0x00, 0x07, 0xB1, 0x61] ++ []) 6 =
      .ok (some p) := ⟨_, rfl⟩
  exact ⟨g', p, hsend, hrecv, (uriPath_delivered_iff (.null 0 fun _ => rfl) (by decide)
    (lastSet_pathRequest pathA) hsend hrecv).mpr ⟨rfl, by decide⟩⟩

/-- The second segment is copied over the first one. -/
theorem not_pathAB_delivered :
    ∃ g' p, (pathRequest pathAB).LastSet .uriPath pathAB.text 0 0 0 ∧
      coapSend (.null 0 fun _ => some ⟨0, fun _ => 0⟩) (pathRequest pathAB) =
        .ok (g', [0x40, 0x01, 0x00, 0x07, 0xB1, 0x61, 0x01, 0x62]) ∧
      coapCreateRecv 0 ([0x40, 0x01, 0x00, 0x07, 0xB1, 0x61, 0x01, 0x62] ++ []) 8 =
        .ok (some p) ∧
      ¬ recvUriPath p = .ok pathAB.text :=
  ⟨_, _, lastSet_pathRequest pathAB, rfl, rfl, fun h =>
    absurd (Except.ok.inj h) (by decide)⟩

end Receive

end Mbtk.Client
