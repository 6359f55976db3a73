import Mbtk.Client.UriPath
import Mbtk.Coap.AddPairs

namespace Mbtk.Client

open Lib Coap CoapPDU

section Turn

variable {c : UInt8} {s t startP segment rest : List UInt8} {optionType : UInt16}

def uriPairsFrom (startP : List UInt8) (c : UInt8) (optionType : UInt16) : List Opt :=
  uriPairsLoop startP.length startP c optionType

theorem nextSegment_lt (h : 2 ≤ startP.length) :
    (nextSegment startP c).2.1.length < startP.length := by
  unfold nextSegment
  dsimp only
  split_ifs with hhead
  · have hlt : startP.tail.length < startP.length := by
      rw [List.length_tail]
      omega
    refine lt_of_le_of_lt ?_ hlt
    generalize startP.tail = s
    cases strchr s c with
    | some i => exact (List.drop_sublist _ _).length_le
    | none => cases strchr s 0x3F with
      | some i => exact (List.drop_sublist _ _).length_le
      | none => exact Nat.zero_le _
  · cases hc : strchr startP c with
    | some i =>
      obtain rfl := Option.some.inj (Option.ite_none_right_eq_some.mp hc).2
      have hpos : 0 < startP.idxOf c := by
        obtain ⟨b, s, rfl⟩ := List.exists_cons_of_length_pos (show 0 < startP.length by omega)
        rw [List.idxOf_cons_ne _ (by simpa using hhead)]
        exact Nat.succ_pos _
      simp only [List.length_drop]
      omega
    | none => cases strchr startP 0x3F with
      | some i =>
        simp only [List.length_drop]
        omega
      | none =>
        simp only [List.length_nil]
        omega

theorem uriPairsLoop_eq {fuel : ℕ} (h : startP.length ≤ fuel) :
    uriPairsLoop fuel startP c optionType = uriPairsFrom startP c optionType := by
  suffices hall : ∀ fuel fuel' (startP : List UInt8) (c : UInt8) (optionType : UInt16),
      startP.length ≤ fuel → startP.length ≤ fuel' →
      uriPairsLoop fuel startP c optionType = uriPairsLoop fuel' startP c optionType from
    hall _ _ _ _ _ h le_rfl
  intro fuel
  induction fuel with
  | zero =>
    intro fuel' startP c optionType hle _
    cases fuel' with
    | zero => rfl
    | succ fuel' => rw [uriPairsLoop, uriPairsLoop, if_pos (by omega)]
  | succ fuel ih =>
    intro fuel' startP c optionType hle hle'
    by_cases hshort : startP.length ≤ 1
    · cases fuel' with
      | zero => rw [uriPairsLoop, uriPairsLoop, if_pos hshort]
      | succ fuel' => rw [uriPairsLoop, uriPairsLoop, if_pos hshort, if_pos hshort]
    · obtain ⟨fuel', rfl⟩ := Nat.exists_eq_succ_of_ne_zero (show fuel' ≠ 0 by omega)
      have hlt := nextSegment_lt (c := c) (show 2 ≤ startP.length by omega)
      rw [uriPairsLoop, uriPairsLoop, if_neg hshort, if_neg hshort]
      generalize nextSegment startP c = r at hlt
      obtain ⟨segment, rest, query⟩ := r
      dsimp only at hlt ⊢
      rw [ih fuel' _ 0x26 _ (by omega) (by omega), ih fuel' _ c _ (by omega) (by omega)]

theorem uriPairsFrom_short (h : startP.length ≤ 1) : uriPairsFrom startP c optionType = [] := by
  rw [← uriPairsLoop_eq (show startP.length ≤ 2 by omega), uriPairsLoop, if_pos h]

theorem uriPairsFrom_turn {query : Bool} (h : 2 ≤ startP.length)
    (hnext : nextSegment startP c = (segment, rest, query)) :
    uriPairsFrom startP c optionType = ⟨optionType, segment⟩ ::
      if query then uriPairsFrom rest 0x26 COAP_OPTION_URI_QUERY
      else uriPairsFrom rest c optionType := by
  have hlt := nextSegment_lt (c := c) h
  rw [hnext] at hlt
  dsimp only at hlt
  obtain ⟨k, hk⟩ : ∃ k, startP.length = k + 1 := ⟨startP.length - 1, by omega⟩
  rw [uriPairsFrom, hk, uriPairsLoop, if_neg (by omega), hnext]
  dsimp only
  rw [uriPairsLoop_eq (by omega), uriPairsLoop_eq (by omega)]

theorem uriPairsFrom_lead (h : 2 ≤ startP.length) (hhead : startP.head? ≠ some c) :
    uriPairsFrom startP c optionType = uriPairsFrom (c :: startP) c optionType := by
  obtain ⟨⟨segment, rest, query⟩, hr⟩ : ∃ r, r = nextSegment startP c := ⟨_, rfl⟩
  have hlead : nextSegment (c :: startP) c = nextSegment startP c := by
    simp [nextSegment, hhead]
  rw [uriPairsFrom_turn h hr.symm,
    uriPairsFrom_turn (h.trans (Nat.le_succ _)) (hlead.trans hr.symm)]

theorem strip_cons (c : UInt8) (s : List UInt8) :
    (if (c :: s).head? = some c then (c :: s).tail else c :: s) = s := if_pos rfl

theorem uriPairsFrom_cut (hc : c ∉ s) :
    uriPairsFrom (c :: (s ++ c :: t)) c optionType =
      ⟨optionType, s⟩ :: uriPairsFrom (c :: t) c optionType := by
  have hlen : 2 ≤ (c :: (s ++ c :: t)).length := by
    simp only [List.length_cons, List.length_append]
    omega
  rw [uriPairsFrom_turn hlen (nextSegment_cut (strip_cons _ _) hc)]
  rfl

theorem uriPairsFrom_end (hs : s ≠ []) (hc : c ∉ s) (hq : 0x3F ∉ s) :
    uriPairsFrom (c :: s) c optionType = [⟨optionType, s⟩] := by
  have hpos := List.length_pos_iff.mpr hs
  rw [uriPairsFrom_turn (by rw [List.length_cons]; omega)
    (nextSegment_end (strip_cons _ _) hc hq)]
  exact congrArg (List.cons _) (uriPairsFrom_short (Nat.zero_le 1))

theorem uriPairsFrom_query (hc : c ∉ s ++ 0x3F :: t) (hq : 0x3F ∉ s) :
    uriPairsFrom (c :: (s ++ 0x3F :: t)) c optionType =
      ⟨optionType, s⟩ :: uriPairsFrom t 0x26 COAP_OPTION_URI_QUERY := by
  have hlen : 2 ≤ (c :: (s ++ 0x3F :: t)).length := by
    simp only [List.length_cons, List.length_append]
    omega
  rw [uriPairsFrom_turn hlen (nextSegment_query (strip_cons _ _) hc hq)]
  rfl

theorem number_of_head_uriPairsFrom :
    ∀ o ∈ (uriPairsFrom startP c optionType).head?, o.number = optionType := by
  intro o ho
  by_cases hshort : startP.length ≤ 1
  · rw [uriPairsFrom_short hshort] at ho
    cases ho
  · obtain ⟨⟨segment, rest, query⟩, hr⟩ : ∃ r, r = nextSegment startP c := ⟨_, rfl⟩
    rw [uriPairsFrom_turn (Nat.not_le.mp hshort) hr.symm] at ho
    obtain rfl := Option.some.inj ho
    rfl

end Turn

def ledBy (c : UInt8) (pieces : List (List UInt8)) : List UInt8 := pieces.flatMap (c :: ·)

section LedBy

variable {c x : UInt8} {s t : List UInt8} {pieces : List (List UInt8)} {optionType : UInt16}

theorem ledBy_cons (c : UInt8) (s : List UInt8) (pieces : List (List UInt8)) :
    ledBy c (s :: pieces) = c :: (s ++ ledBy c pieces) := rfl

theorem ledBy_concat (c : UInt8) (pieces : List (List UInt8)) (s : List UInt8) :
    ∃ t, ledBy c (pieces ++ [s]) = c :: t := by
  cases pieces with
  | nil => exact ⟨s ++ ledBy c [], rfl⟩
  | cons r pieces => exact ⟨r ++ ledBy c (pieces ++ [s]), rfl⟩

theorem intercalate_eq_ledBy (c : UInt8) (s : List UInt8) (pieces : List (List UInt8)) :
    [c].intercalate (s :: pieces) = s ++ ledBy c pieces := by
  induction pieces generalizing s with
  | nil => simp [ledBy]
  | cons t pieces ih =>
    rw [List.intercalate_cons_cons, ih, ledBy_cons]
    simp

theorem uriPairsFrom_ledBy (h : ∀ r ∈ pieces, c ∉ r) :
    uriPairsFrom (ledBy c (pieces ++ [s]) ++ t) c optionType =
      pieces.map (⟨optionType, ·⟩) ++ uriPairsFrom (c :: (s ++ t)) c optionType := by
  induction pieces with
  | nil => simp [ledBy]
  | cons r pieces ih =>
    obtain ⟨u, hu⟩ := ledBy_concat c pieces s
    rw [List.cons_append, ledBy_cons, hu, List.cons_append, List.append_assoc, List.cons_append,
      uriPairsFrom_cut (h r (by simp)), ← List.cons_append, ← hu, ih fun r hr => h r (by simp [hr]),
      List.map_cons, List.cons_append]

end LedBy

/-- A URI of the documented form: a path, and queries or none. -/
structure Uri where
  path : List (List UInt8)
  query : List (List UInt8)
  path_nonempty : path ≠ []
  segment : ∀ s ∈ path, Segment s
  parameter : ∀ q ∈ query, q ≠ [] ∧ 0x26 ∉ q ∧ 0 ∉ q

namespace Uri

def queryText (query : List (List UInt8)) : List UInt8 :=
  if query = [] then [] else 0x3F :: [0x26].intercalate query

/-- The characters of the URI. -/
def text (u : Uri) : List UInt8 := ledBy 0x2F u.path ++ queryText u.query

/-- The options that the documentation names. -/
def options (u : Uri) : List Opt :=
  u.path.map (⟨COAP_OPTION_URI_PATH, ·⟩) ++ u.query.map (⟨COAP_OPTION_URI_QUERY, ·⟩)

/-- Into every message with space for them `setURI` puts the options of the URI, and nothing
else. -/
def Splits (u : Uri) : Prop :=
  ∀ (p : CoapPDU) (hdr : List UInt8) (opts : List Opt),
    p.Growable hdr opts (encodeMessage hdr (insertAll u.options opts) []).length →
    ∃ q, p.setURI u.text = .ok (q, 0) ∧ q.Holds hdr (insertAll u.options opts) [] ∧
      q.numOptions = opts.length + u.options.length

/-- The URIs whose queries do not meet the separators of the wrong stage or the test for the end
of the string. -/
structure Cuttable (u : Uri) : Prop where
  slash : ∀ q ∈ u.query, 0x2F ∉ q
  question : ∀ q ∈ u.query.getLast?, 0x3F ∉ q
  alone : ∀ q, u.query = [q] → 2 ≤ q.length

section Pairs

variable {s q : List UInt8} {queries : List (List UInt8)}

theorem uriPairsFrom_lastQuery (hq : q ≠ []) (hand : 0x26 ∉ q) :
    (0x3F ∉ q → uriPairsFrom (0x26 :: q) 0x26 COAP_OPTION_URI_QUERY =
      [⟨COAP_OPTION_URI_QUERY, q⟩]) ∧
    (0x3F ∈ q → ∃ s pairs, s.length < q.length ∧
      uriPairsFrom (0x26 :: q) 0x26 COAP_OPTION_URI_QUERY =
        ⟨COAP_OPTION_URI_QUERY, s⟩ :: pairs) := by
  refine ⟨uriPairsFrom_end hq hand, fun hmem => ?_⟩
  obtain ⟨s, t, rfl, hs⟩ := List.eq_append_cons_of_mem hmem
  refine ⟨s, _, ?_, uriPairsFrom_query hand hs⟩
  rw [List.length_append, List.length_cons]
  omega

/-- The queries in front of the last one are cut off, and so is that one unless it is a single
character on its own. -/
theorem uriPairsFrom_queries (h : ∀ r ∈ queries ++ [q], r ≠ [] ∧ 0x26 ∉ r) :
    uriPairsFrom ([0x26].intercalate (queries ++ [q])) 0x26 COAP_OPTION_URI_QUERY =
      queries.map (⟨COAP_OPTION_URI_QUERY, ·⟩) ++
        if queries = [] ∧ q.length = 1 then []
        else uriPairsFrom (0x26 :: q) 0x26 COAP_OPTION_URI_QUERY := by
  split_ifs with hone
  · obtain ⟨rfl, hlen⟩ := hone
    exact uriPairsFrom_short (by simp [hlen])
  · obtain ⟨r, rest, hr⟩ := List.exists_cons_of_ne_nil (show queries ++ [q] ≠ [] by simp)
    have hfirst := h r (by simp [hr])
    obtain ⟨b, r, rfl⟩ := List.exists_cons_of_ne_nil hfirst.1
    have htext : [0x26].intercalate (queries ++ [q]) = b :: (r ++ ledBy 0x26 rest) := by
      rw [hr, intercalate_eq_ledBy, List.cons_append]
    have hhead : (b :: (r ++ ledBy 0x26 rest)).head? ≠ some 0x26 :=
      fun hb => hfirst.2 (Option.some.inj hb ▸ List.mem_cons_self)
    have hlen : 2 ≤ (b :: (r ++ ledBy 0x26 rest)).length := by
      by_contra hshort
      obtain ⟨rfl, hrest⟩ : r = [] ∧ ledBy 0x26 rest = [] := by
        rw [List.length_cons, List.length_append] at hshort
        exact ⟨List.length_eq_zero_iff.mp (by omega), List.length_eq_zero_iff.mp (by omega)⟩
      cases rest with
      | cons t rest => simp [ledBy] at hrest
      | nil =>
        rw [← List.nil_append [[b]]] at hr
        obtain ⟨rfl, hq⟩ := List.append_inj' hr rfl
        exact hone ⟨rfl, congrArg List.length (List.singleton_inj.mp hq)⟩
    have hled : 0x26 :: b :: (r ++ ledBy 0x26 rest) = ledBy 0x26 (queries ++ [q]) := by
      rw [hr, ledBy_cons, List.cons_append]
    have hpairs : uriPairsFrom (ledBy 0x26 (queries ++ [q]) ++ []) 0x26 COAP_OPTION_URI_QUERY = _ :=
      uriPairsFrom_ledBy fun r hr => (h r (List.mem_append_left _ hr)).2
    rw [List.append_nil, List.append_nil] at hpairs
    rw [htext, uriPairsFrom_lead hlen hhead, hled, hpairs]

theorem mem_intercalate_iff {x : UInt8} (hx : x ≠ 0x26) {queries : List (List UInt8)} :
    x ∈ [0x26].intercalate queries ↔ ∃ r ∈ queries, x ∈ r := by
  cases queries with
  | nil => simp
  | cons r queries =>
    rw [intercalate_eq_ledBy, List.mem_append, ledBy, List.mem_flatMap]
    simp [hx]

theorem uriPairsFrom_lastSegment (hs : Segment s) (hquery : queries ≠ [])
    (hslash : ∀ r ∈ queries, 0x2F ∉ r) :
    uriPairsFrom (0x2F :: (s ++ queryText queries)) 0x2F COAP_OPTION_URI_PATH =
      ⟨COAP_OPTION_URI_PATH, s⟩ ::
        uriPairsFrom ([0x26].intercalate queries) 0x26 COAP_OPTION_URI_QUERY := by
  obtain ⟨hne, hs', hq, -⟩ := hs
  rw [queryText, if_neg hquery]
  refine uriPairsFrom_query ?_ hq
  rw [List.mem_append, List.mem_cons, mem_intercalate_iff (by decide)]
  rintro (h | h | ⟨r, hr, h⟩)
  · exact hs' h
  · exact absurd h (by decide)
  · exact hslash r hr h

theorem uriPairsFrom_slash (hs : Segment s) {r : List UInt8} (hr : r ∈ queries)
    (hslash : 0x2F ∈ r) : ∃ v t,
      uriPairsFrom (0x2F :: (s ++ queryText queries)) 0x2F COAP_OPTION_URI_PATH =
        ⟨COAP_OPTION_URI_PATH, v⟩ :: uriPairsFrom (0x2F :: t) 0x2F COAP_OPTION_URI_PATH := by
  obtain ⟨a, t, ht, ha⟩ := List.eq_append_cons_of_mem
    ((mem_intercalate_iff (by decide)).mpr ⟨r, hr, hslash⟩)
  refine ⟨s ++ 0x3F :: a, t, ?_⟩
  rw [queryText, if_neg (List.ne_nil_of_mem hr), ht,
    show s ++ 0x3F :: (a ++ 0x2F :: t) = (s ++ 0x3F :: a) ++ 0x2F :: t by simp]
  refine uriPairsFrom_cut ?_
  rw [List.mem_append, List.mem_cons]
  rintro (h | h | h)
  · exact hs.2.1 h
  · exact absurd h (by decide)
  · exact ha h

variable {u : Uri} {segments : List (List UInt8)}

theorem exists_path (u : Uri) : ∃ segments s, u.path = segments ++ [s] :=
  ⟨_, _, (List.dropLast_append_getLast u.path_nonempty).symm⟩

theorem two_le_length_text (u : Uri) : 2 ≤ u.text.length := by
  obtain ⟨s, rest, hpath⟩ := List.exists_cons_of_ne_nil u.path_nonempty
  have hpos := List.length_pos_iff.mpr (u.segment s (by simp [hpath])).1
  rw [text, hpath, ledBy_cons]
  simp only [List.cons_append, List.length_cons, List.length_append]
  omega

theorem uriPairs_text (hpath : u.path = segments ++ [s]) :
    uriPairs u.text = segments.map (⟨COAP_OPTION_URI_PATH, ·⟩) ++
      uriPairsFrom (0x2F :: (s ++ queryText u.query)) 0x2F COAP_OPTION_URI_PATH := by
  rw [uriPairs_of_two_le u.two_le_length_text]
  change uriPairsFrom u.text _ _ = _
  rw [text, hpath]
  exact uriPairsFrom_ledBy fun r hr => (u.segment r (by simp [hpath, hr])).2.1

theorem Cuttable.uriPairs_eq (h : u.Cuttable) : uriPairs u.text = u.options := by
  obtain ⟨segments, s, hpath⟩ := u.exists_path
  have hs := u.segment s (by simp [hpath])
  rw [uriPairs_text hpath, options, hpath, List.map_append, List.append_assoc]
  congr 1
  obtain hquery | ⟨queries, q, hquery⟩ := u.query.eq_nil_or_concat'
  · rw [hquery, queryText, if_pos rfl, List.append_nil]
    exact uriPairsFrom_end hs.1 hs.2.1 hs.2.2.1
  · have hq := u.parameter q (by simp [hquery])
    have hshort : ¬ (queries = [] ∧ q.length = 1) := by
      rintro ⟨rfl, hlen⟩
      have := h.alone q hquery
      omega
    rw [uriPairsFrom_lastSegment hs (by simp [hquery]) h.slash, hquery,
      uriPairsFrom_queries fun r hr => ⟨(u.parameter r (hquery ▸ hr)).1,
        (u.parameter r (hquery ▸ hr)).2.1⟩, if_neg hshort,
      (uriPairsFrom_lastQuery hq.1 hq.2.1).1 (h.question q (by simp [hquery])), List.map_append]
    rfl

theorem slash_of_pairs {f : List UInt8 → List UInt8} (hs : Segment s)
    (h : (uriPairsFrom (0x2F :: (s ++ queryText queries)) 0x2F COAP_OPTION_URI_PATH).map
      (fun o => (⟨o.number, f o.value⟩ : Opt)) = ⟨COAP_OPTION_URI_PATH, s⟩ ::
        queries.map (⟨COAP_OPTION_URI_QUERY, ·⟩)) : ∀ r ∈ queries, 0x2F ∉ r := by
  intro r hr hmem
  obtain ⟨v, t, hpairs⟩ := uriPairsFrom_slash hs hr hmem
  rw [hpairs, List.map_cons] at h
  have hrest := (List.cons.inj h).2
  obtain ⟨q, queries, rfl⟩ := List.exists_cons_of_ne_nil (List.ne_nil_of_mem hr)
  obtain ⟨o, pairs, ho, hq, -⟩ := List.map_eq_cons_iff.mp hrest
  have hpath : o.number = COAP_OPTION_URI_PATH :=
    number_of_head_uriPairsFrom o (Option.mem_def.mpr (congrArg List.head? ho))
  have hquery : o.number = COAP_OPTION_URI_QUERY := congrArg Opt.number hq
  exact absurd (hpath.symm.trans hquery) (by decide)

theorem cuttable_of_pairs {f : List UInt8 → List UInt8} (hf : ∀ v, (f v).length ≤ v.length)
    (h : (uriPairs u.text).map (fun o => ⟨o.number, f o.value⟩) = u.options) : u.Cuttable := by
  obtain ⟨segments, s, hpath⟩ := u.exists_path
  have hs := u.segment s (by simp [hpath])
  rw [uriPairs_text hpath, options, hpath, List.map_append, List.map_append, List.append_assoc,
    List.map_singleton, List.singleton_append] at h
  have hrest := (List.append_inj h (by simp)).2
  have hslash := slash_of_pairs hs hrest
  obtain hquery | ⟨queries, q, hquery⟩ := u.query.eq_nil_or_concat'
  · exact ⟨hslash, by simp [hquery], by simp [hquery]⟩
  · have hparam (r : List UInt8) (hr : r ∈ queries ++ [q]) : r ≠ [] ∧ 0x26 ∉ r :=
      ⟨(u.parameter r (hquery ▸ hr)).1, (u.parameter r (hquery ▸ hr)).2.1⟩
    have hq := hparam q (by simp)
    rw [uriPairsFrom_lastSegment hs (by simp [hquery]) hslash, hquery,
      uriPairsFrom_queries hparam, List.map_cons, List.map_append, List.map_append] at hrest
    have hlast := (List.append_inj (List.cons.inj hrest).2 (by simp)).2
    split_ifs at hlast with hone
    · simp at hlast
    · refine ⟨hslash, fun r hr hmem => ?_, fun r hr => ?_⟩
      · obtain rfl : q = r := by simpa [hquery] using hr
        obtain ⟨v, pairs, hlt, hpairs⟩ := (uriPairsFrom_lastQuery hq.1 hq.2).2 hmem
        rw [hpairs, List.map_cons, List.map_singleton] at hlast
        have hvalue : f v = q := congrArg Opt.value (List.cons.inj hlast).1
        have := hf v
        rw [hvalue] at this
        omega
      · rw [← List.nil_append [r], hquery] at hr
        obtain ⟨rfl, hqr⟩ := List.append_inj' hr rfl
        obtain rfl := List.singleton_inj.mp hqr
        have hpos := List.length_pos_iff.mpr hq.1
        have := not_and.mp hone rfl
        omega

-- `/a?x=/b`: two path segments.
example : uriPairs [0x2F, 0x61, 0x3F, 0x78, 0x3D, 0x2F, 0x62] =
    [⟨COAP_OPTION_URI_PATH, [0x61, 0x3F, 0x78, 0x3D]⟩, ⟨COAP_OPTION_URI_PATH, [0x62]⟩] := by decide

end Pairs

section Order

variable {u : Uri}

theorem sortedFrom_uriPairsLoop (fuel : ℕ) (startP : List UInt8) (c : UInt8) {n : UInt16}
    (hn : n ≤ COAP_OPTION_URI_QUERY) :
    SortedFrom Opt.key n.toNat (uriPairsLoop fuel startP c n) := by
  induction fuel generalizing startP c n with
  | zero => exact trivial
  | succ fuel ih =>
    unfold uriPairsLoop
    split_ifs with hshort
    · exact trivial
    · obtain ⟨segment, rest, query⟩ := nextSegment startP c
      dsimp only
      refine ⟨le_rfl, ?_⟩
      cases query with
      | true => exact (ih rest 0x26 UInt16.le_rfl).mono Opt.key (UInt16.le_iff_toNat_le.mp hn)
      | false => exact ih rest c hn

theorem sortedFrom_uriPairs (u : Uri) : SortedFrom Opt.key 0 (uriPairs u.text) := by
  rw [uriPairs_of_two_le u.two_le_length_text]
  have hle : COAP_OPTION_URI_PATH ≤ COAP_OPTION_URI_QUERY := by decide
  exact (sortedFrom_uriPairsLoop _ _ _ hle).mono Opt.key (Nat.zero_le _)

theorem insertAll_options (u : Uri) : insertAll u.options [] = u.options := by
  rw [insertAll, foldl_insertAfter_eq_insertionSort]
  refine List.Pairwise.insertionSort_eq ?_
  rw [options, List.pairwise_append]
  refine ⟨?_, ?_, ?_⟩
  · exact List.pairwise_map.mpr (List.pairwise_of_forall fun _ _ => le_rfl)
  · exact List.pairwise_map.mpr (List.pairwise_of_forall fun _ _ => le_rfl)
  · intro o ho o' ho'
    obtain ⟨s, -, rfl⟩ := List.mem_map.mp ho
    obtain ⟨q, -, rfl⟩ := List.mem_map.mp ho'
    exact (show (11 : ℕ) ≤ 15 by decide)

theorem growable_grown (b : UInt8) (size : ℕ) : (grown b).Growable (grown b).pdu [] size where
  holds := {
    parses := ⟨[], rfl, .done 0⟩
    header := show 4 = 4 + ((0x40 : UInt8) &&& 0x0F).toNat by decide
    short := by simp
    inside := le_rfl
    buffer := le_rfl }
  maxAdded := rfl
  numOptions := rfl
  space := fun _ => rfl

theorem Splits.map_storedIn (h : u.Splits) (b : UInt8) :
    (uriPairs u.text).map (fun o => ⟨o.number, storedIn b o.value⟩) = u.options := by
  obtain ⟨q, hset, hq, -⟩ := h (grown b) (grown b).pdu [] (growable_grown b _)
  rw [setURI_eq_addUntil _ u.two_le_length_text] at hset
  rw [insertAll_options] at hq
  exact stored_of_addUntil u.sortedFrom_uriPairs hset hq

theorem Splits.cuttable (h : u.Splits) : u.Cuttable :=
  cuttable_of_pairs (fun v => (length_storedIn 0 v).trans_le (Nat.mod_le _ _)) (h.map_storedIn 0)

theorem Splits.short (h : u.Splits) : ∀ s ∈ u.path ++ u.query, s.length ≤ 268 := by
  intro s hs
  refine length_le_of_storedIn fun b => ?_
  have hmap := h.map_storedIn b
  rw [h.cuttable.uriPairs_eq] at hmap
  have hkeep : ∀ o ∈ u.options, storedIn b o.value = o.value := by
    intro o ho
    exact congrArg Opt.value (List.map_inj_left.mp (hmap.trans (List.map_id _).symm) o ho)
  obtain hs | hs := List.mem_append.mp hs
  · exact hkeep ⟨COAP_OPTION_URI_PATH, s⟩ (by simp [options, hs])
  · exact hkeep ⟨COAP_OPTION_URI_QUERY, s⟩ (by simp [options, hs])

/-- `setURI` does what its documentation says exactly for the URIs of short components whose
queries keep out of the way of the loop. -/
theorem splits_iff (u : Uri) :
    u.Splits ↔ u.Cuttable ∧ ∀ s ∈ u.path ++ u.query, s.length ≤ 268 := by
  refine ⟨fun h => ⟨h.cuttable, h.short⟩, ?_⟩
  rintro ⟨hcut, hshort⟩ p hdr opts hp
  have hv : ∀ o ∈ u.options, o.value.length ≤ 268 := by
    intro o ho
    rw [options, List.mem_append, List.mem_map, List.mem_map] at ho
    obtain ⟨s, hs, rfl⟩ | ⟨s, hs, rfl⟩ := ho
    · exact hshort s (List.mem_append_left _ hs)
    · exact hshort s (List.mem_append_right _ hs)
  obtain ⟨q, huntil, hq⟩ := hp.addUntil hv le_rfl
  rw [← hcut.uriPairs_eq, ← setURI_eq_addUntil p u.two_le_length_text] at huntil
  refine ⟨q, huntil, hq.holds, ?_⟩
  rw [hq.numOptions, length_insertAll, Nat.add_comm]

def loneQuery : Uri where
  path := [[0x61]]
  query := [[0x62]]
  path_nonempty := List.cons_ne_nil _ _
  segment := List.forall_mem_singleton.mpr ⟨by decide, by decide, by decide, by decide⟩
  parameter := List.forall_mem_singleton.mpr ⟨by decide, by decide, by decide⟩

/-- One character behind the `?` passes for the end of the string. -/
theorem not_splits_loneQuery : ¬ loneQuery.Splits :=
  fun h => absurd (h.cuttable.alone [0x62] rfl) (by decide)

end Order

end Uri

end Mbtk.Client
