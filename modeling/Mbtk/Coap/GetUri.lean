import Mbtk.Coap.AddOption
import Mbtk.Coap.Build
import Mbtk.Coap.DecodeLaws
import Mbtk.Lib.CopyInto

namespace Mbtk.Coap

open Lib

def intoArray (array : List UInt8) (i : ℕ) (bs : List UInt8) : Exec (List UInt8) :=
  (copyInto array i bs).elim (.error .outOfBounds) .ok

/-- The local variables of `getURI`: the memory at its argument `dst`, how far that pointer has
moved, and the others. -/
structure UriCursor where
  dst : List UInt8
  pos : ℕ
  bytesLeft : ℤ
  separator : UInt8
  firstQuery : Bool

/-- What `getURI` leaves at `dst` and in `*outLen`, and what it returns. -/
structure UriReturn where
  dst : List UInt8
  outLen : ℤ
  result : ℕ
  deriving DecidableEq

/-- At a query the separator changes, and the one behind the last path to the `?`. -/
def UriCursor.startQuery (c : UriCursor) (o : CoapOption) : Exec UriCursor :=
  if o.optionNumber = COAP_OPTION_URI_QUERY then
    if c.firstQuery then do
      let dst ← intoArray c.dst (c.pos - 1) [0x3F]
      return { c with dst, separator := 0x26, firstQuery := false }
    else .ok { c with separator := 0x26 }
  else .ok c

namespace CoapPDU

variable (p : CoapPDU)

def uriTurn (outLen : ℤ) (c : UriCursor) (o : CoapOption) : Exec (UriReturn ⊕ UriCursor) :=
  let oLen := o.optionValueLength.toNat
  if o.optionNumber = COAP_OPTION_URI_PATH ∨ o.optionNumber = COAP_OPTION_URI_QUERY then do
    let c ← c.startQuery o
    if oLen > c.bytesLeft then return .inl ⟨c.dst, outLen, 1⟩
    else if oLen = 1 ∧ (p.optionValue o).head? = some 0x2F then do
      let dst ← intoArray c.dst c.pos [0]
      return .inl ⟨dst, 1, 0⟩
    else do
      let dst ← intoArray c.dst c.pos (p.optionValue o)
      if c.bytesLeft - oLen ≥ 1 then do
        let dst ← intoArray dst (c.pos + oLen) [c.separator]
        return .inr
          { c with dst, pos := c.pos + oLen + 1, bytesLeft := c.bytesLeft - oLen - 1 }
      else return .inl ⟨dst, outLen, 1⟩
  else .ok (.inr c)

def uriLoop (outLen : ℤ) (c : UriCursor) : List CoapOption → Exec (UriReturn ⊕ UriCursor)
  | [] => .ok (.inr c)
  | o :: options => do
    let turn ← p.uriTurn outLen c o
    turn.elim (fun r => .ok (.inl r)) (fun c => uriLoop outLen c options)

/-- `getURI` for pointers that are not NULL. -/
def writeURI (dst : List UInt8) (dstlen outLen : ℤ) : Exec UriReturn :=
  if dstlen ≤ 0 then do
    return ⟨← intoArray dst 0 [0], 0, 1⟩
  else if p.numOptions = 0 then do
    return ⟨← intoArray dst 0 [0], 0, 0⟩
  else if dstlen - 1 ≥ 1 then do
    let dst ← intoArray dst 0 [0x2F]
    let ended ← p.uriLoop outLen ⟨dst, 1, dstlen - 2, 0x2F, true⟩ p.getOptions
    ended.elim .ok fun c => do
      -- The separator behind the last component makes place for the NUL.
      return ⟨← intoArray c.dst (c.pos - 1) [0], dstlen - 1 - (c.bytesLeft + 1), 0⟩
  else return ⟨dst, outLen, 1⟩

/-- `getURI`, with `none` for NULL. -/
def getURI (dst : Option (List UInt8)) (dstlen : ℤ) (outLen : Option ℤ) :
    Exec (Option (List UInt8) × Option ℤ × ℕ) :=
  match dst, outLen with
  | dst, none => .ok (dst, none, 1)
  | none, some _ => .ok (none, some 0, 1)
  | some dst, some outLen => do
    let r ← p.writeURI dst dstlen outLen
    return (some r.dst, some r.outLen, r.result)

end CoapPDU

section Uri

variable {opts : List Opt} {n : UInt16}

def valuesOf (n : UInt16) (opts : List Opt) : List (List UInt8) :=
  (opts.filter (·.number = n)).map (·.value)

/-- The URI of the paths and queries among the options. -/
def uriOf (opts : List Opt) : List UInt8 :=
  (valuesOf COAP_OPTION_URI_PATH opts).flatMap (0x2F :: ·) ++
    if valuesOf COAP_OPTION_URI_QUERY opts = [] then []
    else 0x3F :: [0x26].intercalate (valuesOf COAP_OPTION_URI_QUERY opts)

/-- What a turn adds to the text with its trailing separator, and whether a first query is still
to come. -/
def writeComponent (s : List UInt8 × Bool) (o : Opt) : List UInt8 × Bool :=
  if o.number = COAP_OPTION_URI_QUERY then
    ((if s.2 then s.1.dropLast ++ [0x3F] else s.1) ++ o.value ++ [0x26], false)
  else if o.number = COAP_OPTION_URI_PATH then
    (s.1 ++ o.value ++ [if s.2 then 0x2F else 0x26], s.2)
  else s

theorem valuesOf_append (n : UInt16) (A B : List Opt) :
    valuesOf n (A ++ B) = valuesOf n A ++ valuesOf n B := by
  rw [valuesOf, List.filter_append, List.map_append, valuesOf, valuesOf]

theorem valuesOf_cons (n : UInt16) (o : Opt) (opts : List Opt) : valuesOf n (o :: opts) =
    if o.number = n then o.value :: valuesOf n opts else valuesOf n opts := by
  unfold valuesOf
  split_ifs with h
  · rw [List.filter_cons_of_pos (by simpa using h), List.map_cons]
  · rw [List.filter_cons_of_neg (by simpa using h)]

theorem valuesOf_eq_nil (h : ∀ o ∈ opts, o.number ≠ n) : valuesOf n opts = [] := by
  rw [valuesOf, List.filter_eq_nil_iff.mpr fun o ho => by simpa using h o ho, List.map_nil]

section Component

variable {o : Opt} {w : List UInt8} {first : Bool}

theorem writeComponent_path (h : o.number = COAP_OPTION_URI_PATH) :
    writeComponent (w, first) o = (w ++ o.value ++ [if first then 0x2F else 0x26], first) := by
  rw [writeComponent, if_neg (by rw [h]; decide), if_pos h]

theorem writeComponent_query (h : o.number = COAP_OPTION_URI_QUERY) :
    writeComponent (w, first) o =
      ((if first then w.dropLast ++ [0x3F] else w) ++ o.value ++ [0x26], false) := by
  rw [writeComponent, if_pos h]

theorem writeComponent_other (hpath : o.number ≠ COAP_OPTION_URI_PATH)
    (hquery : o.number ≠ COAP_OPTION_URI_QUERY) : writeComponent (w, first) o = (w, first) := by
  rw [writeComponent, if_neg hquery, if_neg hpath]

end Component

theorem foldl_writeComponent_paths (h : ∀ o ∈ opts, o.number ≠ COAP_OPTION_URI_QUERY)
    (w : List UInt8) : opts.foldl writeComponent (w ++ [0x2F], true) =
      (w ++ (valuesOf COAP_OPTION_URI_PATH opts).flatMap (0x2F :: ·) ++ [0x2F], true) := by
  induction opts generalizing w with
  | nil => simp [valuesOf]
  | cons o opts ih =>
    have ih := fun w => ih (fun o ho => h o (by simp [ho])) w
    rw [List.foldl_cons, valuesOf_cons]
    by_cases hpath : o.number = COAP_OPTION_URI_PATH
    · rw [writeComponent_path hpath, if_pos hpath, List.flatMap_cons]
      simpa using ih (w ++ 0x2F :: o.value)
    · rw [writeComponent_other hpath (h o (by simp)), if_neg hpath]
      exact ih w

theorem foldl_writeComponent_queries (h : ∀ o ∈ opts, o.number ≠ COAP_OPTION_URI_PATH)
    (w : List UInt8) : opts.foldl writeComponent (w, false) =
      (w ++ (valuesOf COAP_OPTION_URI_QUERY opts).flatMap (· ++ [0x26]), false) := by
  induction opts generalizing w with
  | nil => simp [valuesOf]
  | cons o opts ih =>
    have ih := fun w => ih (fun o ho => h o (by simp [ho])) w
    rw [List.foldl_cons, valuesOf_cons]
    by_cases hquery : o.number = COAP_OPTION_URI_QUERY
    · rw [writeComponent_query hquery, if_pos hquery, List.flatMap_cons, ih]
      simp
    · rw [writeComponent_other (h o (by simp)) hquery, if_neg hquery]
      exact ih w

theorem foldl_writeComponent_tail (h : ∀ o ∈ opts, o.number ≠ COAP_OPTION_URI_PATH)
    (w : List UInt8) : (opts.foldl writeComponent (w ++ [0x2F], true)).1 =
      w ++ if valuesOf COAP_OPTION_URI_QUERY opts = [] then [0x2F]
        else 0x3F :: (valuesOf COAP_OPTION_URI_QUERY opts).flatMap (· ++ [0x26]) := by
  induction opts with
  | nil => simp [valuesOf]
  | cons o opts ih =>
    have hrest : ∀ o ∈ opts, o.number ≠ COAP_OPTION_URI_PATH := fun o ho => h o (by simp [ho])
    rw [List.foldl_cons, valuesOf_cons]
    by_cases hquery : o.number = COAP_OPTION_URI_QUERY
    · rw [writeComponent_query hquery, if_pos hquery, if_neg (List.cons_ne_nil _ _),
        List.flatMap_cons, foldl_writeComponent_queries hrest]
      simp
    · rw [writeComponent_other (h o (by simp)) hquery, if_neg hquery]
      exact ih hrest

theorem flatMap_append_eq {α : Type} (x : α) (l : List (List α)) (h : l ≠ []) :
    l.flatMap (· ++ [x]) = [x].intercalate l ++ [x] := by
  induction l with
  | nil => exact absurd rfl h
  | cons a l ih =>
    cases l with
    | nil => simp [List.intercalate]
    | cons b l =>
      rw [List.flatMap_cons, ih (by simp)]
      simp [List.intercalate]

theorem foldl_writeComponent (hs : SortedFrom Opt.key 0 opts) :
    ∃ separator, (opts.foldl writeComponent ([0x2F], true)).1 = uriOf opts ++ [separator] := by
  obtain ⟨A, B, rfl, hA, hB⟩ := exists_split hs 14
  have hApath : valuesOf COAP_OPTION_URI_QUERY A = [] := valuesOf_eq_nil fun o ho heq =>
    absurd (heq ▸ hA o ho) (by decide)
  have hBquery : valuesOf COAP_OPTION_URI_PATH B = [] := valuesOf_eq_nil fun o ho heq =>
    absurd (heq ▸ hB o ho) (by decide)
  have hAquery : ∀ o ∈ A, o.number ≠ COAP_OPTION_URI_QUERY := fun o ho heq =>
    absurd (heq ▸ hA o ho) (by decide)
  have hfold := foldl_writeComponent_paths hAquery []
  rw [List.nil_append, List.nil_append] at hfold
  rw [List.foldl_append, hfold, foldl_writeComponent_tail fun o ho heq =>
    absurd (heq ▸ hB o ho) (by decide), uriOf, valuesOf_append, valuesOf_append, hApath, hBquery,
    List.append_nil, List.nil_append]
  by_cases hquery : valuesOf COAP_OPTION_URI_QUERY B = []
  · refine ⟨0x2F, ?_⟩
    rw [if_pos hquery, if_pos hquery, List.append_nil]
  · refine ⟨0x26, ?_⟩
    rw [if_neg hquery, if_neg hquery, flatMap_append_eq _ _ hquery, List.append_assoc,
      List.cons_append]

end Uri

section Write

variable {p : CoapPDU} {c : UriCursor} {o : CoapOption} {x : Opt} {size : ℕ}
  {s : List UInt8 × Bool} {bs r array : List UInt8} {i : ℕ}

theorem intoArray_append (h : bs.length ≤ r.length) (hi : i = array.length) :
    intoArray (array ++ r) i bs = .ok (array ++ bs ++ r.drop bs.length) := by
  rw [intoArray, hi, copyInto_append h]
  rfl

/-- The text `s.1` has been written to the array of `size` bytes, and there is a byte for the
NUL. -/
structure UriCursor.Wrote (c : UriCursor) (size : ℕ) (s : List UInt8 × Bool) : Prop where
  dst : ∃ r, c.dst = s.1 ++ r ∧ s.1.length + r.length = size
  pos : c.pos = s.1.length
  bytesLeft : c.bytesLeft = size - 1 - s.1.length
  separator : c.separator = if s.2 then 0x2F else 0x26
  firstQuery : c.firstQuery = s.2
  room : s.1.length < size
  text : s.1 ≠ []

/-- What the pointers of an entry of `getOptions` lead to. -/
structure CoapOption.Is (o : CoapOption) (p : CoapPDU) (x : Opt) : Prop where
  number : o.optionNumber = x.number
  length : o.optionValueLength.toNat = x.value.length
  value : p.optionValue o = x.value

theorem intoArray_last (h : array ≠ []) (b : UInt8) :
    intoArray (array ++ r) (array.length - 1) [b] = .ok (array.dropLast ++ [b] ++ r) := by
  obtain ⟨last, hlast⟩ : ∃ last, array = array.dropLast ++ [last] :=
    ⟨array.getLast h, (List.dropLast_append_getLast h).symm⟩
  have hlen : array.length - 1 = array.dropLast.length := List.length_dropLast.symm
  nth_rewrite 1 [hlast]
  rw [hlen, List.append_assoc, intoArray_append (by simp) rfl]
  rfl

theorem length_dropLast_append (h : array ≠ []) (b : UInt8) :
    (array.dropLast ++ [b]).length = array.length := by
  have := List.length_pos_iff.mpr h
  rw [List.length_append, List.length_dropLast, List.length_singleton]
  omega

theorem UriCursor.Wrote.startQuery (h : c.Wrote size s) (ho : o.optionNumber = x.number) :
    ∃ c', c.startQuery o = .ok c' ∧ c'.Wrote size
      (if x.number = COAP_OPTION_URI_QUERY then
        (if s.2 then s.1.dropLast ++ [0x3F] else s.1, false) else s) := by
  obtain ⟨r, hdst, hsize⟩ := h.dst
  unfold UriCursor.startQuery
  rw [ho, h.firstQuery]
  by_cases hquery : x.number = COAP_OPTION_URI_QUERY
  · rw [if_pos hquery, if_pos hquery]
    by_cases hfirst : s.2 = true
    · have hlen := length_dropLast_append h.text 0x3F
      rw [if_pos hfirst, if_pos hfirst, hdst, h.pos, intoArray_last h.text]
      exact ⟨_, rfl, ⟨r, rfl, by rw [hlen, hsize]⟩, hlen.symm,
        h.bytesLeft.trans (by rw [hlen]), rfl, rfl, hlen.trans_lt h.room, by simp⟩
    · rw [if_neg hfirst, if_neg hfirst]
      exact ⟨_, rfl, ⟨r, hdst, hsize⟩, h.pos, h.bytesLeft, rfl, by simpa using hfirst,
        h.room, h.text⟩
  · rw [if_neg hquery, if_neg hquery]
    exact ⟨c, rfl, h⟩

theorem writeComponent_uri
    (hx : x.number = COAP_OPTION_URI_PATH ∨ x.number = COAP_OPTION_URI_QUERY)
    {t : List UInt8 × Bool} (ht : t = if x.number = COAP_OPTION_URI_QUERY then
      (if s.2 then s.1.dropLast ++ [0x3F] else s.1, false) else s) :
    writeComponent s x = (t.1 ++ x.value ++ [if t.2 then 0x2F else 0x26], t.2) := by
  obtain ⟨w, first⟩ := s
  rw [ht]
  by_cases hquery : x.number = COAP_OPTION_URI_QUERY
  · rw [writeComponent_query hquery, if_pos hquery]
    rfl
  · rw [writeComponent_path (hx.resolve_right hquery), if_neg hquery]

/-- Where the component and the separator behind it fit, with a byte left for the NUL, a turn
writes them.  Else it returns 1. -/
theorem UriCursor.Wrote.turn (h : c.Wrote size s) (ho : o.Is p x)
    (hslash : x.number = COAP_OPTION_URI_PATH ∨ x.number = COAP_OPTION_URI_QUERY →
      x.value ≠ [0x2F]) (outLen : ℤ) :
    if (writeComponent s x).1.length < size then
      ∃ c', p.uriTurn outLen c o = .ok (.inr c') ∧ c'.Wrote size (writeComponent s x)
    else ∃ dst, p.uriTurn outLen c o = .ok (.inl ⟨dst, outLen, 1⟩) ∧ dst.length = size := by
  unfold CoapPDU.uriTurn
  dsimp only
  rw [ho.number, ho.length, ho.value]
  by_cases hx : x.number = COAP_OPTION_URI_PATH ∨ x.number = COAP_OPTION_URI_QUERY
  · obtain ⟨c', hc', hwrote⟩ := h.startQuery ho.number
    generalize ht : (if x.number = COAP_OPTION_URI_QUERY then
      (if s.2 then s.1.dropLast ++ [0x3F] else s.1, false) else s) = t at hwrote
    have hsingle : ¬ (x.value.length = 1 ∧ x.value.head? = some 0x2F) := by
      rintro ⟨hone, hhead⟩
      obtain ⟨b, hb⟩ := List.length_eq_one_iff.mp hone
      rw [hb] at hhead
      exact hslash hx (by rw [hb, Option.some.inj hhead])
    obtain ⟨r, hdst, hsize⟩ := hwrote.dst
    have hleft := hwrote.bytesLeft
    have hlen : (t.1 ++ x.value ++ [if t.2 then 0x2F else 0x26]).length =
        t.1.length + x.value.length + 1 := by
      rw [List.length_append, List.length_append, List.length_singleton]
    rw [if_pos hx, hc', ok_bind, writeComponent_uri hx ht.symm, if_neg hsingle]
    dsimp only
    by_cases hspace : (x.value.length : ℤ) > c'.bytesLeft
    · rw [if_pos hspace, if_neg (by omega)]
      exact ⟨c'.dst, rfl, by rw [hdst, List.length_append, hsize]⟩
    · have hcopy : intoArray c'.dst c'.pos x.value =
          .ok (t.1 ++ x.value ++ r.drop x.value.length) := by
        rw [hdst]
        exact intoArray_append (by omega) hwrote.pos
      rw [if_neg hspace, hcopy, ok_bind]
      by_cases hroom : c'.bytesLeft - x.value.length ≥ 1
      · have hone : [c'.separator].length ≤ (r.drop x.value.length).length := by
          rw [List.length_singleton, List.length_drop]
          omega
        have hpos : c'.pos + x.value.length = (t.1 ++ x.value).length := by
          rw [hwrote.pos, List.length_append]
        rw [if_pos hroom, if_pos (by omega), intoArray_append hone hpos, hwrote.separator]
        refine ⟨_, rfl, ⟨_, rfl, ?_⟩, ?_, ?_, rfl, hwrote.firstQuery, ?_, by simp⟩
        · rw [hlen, List.length_drop, List.length_drop, List.length_singleton]
          omega
        · rw [hlen, hwrote.pos]
        · dsimp only
          rw [hlen]
          omega
        · rw [hlen]
          omega
      · rw [if_neg hroom, if_neg (by omega)]
        refine ⟨_, rfl, ?_⟩
        rw [List.length_append, List.length_append, List.length_drop]
        omega
  · rw [if_neg hx]
    rw [not_or] at hx
    rw [writeComponent_other hx.1 hx.2, if_pos h.room]
    exact ⟨c, rfl, h⟩

theorem length_writeComponent_ge (h : s.1 ≠ []) (x : Opt) :
    s.1.length ≤ (writeComponent s x).1.length ∧ (writeComponent s x).1 ≠ [] := by
  obtain ⟨w, first⟩ := s
  by_cases hquery : x.number = COAP_OPTION_URI_QUERY
  · rw [writeComponent_query hquery]
    refine ⟨?_, by simp⟩
    split_ifs
    · have := length_dropLast_append h 0x3F
      simp only [List.length_append] at this ⊢
      omega
    · simp only [List.length_append]
      omega
  · by_cases hpath : x.number = COAP_OPTION_URI_PATH
    · rw [writeComponent_path hpath]
      refine ⟨?_, by simp⟩
      simp only [List.length_append]
      omega
    · rw [writeComponent_other hpath hquery]
      exact ⟨le_rfl, h⟩

theorem length_foldl_writeComponent_ge (h : s.1 ≠ []) (opts : List Opt) :
    s.1.length ≤ (opts.foldl writeComponent s).1.length := by
  induction opts generalizing s with
  | nil => exact le_rfl
  | cons x opts ih =>
    obtain ⟨hle, hne⟩ := length_writeComponent_ge h x
    exact hle.trans (ih hne)

theorem UriCursor.Wrote.loop (h : c.Wrote size s) {options : List CoapOption} {opts : List Opt}
    (ho : List.Forall₂ (fun o x => o.Is p x) options opts)
    (hslash : ∀ x ∈ opts, x.number = COAP_OPTION_URI_PATH ∨ x.number = COAP_OPTION_URI_QUERY →
      x.value ≠ [0x2F]) (outLen : ℤ) :
    if (opts.foldl writeComponent s).1.length < size then
      ∃ c', p.uriLoop outLen c options = .ok (.inr c') ∧
        c'.Wrote size (opts.foldl writeComponent s)
    else ∃ dst, p.uriLoop outLen c options = .ok (.inl ⟨dst, outLen, 1⟩) ∧ dst.length = size := by
  induction ho generalizing c s with
  | nil =>
    rw [List.foldl_nil, if_pos h.room]
    exact ⟨c, rfl, h⟩
  | @cons o x options opts hx _ ih =>
    have hturn := h.turn hx (hslash x (by simp)) outLen
    have hslash : ∀ x ∈ opts, _ := fun x hx => hslash x (by simp [hx])
    rw [List.foldl_cons, CoapPDU.uriLoop]
    split_ifs at hturn with hfits
    · obtain ⟨c', hc', hwrote⟩ := hturn
      rw [hc', ok_bind]
      exact ih hwrote hslash
    · obtain ⟨dst, hreturn, hlen⟩ := hturn
      have hge := length_foldl_writeComponent_ge (length_writeComponent_ge h.text x).2 opts
      rw [hreturn, ok_bind, if_neg (by omega)]
      exact ⟨dst, rfl, hlen⟩

end Write

namespace CoapPDU

section GetURI

variable {p : CoapPDU} {hdr pay dst : List UInt8} {opts : List Opt}

theorem Holds.getOptions_is (h : p.Holds hdr opts pay) (hnum : p.numOptions = opts.length) :
    List.Forall₂ (fun o x => o.Is p x) p.getOptions opts := by
  have hlist := h.getOptions_eq hnum
  have hshort := h.short
  generalize p.getOptions = options at hlist
  clear h hnum
  induction opts generalizing options with
  | nil =>
    rw [List.map_nil, List.map_eq_nil_iff] at hlist
    rw [hlist]
    exact .nil
  | cons x opts ih =>
    obtain _ | ⟨o, options⟩ := options
    · simp at hlist
    · rw [List.map_cons, List.map_cons, List.cons.injEq, Prod.mk.injEq] at hlist
      obtain ⟨⟨hlen, hopt⟩, hrest⟩ := hlist
      refine .cons ⟨?_, ?_, ?_⟩ (ih (fun x hx => hshort x (by simp [hx])) options hrest)
      · rw [← hopt]
      · rw [hlen, UInt16.toNat_ofNat', Nat.mod_eq_of_lt (hshort x (by simp))]
      · rw [← hopt]

/-- `getURI` stays inside the array `dst` and succeeds exactly if the URI and its NUL have space
there, which is where they then are. -/
def RebuildsURI (p : CoapPDU) (opts : List Opt) (dst : List UInt8) (outLen : ℤ) : Prop :=
  ∃ r : UriReturn, p.getURI (some dst) dst.length (some outLen) =
      .ok (some r.dst, some r.outLen, r.result) ∧
    r.dst.length = dst.length ∧
    (r.result = 0 ↔ (uriOf opts).length + 1 ≤ dst.length) ∧
    (r.result = 0 → uriOf opts ++ [0] <+: r.dst ∧ r.outLen = (uriOf opts).length)

theorem Holds.writeURI (h : p.Holds hdr opts pay) (hnum : p.numOptions = opts.length)
    (hpos : 1 ≤ dst.length) (hne : opts ≠ [])
    (hslash : ∀ x ∈ opts, x.number = COAP_OPTION_URI_PATH ∨ x.number = COAP_OPTION_URI_QUERY →
      x.value ≠ [0x2F]) (outLen : ℤ) :
    if (uriOf opts).length + 2 ≤ dst.length then
      ∃ r, p.writeURI dst dst.length outLen = .ok ⟨uriOf opts ++ [0] ++ r, (uriOf opts).length, 0⟩
        ∧ (uriOf opts ++ [0] ++ r).length = dst.length
    else ∃ dst', p.writeURI dst dst.length outLen = .ok ⟨dst', outLen, 1⟩ ∧
      dst'.length = dst.length := by
  obtain ⟨b, dst, rfl⟩ := List.exists_cons_of_ne_nil (List.length_pos_iff.mp hpos)
  have hnum0 : p.numOptions ≠ 0 := by rwa [hnum, ne_eq, List.length_eq_zero_iff]
  have hlen : (b :: dst).length = dst.length + 1 := List.length_cons
  have hdstlen : ¬ ((b :: dst).length : ℤ) ≤ 0 := by omega
  unfold CoapPDU.writeURI
  rw [if_neg hdstlen, if_neg hnum0]
  by_cases hone : ((b :: dst).length : ℤ) - 1 ≥ 1
  · have hstart : intoArray (b :: dst) 0 [0x2F] = .ok (0x2F :: dst) := by
      have hone : [(0x2F : UInt8)].length ≤ (b :: dst).length := by simp
      exact intoArray_append hone (show 0 = ([] : List UInt8).length from rfl)
    have hwrote : UriCursor.Wrote ⟨0x2F :: dst, 1, ((b :: dst).length : ℤ) - 2, 0x2F, true⟩
        (b :: dst).length ([0x2F], true) :=
      ⟨⟨dst, rfl, by simp [Nat.add_comm]⟩, rfl, by simp; omega, rfl, rfl,
        by rw [List.length_singleton]; omega, by simp⟩
    obtain ⟨separator, htext⟩ := foldl_writeComponent h.sorted
    have hloop := hwrote.loop (h.getOptions_is hnum) hslash outLen
    rw [htext, List.length_append, List.length_singleton] at hloop
    rw [if_pos hone, hstart, ok_bind]
    split_ifs at hloop with hfits
    · obtain ⟨c', hc', hwrote'⟩ := hloop
      obtain ⟨r, hdst, hsize⟩ := hwrote'.dst
      rw [htext] at hdst hsize
      have hlast : intoArray c'.dst (c'.pos - 1) [0] = .ok (uriOf opts ++ [0] ++ r) := by
        rw [hdst, hwrote'.pos, htext, intoArray_last (by simp), List.dropLast_concat]
      have hleft := hwrote'.bytesLeft
      rw [htext, List.length_append, List.length_singleton] at hleft
      have hspace : (uriOf opts).length + 2 ≤ (b :: dst).length := by omega
      rw [if_pos hspace, hc', ok_bind, Sum.elim_inr, hlast, ok_bind]
      refine ⟨r, ?_, ?_⟩
      · rw [pure_eq_ok, Except.ok.injEq, UriReturn.mk.injEq]
        exact ⟨rfl, by omega, rfl⟩
      · rw [← hsize]
        simp only [List.length_append, List.length_singleton]
    · obtain ⟨dst', hreturn, hsize⟩ := hloop
      have hspace : ¬ (uriOf opts).length + 2 ≤ (b :: dst).length := by omega
      rw [if_neg hspace, hreturn]
      exact ⟨dst', rfl, hsize⟩
  · have hspace : ¬ (uriOf opts).length + 2 ≤ (b :: dst).length := by omega
    rw [if_neg hone, if_neg hspace]
    exact ⟨b :: dst, rfl, rfl⟩

/-- The URI is rebuilt in any array but the one that is just long enough. -/
theorem rebuildsURI_iff (p : CoapPDU) (hdr : List UInt8) (opts : List Opt) (pay dst : List UInt8)
    (outLen : ℤ) (h : p.Holds hdr opts pay) (hnum : p.numOptions = opts.length)
    (hany : ∃ x ∈ opts, x.number = COAP_OPTION_URI_PATH ∨ x.number = COAP_OPTION_URI_QUERY)
    (hvalue : ∀ x ∈ opts, x.number = COAP_OPTION_URI_PATH ∨ x.number = COAP_OPTION_URI_QUERY →
      x.value ≠ [] ∧ ∀ b ∈ x.value, b ≠ 0x2F ∧ b ≠ 0x3F ∧ b ≠ 0x26 ∧ b ≠ 0)
    (hpos : 1 ≤ dst.length) :
    p.RebuildsURI opts dst outLen ↔ dst.length ≠ (uriOf opts).length + 1 := by
  obtain ⟨x, hx, -⟩ := hany
  have hwrite := h.writeURI hnum hpos (List.ne_nil_of_mem hx)
    (fun x hx hn heq => ((hvalue x hx hn).2 0x2F (by simp [heq])).1 rfl) outLen
  have hget : p.getURI (some dst) dst.length (some outLen) = (do
      let r ← p.writeURI dst dst.length outLen
      return (some r.dst, some r.outLen, r.result)) := rfl
  unfold RebuildsURI
  rw [hget]
  split_ifs at hwrite with hfits
  · obtain ⟨r, hr, hlen⟩ := hwrite
    rw [hr]
    refine iff_of_true ⟨_, rfl, hlen, iff_of_true rfl (by omega), fun _ => ⟨?_, rfl⟩⟩ (by omega)
    exact List.prefix_append _ r
  · obtain ⟨dst', hr, hlen⟩ := hwrite
    rw [hr]
    constructor
    · rintro ⟨r, hreturn, -, hresult, -⟩ hexact
      obtain ⟨-, hone⟩ := Prod.mk.inj (Prod.mk.inj (Except.ok.inj hreturn)).2
      rw [← hone] at hresult
      exact absurd (hresult.mpr (by omega)) one_ne_zero
    · intro hne
      exact ⟨_, rfl, hlen, iff_of_false one_ne_zero (by omega), fun h => absurd h one_ne_zero⟩

def pathA : CoapPDU :=
  { received 0 [0x40, 0x01, 0x00, 0x01, 0xB1, 0x61] [] with numOptions := 1 }

theorem pathA_holds : pathA.Holds [0x40, 0x01, 0x00, 0x01] [⟨11, [0x61]⟩] [] :=
  .of_encode (w := []) rfl rfl (by decide) (by simp) (by simp) (by decide)

theorem rebuildsURI_pathA : pathA.RebuildsURI [⟨11, [0x61]⟩] [1, 1, 1, 1] 0 :=
  (rebuildsURI_iff pathA _ _ _ [1, 1, 1, 1] 0 pathA_holds rfl (by decide)
    (by
      intro x hx
      obtain rfl := List.mem_singleton.mp hx
      exact fun _ => ⟨by decide, List.forall_mem_singleton.mpr (by decide)⟩)
    (by decide)).mpr (by decide)

/-- Three bytes have space for `/a` and its NUL. -/
theorem not_rebuildsURI_pathA : pathA.Holds [0x40, 0x01, 0x00, 0x01] [⟨11, [0x61]⟩] [] ∧
    pathA.numOptions = 1 ∧ uriOf [⟨11, [0x61]⟩] = [0x2F, 0x61] ∧
    pathA.getURI (some [1, 1, 1]) 3 (some 0) = .ok (some [0x2F, 0x61, 1], some 0, 1) ∧
    ¬ pathA.RebuildsURI [⟨11, [0x61]⟩] [1, 1, 1] 0 := by
  refine ⟨pathA_holds, rfl, rfl, rfl, ?_⟩
  rintro ⟨r, hr, -, hresult, -⟩
  have hone : 1 = r.result := (Prod.mk.inj (Prod.mk.inj (Except.ok.inj hr)).2).2
  exact absurd (hone.trans (hresult.mpr (by decide))) one_ne_zero

end GetURI

end CoapPDU

end Mbtk.Coap
