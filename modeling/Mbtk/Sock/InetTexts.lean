import Mbtk.Sock.InetAddresses

namespace Mbtk.Sock

open Lib

section Shift

variable {front back : List UInt8} {k : ℕ}

theorem set_length_append {α : Type} (l m : List α) (a b : α) :
    (l ++ a :: m).set l.length b = l ++ b :: m := by
  rw [List.set_append_right _ _ le_rfl, Nat.sub_self, List.set_cons_zero]

theorem getD_length_append {α : Type} (l m : List α) (a b : α) :
    (l ++ a :: m).getD l.length b = a := by
  simp

theorem turn_room (l zeros back : List UInt8) (b : UInt8) :
    ((l ++ b :: (zeros ++ 0 :: back)).set (l.length + zeros.length + 1)
        ((l ++ b :: (zeros ++ 0 :: back)).getD l.length 0)).set l.length 0 =
      l ++ 0 :: (zeros ++ b :: back) := by
  have hfirst : (l ++ b :: (zeros ++ 0 :: back)).set (l.length + zeros.length + 1) b =
      l ++ b :: (zeros ++ b :: back) := by
    simp [Nat.add_assoc]
  rw [getD_length_append, hfirst, set_length_append]

theorem shiftLoop_room (front mid back : List UInt8) (gap : ℕ)
    (h : front.length + mid.length + (gap + 1) + back.length = IN6ADDRSZ) :
    shiftLoop front.length (mid.length + back.length) mid.length (back.length + 1)
        (front ++ mid ++ List.replicate (gap + 1) 0 ++ back) =
      front ++ List.replicate (gap + 1) 0 ++ mid ++ back := by
  induction mid using List.reverseRecOn generalizing back with
  | nil => simp [shiftLoop]
  | append_singleton mid b ih =>
    rw [List.length_append, List.length_singleton] at h ⊢
    have htmp : front ++ (mid ++ [b]) ++ List.replicate (gap + 1) 0 ++ back =
        front ++ mid ++ b :: (List.replicate gap 0 ++ 0 :: back) := by
      simp [List.replicate_succ']
    have hsrc : front.length + (mid.length + 1 + back.length) - (back.length + 1) =
        (front ++ mid).length := by
      rw [List.length_append]
      omega
    have hdst : IN6ADDRSZ - (back.length + 1) =
        (front ++ mid).length + (List.replicate gap (0 : UInt8)).length + 1 := by
      rw [List.length_append, List.length_replicate]
      omega
    rw [shiftLoop, hsrc, hdst, htmp, turn_room]
    have hrest := ih (b :: back) (by rw [List.length_cons]; omega)
    rw [List.length_cons, ← Nat.add_assoc, Nat.add_right_comm] at hrest
    refine Eq.trans ?_ (hrest.trans (by simp))
    simp [List.replicate_succ]

theorem shiftLoop_full (front mid : List UInt8) (k : ℕ)
    (h : front.length + mid.length + k = IN6ADDRSZ) :
    shiftLoop front.length (mid.length + k) mid.length (k + 1)
        (front ++ mid ++ List.replicate k 0) =
      front ++ List.replicate (mid.length + k) 0 := by
  induction mid using List.reverseRecOn generalizing k with
  | nil => simp [shiftLoop]
  | append_singleton mid b ih =>
    rw [List.length_append, List.length_singleton] at h ⊢
    have htmp : front ++ (mid ++ [b]) ++ List.replicate k 0 =
        front ++ mid ++ b :: List.replicate k 0 := by simp
    have hsrc : front.length + (mid.length + 1 + k) - (k + 1) = (front ++ mid).length := by
      rw [List.length_append]
      omega
    have hdst : IN6ADDRSZ - (k + 1) = (front ++ mid).length := by
      rw [List.length_append]
      omega
    rw [shiftLoop, hsrc, hdst, htmp, getD_length_append, set_length_append, set_length_append,
      ← List.replicate_succ]
    have hrest := ih (k + 1) (by omega)
    rwa [← Nat.add_assoc, Nat.add_right_comm] at hrest

def spread (front back : List UInt8) : List UInt8 :=
  if front.length + back.length < IN6ADDRSZ then
    front ++ List.replicate (IN6ADDRSZ - front.length - back.length) 0 ++ back
  else front ++ List.replicate back.length 0

theorem pton6End_some {s : Pton6} (hcolonp : s.colonp = some front.length)
    (htmp : s.tmp = front ++ back) (h : front.length + back.length ≤ IN6ADDRSZ) :
    pton6End s = some (spread front back) := by
  rw [pton6End, hcolonp, htmp]
  dsimp only
  rw [List.length_append, Nat.add_sub_cancel_left, Nat.sub_add_eq, spread]
  split_ifs with hroom
  · obtain ⟨gap, hgap⟩ := Nat.exists_eq_add_of_lt hroom
    have hshift := shiftLoop_room front back [] gap (by rw [hgap]; rfl)
    rw [show IN6ADDRSZ - front.length - back.length = gap + 1 by omega]
    simpa using hshift
  · have hshift := shiftLoop_full front back 0 (by omega)
    rw [show IN6ADDRSZ - front.length - back.length = 0 by omega]
    simpa using hshift

theorem pton6End_none {s : Pton6} (hcolonp : s.colonp = none) :
    pton6End s = if s.tmp.length = IN6ADDRSZ then some s.tmp else none := by
  rw [pton6End, hcolonp]
  dsimp only
  split_ifs with hlen
  · rw [hlen, Nat.sub_self, List.replicate_zero, List.append_nil]
  · rfl

end Shift

section Grammar

/-- Groups with a colon behind each. -/
inductive Groups : List UInt8 → List UInt8 → Prop
  | nil : Groups [] []
  | cons {t rest bytes bytes' : List UInt8} : IsGroup t bytes → Groups rest bytes' →
      Groups (t ++ 0x3A :: rest) (bytes ++ bytes')

/-- The texts of an address.  Behind the last group, too, a single colon may stand. -/
inductive Address : List UInt8 → List UInt8 → Prop
  | full {t l front back : List UInt8} : Groups t front → Last l back →
      front.length + back.length = IN6ADDRSZ → Address (t ++ l) (front ++ back)
  | leading {u l mid back : List UInt8} : Groups u mid → Last l back →
      mid.length + back.length ≤ IN6ADDRSZ →
      Address (0x3A :: 0x3A :: (u ++ l)) (spread [] (mid ++ back))
  | inner {t u l front mid back : List UInt8} : t ≠ [] → Groups t front → Groups u mid →
      Last l back → front.length + (mid.length + back.length) ≤ IN6ADDRSZ →
      Address (t ++ 0x3A :: (u ++ l)) (spread front (mid ++ back))

variable {text t src rest front tmp tmp' bytes dst : List UInt8} {colonp colonp' : Option ℕ}

theorem IsGroup.length_eq (h : IsGroup t bytes) : bytes.length = INT16SZ := by
  obtain ⟨-, v, -, -, rfl⟩ := h
  rfl

theorem Tokens.length_le (h : Tokens tmp colonp text tmp' colonp') :
    tmp.length ≤ tmp'.length ∧ tmp'.length ≤ IN6ADDRSZ := by
  induction h with
  | last _ hlen =>
    rw [List.length_append]
    exact ⟨Nat.le_add_right _ _, hlen⟩
  | group _ _ _ ih =>
    rw [List.length_append] at ih
    omega
  | colon _ ih => exact ih

theorem Groups.tokens (h : Groups t front) (hlen : tmp.length + front.length ≤ IN6ADDRSZ)
    (hrest : Tokens (tmp ++ front) colonp rest tmp' colonp') :
    Tokens tmp colonp (t ++ rest) tmp' colonp' := by
  induction h generalizing tmp with
  | nil => rwa [List.append_nil] at hrest
  | cons hgroup _ ih =>
    have hbytes := hgroup.length_eq
    rw [List.length_append] at hlen
    rw [List.append_assoc, List.cons_append]
    refine .group hgroup (by omega) (ih ?_ (by rwa [List.append_assoc]))
    rw [List.length_append]
    omega

theorem Tokens.exists_groups (h : Tokens tmp colonp text tmp' colonp') :
    ∃ t front rest, Groups t front ∧ text = t ++ rest ∧
      ((∃ back, Last rest back ∧ tmp' = tmp ++ front ++ back ∧ colonp' = colonp) ∨
        ∃ rest', rest = 0x3A :: rest' ∧ colonp = none ∧
          Tokens (tmp ++ front) (some (tmp ++ front).length) rest' tmp' colonp') := by
  induction h with
  | @last tmp t bytes colonp hlast _ =>
    exact ⟨[], [], t, .nil, rfl, .inl ⟨bytes, hlast, by rw [List.append_nil], rfl⟩⟩
  | @group tmp t bytes rest tmp' colonp colonp' hgroup _ _ ih =>
    obtain ⟨u, front, rest', hu, rfl, hend⟩ := ih
    refine ⟨_, _, rest', .cons hgroup hu, by rw [List.append_assoc, List.cons_append], ?_⟩
    rwa [← List.append_assoc]
  | @colon tmp rest tmp' colonp' hrest _ =>
    exact ⟨[], [], _, .nil, rfl, .inr ⟨rest, rfl, rfl, by rwa [List.append_nil]⟩⟩

/-- The texts behind the treatment of a leading `::`. -/
inductive Body : List UInt8 → List UInt8 → Prop
  | full {t l front back : List UInt8} : Groups t front → Last l back →
      front.length + back.length = IN6ADDRSZ → Body (t ++ l) (front ++ back)
  | gap {t u l front mid back : List UInt8} : Groups t front → Groups u mid → Last l back →
      front.length + (mid.length + back.length) ≤ IN6ADDRSZ →
      Body (t ++ 0x3A :: (u ++ l)) (spread front (mid ++ back))

theorem pton6From_eq : pton6From src =
    (pton6Tokens src ⟨[], none, src, false, 0⟩).bind fun r =>
      pton6End ⟨r.1, r.2, [], false, 0⟩ := by
  unfold pton6From pton6Tokens
  cases pton6Loop src ⟨[], none, src, false, 0⟩ with
  | none => rfl
  | some s => cases h : pton6Finish s <;> simp [h, pton6End]

theorem pton6From_iff : pton6From src = some dst ↔ Body src dst := by
  have hreads : Pton6.Reads ⟨[], none, src, false, 0⟩ [] src :=
    ⟨by simp, rfl, Nat.zero_le _, rfl, Nat.zero_le _⟩
  rw [pton6From_eq, Option.bind_eq_some_iff]
  constructor
  · rintro ⟨⟨tmp, colonp⟩, htokens, hend⟩
    obtain ⟨t, front, rest, ht, rfl, hcase⟩ := ((pton6Tokens_iff hreads).mp htokens).exists_groups
    obtain ⟨back, hlast, rfl, rfl⟩ | ⟨rest', rfl, -, hrest⟩ := hcase
    · rw [pton6End_none rfl] at hend
      split_ifs at hend with hlen
      rw [List.nil_append, List.length_append] at hlen
      exact Option.some.inj hend ▸ .full ht hlast hlen
    · have hle := hrest.length_le.2
      obtain ⟨u, mid, l, hu, rfl, ⟨back, hl, rfl, rfl⟩ | ⟨_, _, hfalse, _⟩⟩ := hrest.exists_groups
      · simp only [List.nil_append, List.append_assoc, List.length_append] at hend hle
        rw [pton6End_some rfl rfl (by rwa [List.length_append])] at hend
        exact Option.some.inj hend ▸ .gap ht hu hl hle
      · cases hfalse
  · rintro (⟨ht, hl, hlen⟩ | ⟨ht, hu, hl, hlen⟩)
    · rename_i t l front back
      refine ⟨(front ++ back, none), (pton6Tokens_iff hreads).mpr ?_, ?_⟩
      · exact ht.tokens (by simp; omega) (.last hl (by simpa using hlen.le))
      · rw [pton6End_none rfl, if_pos (by rwa [List.length_append])]
    · rename_i t u l front mid back
      refine ⟨(front ++ (mid ++ back), some front.length), (pton6Tokens_iff hreads).mpr ?_, ?_⟩
      · refine ht.tokens (by simp; omega) (.colon (hu.tokens (by simp; omega) ?_))
        rw [← List.append_assoc]
        exact .last hl (by simp; omega)
      · exact pton6End_some rfl rfl (by rwa [List.length_append])

theorem Groups.head (h : Groups t front) (hne : t ≠ []) (l : List UInt8) :
    (t ++ l).head? ≠ some 0x3A := by
  cases h with
  | nil => exact absurd rfl hne
  | cons hgroup _ =>
    obtain ⟨c, text, rfl⟩ := List.exists_cons_of_ne_nil hgroup.1
    rintro heq
    cases heq
    exact hgroup.not_colon List.mem_cons_self

theorem Groups.head_last {l back : List UInt8} (h : Groups t front) (hl : Last l back) :
    (t ++ l).head? ≠ some 0x3A := by
  by_cases hne : t = []
  · rw [hne, List.nil_append]
    exact fun heq => hl.not_colon (List.mem_of_mem_head? heq)
  · exact h.head hne l

theorem Groups.eq_nil {l : List UInt8} (h : Groups t front)
    (heq : (t ++ l).head? = some 0x3A) : t = [] ∧ front = [] := by
  have hnil : t = [] := not_not.mp fun hne => h.head hne l heq
  cases h with
  | nil => exact ⟨rfl, rfl⟩
  | cons => simp at hnil

theorem inetPton6_iff : inetPton6 src = some dst ↔ Address src dst := by
  unfold inetPton6
  split
  case h_1 rest =>
    rw [pton6From_iff]
    constructor
    · intro h
      generalize htext : 0x3A :: rest = text at h
      cases h with
      | full ht hl _ => exact absurd (congrArg List.head? htext.symm) (ht.head_last hl)
      | gap ht hu hl hlen =>
        obtain ⟨rfl, rfl⟩ := ht.eq_nil (congrArg List.head? htext.symm)
        cases htext
        exact .leading hu hl (by simpa using hlen)
    · intro h
      generalize htext : 0x3A :: 0x3A :: rest = text at h
      cases h with
      | full ht hl _ => exact absurd (congrArg List.head? htext.symm) (ht.head_last hl)
      | leading hu hl hlen =>
        cases htext
        exact .gap .nil hu hl (by simpa using hlen)
      | inner hne ht _ _ _ => exact absurd (congrArg List.head? htext.symm) (ht.head hne _)
  case h_2 rest hrest =>
    refine iff_of_false nofun fun h => ?_
    generalize htext : 0x3A :: rest = text at h
    cases h with
    | full ht hl _ => exact absurd (congrArg List.head? htext.symm) (ht.head_last hl)
    | leading hu hl hlen =>
      cases htext
      exact hrest _ rfl
    | inner hne ht _ _ _ => exact absurd (congrArg List.head? htext.symm) (ht.head hne _)
  case h_3 hfirst hsecond =>
    rw [pton6From_iff]
    constructor
    · intro h
      cases h with
      | full ht hl hlen => exact .full ht hl hlen
      | @gap t u l front mid back ht hu hl hlen =>
        refine .inner ?_ ht hu hl hlen
        rintro rfl
        exact hsecond _ rfl
    · intro h
      cases h with
      | full ht hl hlen => exact .full ht hl hlen
      | leading hu hl hlen => exact absurd rfl (hfirst _)
      | inner hne ht hu hl hlen => exact .gap ht hu hl hlen

end Grammar

section Texts

def hexChar (n : ℕ) : UInt8 := xdigitsL.getD n 0

def groupText (g : UInt8 × UInt8) : List UInt8 :=
  [hexChar (g.1.toNat / 16), hexChar (g.1.toNat % 16), hexChar (g.2.toNat / 16),
    hexChar (g.2.toNat % 16)]

/-- The groups with a colon between each two. -/
def groupTexts : List (UInt8 × UInt8) → List UInt8
  | [] => []
  | [g] => groupText g
  | g :: gs => groupText g ++ 0x3A :: groupTexts gs

def groupBytes (gs : List (UInt8 × UInt8)) : List UInt8 := gs.flatMap fun g => [g.1, g.2]

variable {front zeros back gs : List (UInt8 × UInt8)} {g : UInt8 × UInt8}

theorem xdigit_hexChar : ∀ n < 16, xdigit (hexChar n) = some n := by decide

theorem isGroup_groupText (g : UInt8 × UInt8) : IsGroup (groupText g) [g.1, g.2] := by
  have hhi := g.1.toNat_lt
  have hlo := g.2.toNat_lt
  refine ⟨by simp [groupText], g.1.toNat * 256 + g.2.toNat, by omega, ?_, ?_⟩
  · simp only [groupText, numeral, xdigit_hexChar _ (show g.1.toNat / 16 < 16 by omega),
      xdigit_hexChar _ (show g.1.toNat % 16 < 16 by omega),
      xdigit_hexChar _ (show g.2.toNat / 16 < 16 by omega),
      xdigit_hexChar _ (show g.2.toNat % 16 < 16 by omega), Option.bind_some]
    congr 1
    omega
  · have hfst : UInt8.ofNat ((g.1.toNat * 256 + g.2.toNat) / 2 ^ 8) = g.1 := by
      rw [← UInt8.toNat_inj, UInt8.toNat_ofNat']
      omega
    have hsnd : UInt8.ofNat (g.1.toNat * 256 + g.2.toNat) = g.2 := by
      rw [← UInt8.toNat_inj, UInt8.toNat_ofNat']
      omega
    rw [bytes16, Nat.shiftRight_eq_div_pow, hfst, hsnd]

theorem groupBytes_cons (g : UInt8 × UInt8) (gs : List (UInt8 × UInt8)) :
    groupBytes (g :: gs) = [g.1, g.2] ++ groupBytes gs := List.flatMap_cons

theorem groupBytes_append (gs gs' : List (UInt8 × UInt8)) :
    groupBytes (gs ++ gs') = groupBytes gs ++ groupBytes gs' := List.flatMap_append

theorem length_groupBytes (gs : List (UInt8 × UInt8)) :
    (groupBytes gs).length = 2 * gs.length := by
  induction gs with
  | nil => rfl
  | cons g gs ih =>
    rw [groupBytes_cons, List.length_append, ih, List.length_cons]
    simp only [List.length_cons, List.length_nil]
    omega

theorem groupBytes_zeros (h : ∀ g ∈ zeros, g = (0, 0)) :
    groupBytes zeros = List.replicate (2 * zeros.length) 0 := by
  rw [← length_groupBytes]
  refine List.eq_replicate_length.mpr fun b hb => ?_
  obtain ⟨g, hg, hb⟩ := List.mem_flatMap.mp hb
  rw [h g hg] at hb
  simpa using hb

theorem exists_groups_last (gs : List (UInt8 × UInt8)) : ∃ t l bytes bytes', Groups t bytes ∧
    Last l bytes' ∧ groupTexts gs = t ++ l ∧ groupBytes gs = bytes ++ bytes' := by
  induction gs using groupTexts.induct with
  | case1 => exact ⟨[], [], [], [], .nil, .none, rfl, rfl⟩
  | case2 g => exact ⟨[], _, [], _, .nil, .group (isGroup_groupText g), rfl, rfl⟩
  | case3 g gs hne ih =>
    obtain ⟨t, l, bytes, bytes', ht, hl, htext, hbytes⟩ := ih
    refine ⟨_, l, _, bytes', .cons (isGroup_groupText g) ht, hl, ?_, ?_⟩
    · rw [groupTexts, htext]
      · simp
      · exact hne
    · rw [groupBytes_cons, hbytes, List.append_assoc]

theorem groups_groupTexts (hne : gs ≠ []) :
    Groups (groupTexts gs ++ [0x3A]) (groupBytes gs) := by
  induction gs using groupTexts.induct with
  | case1 => exact absurd rfl hne
  | case2 g => exact .cons (isGroup_groupText g) .nil
  | case3 g gs hgs ih =>
    rw [groupTexts, groupBytes_cons]
    · rw [List.append_assoc, List.cons_append]
      exact .cons (isGroup_groupText g) (ih hgs)
    · exact hgs

theorem address_groupTexts (hlen : (front ++ zeros ++ back).length = 8)
    (hzeros : ∀ g ∈ zeros, g = (0, 0)) :
    Address (groupTexts (front ++ zeros ++ back)) (groupBytes (front ++ zeros ++ back)) ∧
      (zeros ≠ [] → Address (groupTexts front ++ [0x3A, 0x3A] ++ groupTexts back)
        (groupBytes (front ++ zeros ++ back))) := by
  have hbytes := length_groupBytes (front ++ zeros ++ back)
  constructor
  · obtain ⟨t, l, bytes, bytes', ht, hl, htext, hsplit⟩ :=
      exists_groups_last (front ++ zeros ++ back)
    rw [hlen, hsplit, List.length_append] at hbytes
    rw [htext, hsplit]
    exact .full ht hl hbytes
  · intro hne
    obtain ⟨u, l, mid, bytes, hu, hl, htext, hsplit⟩ := exists_groups_last back
    have hpos := List.length_pos_iff.mpr hne
    have hfront := length_groupBytes front
    have hback := length_groupBytes back
    rw [List.length_append, List.length_append] at hlen
    have hspread : groupBytes (front ++ zeros ++ back) =
        spread (groupBytes front) (groupBytes back) := by
      have hgap : 2 * zeros.length = IN6ADDRSZ - 2 * front.length - 2 * back.length := by
        rw [IN6ADDRSZ]
        omega
      rw [spread, if_pos (by rw [IN6ADDRSZ]; omega), groupBytes_append, groupBytes_append,
        groupBytes_zeros hzeros, hgap, hfront, hback]
    rw [hsplit, List.length_append] at hback
    rw [hspread, htext, hsplit]
    cases front with
    | nil => exact .leading (u := u) hu hl (by rw [IN6ADDRSZ]; omega)
    | cons g front =>
      rw [List.append_cons, List.append_assoc]
      exact .inner (u := u) (by simp) (groups_groupTexts (List.cons_ne_nil g front)) hu hl
        (by rw [IN6ADDRSZ]; omega)

end Texts

section SockInetPton

variable {src : List UInt8} {dst : Option (List UInt8)} {ret : ℤ}
  {front zeros back : List (UInt8 × UInt8)}

/-- For `AF_INET` the texts are four decimal numbers up to 255 between dots, whatever zeros stand in
front of each. -/
theorem sockInetPton_inet : sockInetPton AF_INET src = (ret, dst) ↔
    (ret = 1 ∧ ∃ bytes, dst = some bytes ∧ Octets src bytes ∧ bytes.length = INADDRSZ) ∨
      (ret = 0 ∧ dst = none ∧ ¬ ∃ bytes, Octets src bytes ∧ bytes.length = INADDRSZ) := by
  rw [sockInetPton, if_pos rfl]
  simp only [← inetPton4_iff]
  cases inetPton4 src with
  | none => simp [eq_comm]
  | some bytes => simp [eq_comm]

/-- For `AF_INET6` the texts are those of `Address`. -/
theorem sockInetPton_inet6 : sockInetPton AF_INET6 src = (ret, dst) ↔
    (ret = 1 ∧ ∃ bytes, dst = some bytes ∧ Address src bytes) ∨
      (ret = 0 ∧ dst = none ∧ ¬ ∃ bytes, Address src bytes) := by
  rw [sockInetPton, if_neg (by decide), if_pos rfl]
  simp only [← inetPton6_iff]
  cases inetPton6 src with
  | none => simp [eq_comm]
  | some bytes => simp [eq_comm]

/-- Each address is read back from its text with all its groups, and where it has groups that are 0
from the one with `::` in their place. -/
theorem sockInetPton_groupTexts (hlen : (front ++ zeros ++ back).length = 8)
    (hzeros : ∀ g ∈ zeros, g = (0, 0)) :
    sockInetPton AF_INET6 (groupTexts (front ++ zeros ++ back)) =
        (1, some (groupBytes (front ++ zeros ++ back))) ∧
      (zeros ≠ [] → sockInetPton AF_INET6 (groupTexts front ++ [0x3A, 0x3A] ++ groupTexts back) =
        (1, some (groupBytes (front ++ zeros ++ back)))) := by
  obtain ⟨hfull, hgap⟩ := address_groupTexts hlen hzeros
  have hread {text bytes : List UInt8} (h : Address text bytes) :
      sockInetPton AF_INET6 text = (1, some bytes) := by
    rw [sockInetPton, if_neg (by decide), if_pos rfl, inetPton6_iff.mpr h]
  exact ⟨hread hfull, fun hne => hread (hgap hne)⟩

theorem sockInetPton_groupTexts_short :
    sockInetPton AF_INET6 (groupTexts ([(0, 1), (0, 2)] ++ List.replicate 5 (0, 0) ++ [(0, 8)])) =
        (1, some (groupBytes ([(0, 1), (0, 2)] ++ List.replicate 5 (0, 0) ++ [(0, 8)]))) ∧
      (List.replicate 5 ((0, 0) : UInt8 × UInt8) ≠ [] →
        sockInetPton AF_INET6
            (groupTexts [(0, 1), (0, 2)] ++ [0x3A, 0x3A] ++ groupTexts [(0, 8)]) =
          (1, some (groupBytes ([(0, 1), (0, 2)] ++ List.replicate 5 (0, 0) ++ [(0, 8)])))) :=
  sockInetPton_groupTexts rfl fun _ hg => List.eq_of_mem_replicate hg

end SockInetPton

end Mbtk.Sock
