import Mbtk.Client.SentOptions
import Mbtk.Coap.Truncated

namespace Mbtk.Client

open Lib Coap CoapPDU

/-- A package whose options were set with `mbtk_coap_set_option`. -/
inductive Package.Configured : Package → Prop
  | start {coap : Package} : coap.options = [] → Configured coap
  | set {coap coap' : Package} {type : OptionType} {str : List UInt8} {int0 int1 int2 : UInt32} :
      Configured coap → setOption coap type str int0 int1 int2 = .ok coap' → Configured coap'

/-- The last call of `mbtk_coap_set_option` for the type `type` had these arguments. -/
inductive Package.LastSet (type : OptionType) (str : List UInt8) (int0 int1 int2 : UInt32) :
    Package → Prop
  | set {coap coap' : Package} :
      coap.Configured → setOption coap type str int0 int1 int2 = .ok coap' →
      LastSet type str int0 int1 int2 coap'
  | other {coap coap' : Package} {type' : OptionType} {str' : List UInt8}
      {int0' int1' int2' : UInt32} :
      LastSet type str int0 int1 int2 coap → type' ≠ type →
      setOption coap type' str' int0' int1' int2' = .ok coap' →
      LastSet type str int0 int1 int2 coap'

section SetOption

variable {coap coap' : Package} {type : OptionType} {str : List UInt8} {int0 int1 int2 : UInt32}
  {option option' : CoapOption} {options options' : List CoapOption}

theorem CoapOption.type_assign (h : option.assign str int0 int1 int2 = .ok option') :
    option'.type = option.type := by
  cases htype : option.type with
  | ifMatch | uriHost | etag | ifNoneMatch | locationPath | uriQuery | locationQuery | proxyUri
  | proxyScheme | uriPath =>
    simp only [assign, htype] at h
    obtain ⟨array, -, h⟩ := bind_eq_ok.mp h
    rw [← Except.ok.inj h]
  | observe | maxAge | uriPort | size2 | size1 | block2 | block1 | contentFormat | accept =>
    simp only [assign, htype] at h
    rw [← Except.ok.inj h]

theorem assignFirst_cases (h : assignFirst type str int0 int1 int2 options = .ok options')
    (hmem : ∃ option ∈ options, option.type = type) :
    ∃ A option option' B, options = A ++ option :: B ∧ option.type = type ∧
      option.assign str int0 int1 int2 = .ok option' ∧ options' = A ++ option' :: B := by
  induction options generalizing options' with
  | nil => simp at hmem
  | cons option options ih =>
    rw [assignFirst] at h
    split_ifs at h with htype
    · obtain ⟨option', hassign, h⟩ := bind_eq_ok.mp h
      exact ⟨[], option, option', options, rfl, htype, hassign, (Except.ok.inj h).symm⟩
    · obtain ⟨tail, htail, h⟩ := bind_eq_ok.mp h
      obtain ⟨A, o, o', B, rfl, ho, hassign, rfl⟩ := ih htail (by simpa [htype] using hmem)
      exact ⟨option :: A, o, o', B, rfl, ho, hassign, (Except.ok.inj h).symm⟩

theorem setOption_cases (h : setOption coap type str int0 int1 int2 = .ok coap') :
    (∃ A option option' B, coap.options = A ++ option :: B ∧ option.type = type ∧
      option.assign str int0 int1 int2 = .ok option' ∧ coap'.options = A ++ option' :: B) ∨
    ((∀ option ∈ coap.options, option.type ≠ type) ∧
      ∃ option', (CoapOption.zero type).assign str int0 int1 int2 = .ok option' ∧
        coap'.options = option' :: coap.options) := by
  unfold setOption at h
  split_ifs at h with hany
  · obtain ⟨options', hassign, h⟩ := bind_eq_ok.mp h
    obtain ⟨A, option, option', B, hA, htype, hoption, rfl⟩ :=
      assignFirst_cases hassign (by simpa using hany)
    exact .inl ⟨A, option, option', B, hA, htype, hoption, by rw [← Except.ok.inj h]⟩
  · obtain ⟨option', hassign, h⟩ := bind_eq_ok.mp h
    exact .inr ⟨by simpa using hany, option', hassign, by rw [← Except.ok.inj h]⟩

theorem Package.Configured.nodup (h : coap.Configured) : (coap.options.map (·.type)).Nodup := by
  induction h with
  | start hnil => simp [hnil]
  | set _ hset ih =>
    obtain ⟨A, option, option', B, hA, htype, hassign, hA'⟩ | ⟨hnew, option', hassign, hnew'⟩ :=
      setOption_cases hset
    · rw [hA', List.map_append, List.map_cons, CoapOption.type_assign hassign]
      rwa [hA, List.map_append, List.map_cons] at ih
    · rw [hnew', List.map_cons, List.nodup_cons, CoapOption.type_assign hassign]
      exact ⟨by simpa [CoapOption.zero] using hnew, ih⟩

theorem Package.LastSet.configured (h : coap.LastSet type str int0 int1 int2) :
    coap.Configured := by
  induction h with
  | set hconf hset => exact .set hconf hset
  | other _ _ hset ih => exact .set ih hset

theorem Package.LastSet.exists_option (h : coap.LastSet type str int0 int1 int2) :
    ∃ option ∈ coap.options, option.type = type ∧
      ∃ before : CoapOption, before.type = type ∧
        before.assign str int0 int1 int2 = .ok option := by
  induction h with
  | set _ hset =>
    obtain ⟨A, option, option', B, -, htype, hassign, hA'⟩ | ⟨-, option', hassign, hnew'⟩ :=
      setOption_cases hset
    · exact ⟨option', by simp [hA'], (CoapOption.type_assign hassign).trans htype, option, htype,
        hassign⟩
    · exact ⟨option', by simp [hnew'], CoapOption.type_assign hassign, .zero type, rfl, hassign⟩
  | other _ hne hset ih =>
    obtain ⟨o, ho, htype, hassigned⟩ := ih
    refine ⟨o, ?_, htype, hassigned⟩
    obtain ⟨A, option, option', B, hA, htype', -, hA'⟩ | ⟨-, option', -, hnew'⟩ :=
      setOption_cases hset
    · have hne' : o ≠ option := fun heq => hne (by rw [← htype', ← heq, htype])
      rw [hA] at ho
      rw [hA']
      obtain ho | ho := List.mem_append.mp ho
      · exact List.mem_append_left _ ho
      · exact List.mem_append_right _
          (List.mem_cons_of_mem _ ((List.mem_cons.mp ho).resolve_left hne'))
    · rw [hnew']
      exact List.mem_cons_of_mem _ ho

end SetOption

section Sent

variable {coap : Package} {option : CoapOption} {n : UInt16}

theorem filter_packagePairs {options : List CoapOption} (hnodup : (options.map (·.type)).Nodup)
    (hmem : option ∈ options) (hn : option.type.number = n) (hquery : n ≠ COAP_OPTION_URI_QUERY) :
    (packagePairs options).filter (·.number = n) = (optionPairs option).filter (·.number = n) := by
  have hother {o : CoapOption} (ho : o.type ≠ option.type) :
      (optionPairs o).filter (·.number = n) = [] := by
    refine List.filter_eq_nil_iff.mpr fun x hx heq => ?_
    obtain h | ⟨-, h⟩ := number_optionPairs x hx
    · exact ho (OptionType.number_injective (by rw [← h, hn]; exact of_decide_eq_true heq))
    · exact hquery ((of_decide_eq_true heq).symm.trans h)
  induction options with
  | nil => simp at hmem
  | cons o options ih =>
    rw [List.map_cons, List.nodup_cons] at hnodup
    rw [packagePairs, List.flatMap_cons, List.filter_append]
    obtain rfl | hmem := List.mem_cons.mp hmem
    · have hrest : (options.flatMap optionPairs).filter (·.number = n) = [] := by
        rw [List.filter_flatMap, List.flatMap_eq_nil_iff]
        intro o ho
        exact hother fun heq => hnodup.1 (List.mem_map.mpr ⟨o, ho, heq⟩)
      rw [hrest, List.append_nil]
    · rw [hother fun heq => hnodup.1 (List.mem_map.mpr ⟨option, hmem, heq.symm⟩), List.nil_append]
      exact ih hnodup.2 hmem

theorem number_lt_269 : ∀ o ∈ packagePairs coap.options, o.key < 269 := by
  intro o ho
  obtain ⟨option, -, ho⟩ := List.mem_flatMap.mp ho
  obtain h | ⟨-, h⟩ := number_optionPairs o ho
  · rw [Opt.key, h]
    cases option.type <;> decide
  · rw [Opt.key, h]
    decide

theorem near_of_lt {k : ℕ} {opts : List Opt} (h : ∀ o ∈ opts, o.key < 269 ∧ o.value.length < 269) :
    Near k opts := by
  induction opts generalizing k with
  | nil => intro r hr; simp [optionRecords] at hr
  | cons o opts ih =>
    intro r hr
    obtain rfl | hr := List.mem_cons.mp hr
    · have := h o (by simp)
      exact ⟨by dsimp only; omega, this.2⟩
    · exact ih (fun o ho => h o (by simp [ho])) r hr

theorem Package.near_sentOptions (coap : Package) : Near 0 coap.sentOptions := by
  refine near_of_lt fun o ho => ?_
  rw [Package.mem_sentOptions] at ho
  obtain ⟨option, -, hpair⟩ := List.mem_flatMap.mp ho
  have := optionPairs_short option o hpair
  exact ⟨number_lt_269 o ho, by omega⟩

theorem coapSend_datagram {g g' : SharedPDU} {datagram : List UInt8} (hg : g.Idle)
    (h8 : coap.tokenLen ≤ 8) (hsend : coapSend g coap = .ok (g', datagram)) :
    datagram = coap.message.take (coap.message.length % 65536) ∧
      ∃ q : CoapPDU, q.Holds coap.header coap.sentOptions coap.playload := by
  obtain ⟨p, hbuild, hdata⟩ := bind_eq_ok.mp hsend
  obtain ⟨q, hq, hholds, -⟩ := buildPackage_holds hg h8 (buildPackage_terminated hg h8 hbuild)
  obtain rfl := Except.ok.inj (hbuild.symm.trans hq)
  obtain ⟨-, rfl⟩ := Prod.mk.inj (Except.ok.inj hdata)
  refine ⟨?_, p, hholds⟩
  have hpdu := hholds.pdu_eq
  rw [handedOver, getPDULength, hpdu, hholds.pduLength_eq,
    List.take_append_of_le_length (Nat.mod_le _ _)]
  rfl

/-- The bytes of a message up to the last option whose number is at most `n`. -/
def Package.reach (coap : Package) (n : UInt16) : ℕ :=
  coap.header.length + (encodeOptions 0 (coap.sentOptions.filter (·.number ≤ n))).length

theorem eq_nil_or_eq_of_front {o : Opt} {opts : List Opt} (h : opts <+: [o]) :
    opts = [] ∨ opts = [o] := by
  obtain h | ⟨rest, rfl, hrest⟩ := List.prefix_cons_iff.mp h
  · exact .inl h
  · rw [List.prefix_nil.mp hrest]
    exact .inr rfl

/-- A copy of `getOptionValueById` to the front of an array of `size` bytes. -/
def copyValue (buffer : Buffer) (size : ℕ) (s : UInt16 × List UInt8) (o : Opt) :
    Exec (UInt16 × List UInt8) :=
  if o.value.length ≤ size then
    .ok (UInt16.ofNat o.value.length, o.value ++ s.2.drop o.value.length)
  else .error (.overrun buffer)

def copyValues (buffer : Buffer) (dst : List UInt8) (opts : List Opt) :
    Exec (UInt16 × List UInt8) :=
  opts.foldlM (copyValue buffer dst.length) (0, dst)

theorem filter_le_append {B C : List Opt} (hB : ∀ o ∈ B, o.number ≤ n)
    (hC : ∀ o ∈ C, n < o.number) : (B ++ C).filter (·.number ≤ n) = B := by
  rw [List.filter_append, List.filter_eq_self.mpr fun o ho => by simpa using hB o ho,
    List.filter_eq_nil_iff.mpr fun o ho => by simpa using hC o ho, List.append_nil]

theorem filter_eq_iff_front {S A : List Opt} (hs : SortedFrom Opt.key 0 S) (hA : A <+: S)
    (hne : S.filter (·.number = n) ≠ []) :
    A.filter (·.number = n) = S.filter (·.number = n) ↔ S.filter (·.number ≤ n) <+: A := by
  obtain ⟨B, C, rfl, hB, hC⟩ := exists_split hs n
  have hrest {D : List Opt} (hD : ∀ o ∈ D, o ∈ C) : D.filter (·.number = n) = [] := by
    refine List.filter_eq_nil_iff.mpr fun o ho heq => ?_
    have hlt := hC o (hD o ho)
    rw [of_decide_eq_true heq] at hlt
    exact absurd hlt (UInt16.lt_irrefl n)
  rw [filter_le_append hB hC, List.filter_append, hrest fun _ h => h, List.append_nil]
  rw [List.filter_append, hrest fun _ h => h, List.append_nil] at hne
  constructor
  · intro heq
    obtain h | ⟨D, rfl⟩ := List.prefix_or_prefix_of_prefix (List.prefix_append B C) hA
    · exact h
    · rw [List.append_assoc, sortedFrom_append, sortedFrom_append] at hs
      rw [List.filter_append] at heq hne
      have hD : D.filter (·.number = n) = [] := List.self_eq_append_right.mp heq
      rw [hD, List.append_nil] at hne
      obtain ⟨x, hx⟩ := List.exists_mem_of_ne_nil _ hne
      obtain ⟨hxA, hxn⟩ := List.mem_filter.mp hx
      have hle := (hs.1.mem_le_lastKey Opt.key).2 x hxA
      have hnil : D = [] := by
        refine List.eq_nil_iff_forall_not_mem.mpr fun o ho => ?_
        have hge := hs.2.1.le_of_mem Opt.key o ho
        have hkey : o.number = n := by
          refine UInt16.le_antisymm (hB o (List.mem_append_right A ho)) ?_
          rw [← of_decide_eq_true hxn, UInt16.le_iff_toNat_le]
          exact hle.trans hge
        exact List.filter_eq_nil_iff.mp hD o ho (decide_eq_true hkey)
      rw [hnil, List.append_nil]
  · rintro ⟨D, rfl⟩
    obtain ⟨E, hE⟩ := hA
    rw [List.append_assoc, List.append_cancel_left_eq] at hE
    have hD : ∀ o ∈ D, o ∈ C := fun o ho => hE ▸ List.mem_append_left E ho
    rw [List.filter_append, hrest hD, List.append_nil]

variable {g g' : SharedPDU} {datagram after : List UInt8} {addr : ℕ} {p : CoapPDU}

/-- What a receiver of the datagram of a package copies for a number: the values that the message
carries, as far as the datagram has them. -/
theorem getOptionValueById_sent (hg : g.Idle) (h8 : coap.tokenLen ≤ 8)
    (hsend : coapSend g coap = .ok (g', datagram))
    (hrecv : coapCreateRecv addr (datagram ++ after) datagram.length = .ok (some p)) (n : UInt16) :
    ∃ opts, (∀ buffer dst, p.getOptionValueById n buffer dst = copyValues buffer dst opts) ∧
      opts <+: (packagePairs coap.options).filter (·.number = n) ∧
      (opts = (packagePairs coap.options).filter (·.number = n) ↔
        (packagePairs coap.options).filter (·.number = n) = [] ∨
          coap.reach n ≤ coap.message.length % 65536) := by
  obtain ⟨hdatagram, q, hholds⟩ := coapSend_datagram hg h8 hsend
  have hlen : datagram.length = coap.message.length % 65536 := by
    rw [hdatagram, List.length_take, Nat.min_eq_left (Nat.mod_le _ _)]
  rw [← coap.filter_sentOptions, ← hlen]
  by_cases hne : datagram = []
  · subst hne
    have hnil := getOptions_recv_nil hrecv
    refine ⟨[], fun buffer dst => ?_, List.nil_prefix, ?_⟩
    · rw [getOptionValueById, hnil]
      rfl
    · rw [eq_comm, iff_self_or]
      intro hreach
      have := hholds.header
      rw [COAP_HDR_SIZE] at this
      rw [Package.reach, List.length_nil] at hreach
      omega
  · have hfront : datagram <+: encodeMessage coap.header coap.sentOptions coap.playload := by
      rw [hdatagram]
      exact List.take_prefix _ _
    obtain ⟨A, pay, hA, hp, hnum, hreach⟩ := recv_of_front hfront hne hholds.header hholds.sorted
      coap.near_sentOptions hholds.short hrecv
    refine ⟨A.filter (·.number = n), fun buffer dst => hp.getOptionValueById hnum n buffer dst,
      hA.filter _, ?_⟩
    by_cases hnil : coap.sentOptions.filter (·.number = n) = []
    · have hAnil := hA.filter (p := fun o : Opt => decide (o.number = n))
      rw [hnil, List.prefix_nil] at hAnil
      rw [hnil, hAnil]
      simp
    · have hB : coap.sentOptions.filter (·.number ≤ n) <+: coap.sentOptions := by
        obtain ⟨B, C, hBC, hB, hC⟩ := exists_split hholds.sorted n
        rw [hBC, filter_le_append hB hC]
        exact List.prefix_append B C
      rw [filter_eq_iff_front hholds.sorted hA hnil, hreach _ hB, Package.reach, or_iff_right hnil]

end Sent

end Mbtk.Client
