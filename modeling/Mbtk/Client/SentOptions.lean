import Mbtk.Client.Requests
import Mbtk.Coap.BlockValue

namespace Mbtk.Client

open Lib Coap CoapPDU

section Numbers

theorem number_uriPairsLoop {fuel : ℕ} {startP : List UInt8} {splitChar : UInt8}
    {optionType : UInt16}
    (h : optionType = COAP_OPTION_URI_PATH ∨ optionType = COAP_OPTION_URI_QUERY) :
    ∀ o ∈ uriPairsLoop fuel startP splitChar optionType,
      o.number = COAP_OPTION_URI_PATH ∨ o.number = COAP_OPTION_URI_QUERY := by
  induction fuel generalizing startP splitChar optionType with
  | zero => simp [uriPairsLoop]
  | succ fuel ih =>
    intro o ho
    unfold uriPairsLoop at ho
    split_ifs at ho
    · simp at ho
    · generalize nextSegment startP splitChar = r at ho
      obtain ⟨segment, rest, query⟩ := r
      obtain rfl | ho := List.mem_cons.mp ho
      · exact h
      · split_ifs at ho
        · exact ih (.inr rfl) o ho
        · exact ih h o ho

theorem number_uriPairs {uri : List UInt8} :
    ∀ o ∈ uriPairs uri, o.number = COAP_OPTION_URI_PATH ∨ o.number = COAP_OPTION_URI_QUERY := by
  obtain _ | ⟨c, _ | ⟨c', uri⟩⟩ := uri
  · simp [uriPairs]
  · simp [uriPairs]
  · exact number_uriPairsLoop (.inl rfl)

theorem number_optionPairs {option : CoapOption} :
    ∀ o ∈ optionPairs option, o.number = option.type.number ∨
      option.type = .uriPath ∧ o.number = COAP_OPTION_URI_QUERY := by
  intro o ho
  cases htype : option.type with
  | uriPath =>
    simp only [optionPairs, htype] at ho
    obtain h | h := number_uriPairs o ho
    · exact .inl h
    · exact .inr ⟨rfl, h⟩
  | uriQuery | contentFormat | block2 | block1 | maxAge | observe =>
    simp only [optionPairs, htype, List.mem_singleton] at ho
    subst ho
    exact .inl rfl
  | ifMatch | uriHost | etag | ifNoneMatch | uriPort | locationPath | accept | locationQuery
  | size2 | proxyUri | proxyScheme | size1 => simp [optionPairs, htype] at ho

theorem OptionType.number_injective : Function.Injective OptionType.number := by
  intro a b h
  cases a <;> cases b <;> first | rfl | exact absurd h (by decide)

theorem Package.filter_sentOptions (coap : Package) (n : UInt16) :
    coap.sentOptions.filter (·.number = n) =
      (packagePairs coap.options).filter (·.number = n) := by
  rw [coap.sentOptions_eq]
  refine filter_insertionSort Opt.key (k := n.toNat) fun o _ ho => ?_
  rw [Opt.key, of_decide_eq_true ho]

end Numbers

section Block

def requestPairs (uri : Option (Bytes 128)) : List Opt :=
  (packagePairs (packageOptions none uri)).insertionSort (fun a b => a.key ≤ b.key)

theorem number_requestPairs {uri : Option (Bytes 128)} :
    ∀ o ∈ requestPairs uri, o.number ≠ COAP_OPTION_BLOCK2 := by
  intro o ho
  obtain ⟨option, hoption, ho⟩ := List.mem_flatMap.mp ((List.mem_insertionSort _).mp ho)
  have htype : option.type = .contentFormat ∨ option.type = .maxAge ∨ option.type = .uriPath := by
    cases uri with
    | none => simp [packageOptions] at hoption
    | some uri =>
      simp only [packageOptions, requestOptions, Option.map_none, Option.toList_none,
        List.nil_append, Option.elim_some, List.mem_cons, List.not_mem_nil, or_false] at hoption
      obtain rfl | rfl | rfl := hoption
      · exact .inl rfl
      · exact .inr (.inl rfl)
      · exact .inr (.inr rfl)
  obtain h | ⟨-, h⟩ := number_optionPairs o ho
  · rw [h]
    obtain htype | htype | htype := htype <;> rw [htype] <;> decide
  · rw [h]
    decide

variable {coap : Package} {block : OptionBlock} {uri : Option (Bytes 128)}

theorem Package.Regular.sentOptions_none (h : coap.Regular none uri) :
    coap.sentOptions = requestPairs uri := by rw [coap.sentOptions_eq, h.options, requestPairs]

theorem Package.Regular.sentOptions_some (h : coap.Regular (some block) uri) :
    coap.sentOptions = (requestPairs uri).orderedInsert (fun a b => a.key ≤ b.key)
      ⟨COAP_OPTION_BLOCK2, blockValue block⟩ := by
  rw [coap.sentOptions_eq, h.options]
  rfl

theorem filter_requestPairs (uri : Option (Bytes 128)) :
    (requestPairs uri).filter (·.number = COAP_OPTION_BLOCK2) = [] ∧
      (requestPairs uri).filter (·.number ≠ COAP_OPTION_BLOCK2) = requestPairs uri := by
  constructor
  · exact List.filter_eq_nil_iff.mpr fun o ho => by simpa using number_requestPairs o ho
  · exact List.filter_eq_self.mpr fun o ho => by simpa using number_requestPairs o ho

theorem Package.Regular.filter_sentOptions (h : coap.Regular (some block) uri) :
    coap.sentOptions.filter (·.number = COAP_OPTION_BLOCK2) =
        [⟨COAP_OPTION_BLOCK2, blockValue block⟩] ∧
      coap.sentOptions.filter (·.number ≠ COAP_OPTION_BLOCK2) = requestPairs uri := by
  obtain ⟨hnone, hall⟩ := filter_requestPairs uri
  rw [h.sentOptions_some]
  constructor
  · rw [filter_orderedInsert_of_pos Opt.key (by simp), hnone]
    intro o ho hn
    exact absurd (of_decide_eq_true hn) (number_requestPairs o ho)
  · rw [filter_orderedInsert_of_neg Opt.key (by simp), hall]

end Block

section Value

variable {block : OptionBlock}

theorem toNat_blockFlags (block : OptionBlock) : (blockFlags block).toNat =
    16 * (block.number.toNat % 16) + 8 * (block.moreFlag.toNat % 2) + block.size.toNat % 8 := by
  have hnum : ((block.number <<< 4) &&& 0xF0 : UInt32).toNat =
      2 ^ 4 * (block.number.toNat % 16) := by
    rw [UInt32.toNat_and, UInt32.toNat_shiftLeft]
    change block.number.toNat <<< 4 % 2 ^ 32 &&& (2 ^ 4 - 1) <<< 4 = _
    have hlt : block.number.toNat <<< 4 % 2 ^ 32 = (block.number.toNat % 2 ^ 28) <<< 4 := by
      rw [Nat.shiftLeft_eq, Nat.shiftLeft_eq]
      omega
    rw [hlt, ← Nat.shiftLeft_and_distrib, Nat.and_two_pow_sub_one_eq_mod, Nat.shiftLeft_eq]
    omega
  have hmore : ((block.moreFlag.toUInt32 <<< 3) &&& 0x08 : UInt32).toNat =
      2 ^ 3 * (block.moreFlag.toNat % 2) := by
    have hlt := block.moreFlag.toNat_lt
    rw [UInt32.toNat_and, UInt32.toNat_shiftLeft, UInt8.toNat_toUInt32]
    change block.moreFlag.toNat <<< 3 % 2 ^ 32 &&& (2 ^ 1 - 1) <<< 3 = _
    rw [Nat.mod_eq_of_lt (by rw [Nat.shiftLeft_eq]; omega), ← Nat.shiftLeft_and_distrib,
      Nat.and_two_pow_sub_one_eq_mod, Nat.shiftLeft_eq]
    omega
  have hsize : (block.size &&& 0x07).toNat = block.size.toNat % 8 := by
    rw [UInt32.toNat_and]
    exact Nat.and_two_pow_sub_one_eq_mod block.size.toNat 3
  rw [blockFlags, UInt32.toNat_toUInt8, UInt32.toNat_or, UInt32.toNat_or, hnum, hmore, hsize,
    ← Nat.two_pow_add_eq_or_of_lt (by omega),
    show 2 ^ 4 * (block.number.toNat % 16) + 2 ^ 3 * (block.moreFlag.toNat % 2) =
      2 ^ 3 * (2 * (block.number.toNat % 16) + block.moreFlag.toNat % 2) by omega,
    ← Nat.two_pow_add_eq_or_of_lt (by omega)]
  omega

theorem toNat_number_four (n : UInt32) : (n >>> 4).toUInt8.toNat = n.toNat / 16 % 256 := by
  rw [UInt32.toNat_toUInt8, UInt32.toNat_shiftRight]
  exact congrArg (· % 256) (Nat.shiftRight_eq_div_pow _ 4)

theorem toNat_number_twelve (n : UInt32) : (n >>> 12).toUInt8.toNat = n.toNat / 4096 % 256 := by
  rw [UInt32.toNat_toUInt8, UInt32.toNat_shiftRight]
  exact congrArg (· % 256) (Nat.shiftRight_eq_div_pow _ 12)

theorem bigEndian_blockValue (hnum : block.number.toNat < 2 ^ 20) : bigEndian (blockValue block) =
    16 * block.number.toNat + 8 * (block.moreFlag.toNat % 2) + block.size.toNat % 8 := by
  unfold blockValue
  simp only [UInt32.le_iff_toNat_le]
  change bigEndian (if _ ≤ 15 then _ else if _ ≤ 4095 then _ else _) = _
  split_ifs with hone htwo <;>
    simp only [bigEndian, List.foldl_cons, List.foldl_nil, toNat_blockFlags, toNat_number_four,
      toNat_number_twelve] <;> omega

theorem blockFields_blockValue (hmore : block.moreFlag = 0) (hnum : block.number.toNat < 2 ^ 20) :
    blockNumber (blockValue block) = block.number.toNat ∧ ¬ blockMore (blockValue block) ∧
      blockSize (blockValue block) = block.size.toNat % 8 := by
  rw [blockNumber, blockMore, blockSize, bigEndian_blockValue hnum, hmore, UInt8.toNat_zero]
  omega

end Value

theorem Package.Regular.message_parts {coap : Package} {block : Option OptionBlock}
    {uri : Option (Bytes 128)} (h : coap.Regular block uri) :
    Message coap.message coap.sentOptions coap.playload ∧
      typeOf coap.message = CoapType.confirmable.value ∧ codeOf coap.message = coap.code ∧
      tokenOf coap.message = [] := by
  have hadm := h.admissible
  have h8 := coap.length_sentToken_le hadm.tokenLen
  have htoken0 : coap.sentToken = [] := by rw [Package.sentToken, h.tokenLen]; rfl
  obtain ⟨hversion, htoken, htype⟩ := firstByte_fields coap.type h8
  obtain ⟨q, -, hholds, -⟩ := buildPackage_holds (g := .null 0 fun _ => some ⟨0, fun _ => 0⟩)
    (fun _ => rfl) hadm.tokenLen hadm.terminated
  rw [← h.version] at hversion htoken htype
  obtain ⟨hm, htypeOf, hcodeOf, -, htokenOf⟩ := message_encode
    (show coap.message = encodeMessage coap.header coap.sentOptions coap.playload from rfl)
    hversion htoken h8 ((codeAccepted_iff _).mp h.code) hholds.sorted hholds.short
  exact ⟨hm, by rw [htypeOf, htype, h.type], hcodeOf, htokenOf.trans htoken0⟩

end Mbtk.Client
