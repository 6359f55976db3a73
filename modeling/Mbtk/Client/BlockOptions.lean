import Mbtk.Client.SetOption

namespace Mbtk.Client

open Lib Coap CoapPDU

inductive BlockOption
  | block1 | block2
  deriving DecidableEq

def BlockOption.type : BlockOption → OptionType
  | block1 => .block1
  | block2 => .block2

/-- The accessor of a Block option, with the fields it delivers when it returns 1. -/
def BlockOption.recv (t : BlockOption) (p : CoapPDU) : Exec (Option RecvBlock) :=
  match t with
  | block1 => p.coapGetRecvOptionBlock1
  | block2 => p.coapGetRecvOptionBlock2

def BlockOption.decode (t : BlockOption) (buffLen : UInt16) (buff : List UInt8) :
    Option RecvBlock :=
  match t with
  | block1 => decodeBlock1 buffLen buff
  | block2 => decodeBlock2 buffLen buff

section Decode

variable {block : OptionBlock} {rest : List UInt8}

theorem length_blockValue_pos (block : OptionBlock) : 0 < (blockValue block).length := by
  unfold blockValue
  split_ifs <;> simp

/-- What the block of a package reads as when it arrives unchanged. -/
def OptionBlock.recv (block : OptionBlock) : RecvBlock :=
  ⟨block.number, block.moreFlag, block.size.toUInt8⟩

theorem recvBlock_eq_iff {a b : RecvBlock} : a = b ↔ a.number.toNat = b.number.toNat ∧
    a.moreFlag.toNat = b.moreFlag.toNat ∧ a.size.toNat = b.size.toNat := by
  rw [UInt32.toNat_inj, UInt8.toNat_inj, UInt8.toNat_inj]
  constructor
  · rintro rfl
    exact ⟨rfl, rfl, rfl⟩
  · obtain ⟨number, moreFlag, size⟩ := a
    rintro ⟨rfl, rfl, rfl⟩
    rfl

theorem toNat_size_recv (hsize : block.size.toNat ≤ 7) :
    block.recv.size.toNat = block.size.toNat := by
  change block.size.toUInt8.toNat = _
  rw [UInt32.toNat_toUInt8]
  omega

theorem decodeBlock2_blockValue (hnum : block.number.toNat < 2 ^ 20)
    (hmore : block.moreFlag.toNat ≤ 1) (hsize : block.size.toNat ≤ 7) :
    decodeBlock2 (UInt16.ofNat (blockValue block).length) (blockValue block ++ rest) =
      some block.recv := by
  obtain ⟨read, hread, hnumber, hflag, hexp⟩ :=
    decodeBlock2_eq (length_blockValue_pos block) (length_blockValue_le block) rest
  rw [blockNumber, bigEndian_blockValue hnum] at hnumber
  rw [bigEndian_blockValue hnum] at hflag
  rw [blockSize, bigEndian_blockValue hnum] at hexp
  rw [hread, Option.some.injEq, recvBlock_eq_iff, toNat_size_recv hsize, hnumber, hflag, hexp]
  change _ = block.number.toNat ∧ _ = block.moreFlag.toNat ∧ _
  omega

theorem decodeBlock1_one {b0 : UInt8} {read : RecvBlock} :
    decodeBlock1 1 (b0 :: rest) = some read ↔ 16 * (b0.toNat / 16) = read.number.toNat ∧
      8 * (b0.toNat / 8 % 2) = read.moreFlag.toNat ∧ b0.toNat % 8 = read.size.toNat := by
  change some (RecvBlock.mk (b0 &&& 0xF0).toUInt32 (b0 &&& 0x08) (b0 &&& 0x07)) = _ ↔ _
  rw [Option.some.injEq, recvBlock_eq_iff, UInt8.toNat_toUInt32, toNat_number_high,
    toNat_more_high, toNat_size]

theorem decodeBlock1_two {b0 b1 : UInt8} {read : RecvBlock} :
    decodeBlock1 2 (b0 :: b1 :: rest) = some read ↔
      256 * b1.toNat + 16 * (b0.toNat / 16) = read.number.toNat ∧
        8 * (b0.toNat / 8 % 2) = read.moreFlag.toNat ∧ b0.toNat % 8 = read.size.toNat := by
  change some (RecvBlock.mk ((b1.toUInt32 <<< 8) ||| (b0 &&& 0xF0).toUInt32) (b0 &&& 0x08)
    (b0 &&& 0x07)) = _ ↔ _
  rw [Option.some.injEq, recvBlock_eq_iff, toNat_or_two, toNat_number_high, toNat_more_high,
    toNat_size]

theorem decodeBlock1_three {b0 b1 b2 : UInt8} {read : RecvBlock} :
    decodeBlock1 3 (b0 :: b1 :: b2 :: rest) = some read ↔
      65536 * b2.toNat + 256 * b1.toNat + 16 * (b0.toNat / 16) = read.number.toNat ∧
        8 * (b0.toNat / 8 % 2) = read.moreFlag.toNat ∧ b0.toNat % 8 = read.size.toNat := by
  change some (RecvBlock.mk ((b2.toUInt32 <<< 16) ||| (b1.toUInt32 <<< 8) |||
    (b0 &&& 0xF0).toUInt32) (b0 &&& 0x08) (b0 &&& 0x07)) = _ ↔ _
  rw [Option.some.injEq, recvBlock_eq_iff, toNat_or_three, toNat_number_high, toNat_more_high,
    toNat_size]

section Nibbles

variable {x y z m s f b c : ℕ}

theorem block1_one_byte (hm : m ≤ 1) (hs : s ≤ 7) (hf : f = 16 * z + 8 * m + s) :
    16 * (f / 16) = z ∧ 8 * (f / 8 % 2) = m ∧ f % 8 = s ↔ m = 0 ∧ z = 0 := by
  have hhigh : f / 16 = z := by omega
  have hmid : f / 8 % 2 = m := by omega
  have hlow : f % 8 = s := by omega
  rw [hhigh, hmid, hlow]
  omega

theorem block1_two_bytes (hy : y < 16) (hm : m ≤ 1) (hs : s ≤ 7)
    (hf : f = 16 * z + 8 * m + s) (hb : b = 16 * x + y) (hz : z < 16) :
    256 * f + 16 * (b / 16) = 256 * x + 16 * y + z ∧ 8 * (b / 8 % 2) = m ∧ b % 8 = s ↔
      m = 0 ∧ 256 * x + 16 * y + z = 272 * s := by
  have hhigh : b / 16 = x := by omega
  have hlow : 8 * (b / 8 % 2) + b % 8 = y := by omega
  rw [hhigh]
  constructor
  · rintro ⟨hnum, hmore, hsize⟩
    have hz0 : z = 0 := by omega
    have hm0 : m = 0 := by omega
    omega
  · rintro ⟨rfl, hnum⟩
    have hxs : x = s := by interval_cases s <;> omega
    have hys : y = s := by omega
    omega

theorem block1_three_bytes (hb : b < 256) (hx : x < 16) (hy : y < 16) (hm : m ≤ 1)
    (hs : s ≤ 7) (hf : f = 16 * z + 8 * m + s) (hc : c = 16 * x + y) (hz : z < 16) :
    65536 * f + 256 * c + 16 * (b / 16) = 4096 * b + 256 * x + 16 * y + z ∧
        8 * (b / 8 % 2) = m ∧ b % 8 = s ↔
      m = 0 ∧ 4096 * b + 256 * x + 16 * y + z = 69904 * s := by
  have hsplit : b = 16 * (b / 16) + (8 * (b / 8 % 2) + b % 8) := by omega
  have hlow : b / 8 % 2 < 2 := Nat.mod_lt _ (by decide)
  have hlow' : b % 8 < 8 := Nat.mod_lt _ (by decide)
  generalize b / 16 = u at hsplit ⊢
  generalize b / 8 % 2 = d at hsplit hlow ⊢
  generalize b % 8 = t at hsplit hlow' ⊢
  constructor
  · rintro ⟨hnum, hmore, hsize⟩
    have hz0 : z = 0 := by omega
    have hm0 : m = 0 := by omega
    omega
  · rintro ⟨rfl, hnum⟩
    have hbs : b = 17 * s := by interval_cases s <;> omega
    have hxs : x = s := by interval_cases s <;> omega
    have hhigh : u = s := by omega
    omega

end Nibbles

/-- The accessor for Block1 takes the flags and the low bits of the number from the first byte
and not from the last one. -/
theorem decodeBlock1_blockValue (hnum : block.number.toNat < 2 ^ 20)
    (hmore : block.moreFlag.toNat ≤ 1) (hsize : block.size.toNat ≤ 7) :
    decodeBlock1 (UInt16.ofNat (blockValue block).length) (blockValue block ++ rest) =
        some block.recv ↔
      block.moreFlag.toNat = 0 ∧ (block.number.toNat = 0 ∨
        block.number.toNat = 272 * block.size.toNat ∨
        block.number.toNat = 69904 * block.size.toNat) := by
  have hflags := toNat_blockFlags block
  have hfour := toNat_number_four block.number
  have htwelve := toNat_number_twelve block.number
  have hrecv : block.recv.number.toNat = block.number.toNat ∧
      block.recv.moreFlag.toNat = block.moreFlag.toNat := ⟨rfl, rfl⟩
  have hone : block.number ≤ 0x0F ↔ block.number.toNat ≤ 15 := UInt32.le_iff_toNat_le
  have htwo : block.number ≤ 0x0FFF ↔ block.number.toNat ≤ 4095 := UInt32.le_iff_toNat_le
  unfold blockValue
  split_ifs with h₁ h₂
  · rw [hone] at h₁
    refine decodeBlock1_one.trans ?_
    rw [toNat_size_recv hsize, hrecv.1, hrecv.2,
      block1_one_byte hmore hsize (by omega)]
    omega
  · rw [hone] at h₁
    rw [htwo] at h₂
    refine decodeBlock1_two.trans ?_
    rw [toNat_size_recv hsize, hrecv.1, hrecv.2]
    have hnibbles := block1_two_bytes (x := block.number.toNat / 256)
      (y := block.number.toNat / 16 % 16) (z := block.number.toNat % 16)
      (b := (block.number >>> 4).toUInt8.toNat) (f := (blockFlags block).toNat)
      (by omega) hmore hsize (by omega) (by omega) (by omega)
    rw [show 256 * (block.number.toNat / 256) + 16 * (block.number.toNat / 16 % 16) +
      block.number.toNat % 16 = block.number.toNat by omega] at hnibbles
    rw [hnibbles]
    omega
  · rw [hone] at h₁
    rw [htwo] at h₂
    refine decodeBlock1_three.trans ?_
    rw [toNat_size_recv hsize, hrecv.1, hrecv.2]
    have hnibbles := block1_three_bytes (x := block.number.toNat / 256 % 16)
      (y := block.number.toNat / 16 % 16) (z := block.number.toNat % 16)
      (b := (block.number >>> 12).toUInt8.toNat) (c := (block.number >>> 4).toUInt8.toNat)
      (f := (blockFlags block).toNat) (by omega) (by omega) (by omega) hmore hsize
      (by omega) (by omega) (by omega)
    rw [show 4096 * (block.number >>> 12).toUInt8.toNat + 256 * (block.number.toNat / 256 % 16) +
      16 * (block.number.toNat / 16 % 16) + block.number.toNat % 16 = block.number.toNat by omega]
      at hnibbles
    rw [hnibbles]
    omega

end Decode

section Delivered

variable {coap : Package} {g g' : SharedPDU} {datagram after str : List UInt8} {addr : ℕ}
  {p : CoapPDU} {t : BlockOption} {num more size : ℕ}

theorem blockOption_pairs (hset : coap.LastSet t.type str (UInt32.ofNat size) (UInt32.ofNat num)
    (UInt32.ofNat more)) :
    (packagePairs coap.options).filter (·.number = t.type.number) = [⟨t.type.number,
      blockValue ⟨UInt32.ofNat size, UInt32.ofNat num, (UInt32.ofNat more).toUInt8⟩⟩] := by
  obtain ⟨option, hmem, htype, before, hbefore, hassign⟩ := hset.exists_option
  rw [filter_packagePairs hset.configured.nodup hmem (by rw [htype]) (by cases t <;> decide)]
  cases t with
  | block1 | block2 =>
    simp only [CoapOption.assign, hbefore, BlockOption.type] at hassign
    obtain rfl := Except.ok.inj hassign
    simp [optionPairs, BlockOption.type]

theorem BlockOption.recv_of_buff {buffLen : UInt16} {buff : List UInt8}
    (h : p.recvBuff t.type.number = .ok (buffLen, buff)) :
    t.recv p = .ok (if buffLen > 0 then t.decode buffLen buff else none) := by
  cases t with
  | block1 =>
    change coapGetRecvOptionBlock1 p = _
    rw [coapGetRecvOptionBlock1, show p.recvBuff COAP_OPTION_BLOCK1 = _ from h, ok_bind]
    dsimp only [decode]
    split_ifs <;> rfl
  | block2 =>
    change coapGetRecvOptionBlock2 p = _
    rw [coapGetRecvOptionBlock2, show p.recvBuff COAP_OPTION_BLOCK2 = _ from h, ok_bind]
    dsimp only [decode]
    split_ifs <;> rfl

theorem BlockOption.recv_nil (h : ∀ buffer dst,
    p.getOptionValueById t.type.number buffer dst = copyValues buffer dst []) :
    t.recv p = .ok none :=
  recv_of_buff (by rw [recvBuff, h]; rfl)

theorem BlockOption.recv_value {value : List UInt8} (hpos : 0 < value.length)
    (hlen : value.length ≤ 10) (h : ∀ buffer dst, p.getOptionValueById t.type.number buffer dst =
      copyValues buffer dst [⟨t.type.number, value⟩]) :
    t.recv p = .ok (t.decode (UInt16.ofNat value.length)
      (value ++ (List.replicate 10 0).drop value.length)) := by
  have hbuff : p.recvBuff t.type.number = .ok (UInt16.ofNat value.length,
      value ++ (List.replicate 10 0).drop value.length) := by
    rw [recvBuff, h, copyValues, List.foldlM_cons, copyValue, if_pos (by simpa using hlen)]
    rfl
  have hgt : UInt16.ofNat value.length > 0 := by
    rw [gt_iff_lt, UInt16.lt_iff_toNat_lt, UInt16.toNat_ofNat']
    change 0 < _
    omega
  rw [recv_of_buff hbuff, if_pos hgt]

/-- What the receiver's accessor delivers of a block: Block2 arrives whenever the datagram goes on
to its end, Block1 only if the first byte also says what the last one does. -/
theorem blockOption_delivered_iff (hg : g.Used) (h8 : coap.tokenLen ≤ 8) (hnum : num < 2 ^ 20)
    (hmore : more ≤ 1) (hsize : size ≤ 6)
    (hset : coap.LastSet t.type str (UInt32.ofNat size) (UInt32.ofNat num) (UInt32.ofNat more))
    (hsend : coapSend g coap = .ok (g', datagram))
    (hrecv : coapCreateRecv addr (datagram ++ after) datagram.length = .ok (some p)) :
    t.recv p = .ok (some ⟨UInt32.ofNat num, UInt8.ofNat more, UInt8.ofNat size⟩) ↔
      (t = .block1 → more = 0 ∧ (num = 0 ∨ num = 272 * size ∨ num = 69904 * size)) ∧
        coap.reach t.type.number ≤ coap.message.length % 65536 := by
  obtain ⟨opts, hget, hfront, hall⟩ := getOptionValueById_sent hg.idle h8 hsend hrecv t.type.number
  rw [blockOption_pairs hset] at hfront hall
  rw [or_iff_right (by simp)] at hall
  obtain rfl | rfl := eq_nil_or_eq_of_front hfront
  · have hreach := hall.not.mp (by simp)
    rw [BlockOption.recv_nil hget]
    exact iff_of_false (by simp) fun h => hreach h.2
  · obtain ⟨block, hblock⟩ : ∃ block : OptionBlock,
      block = ⟨UInt32.ofNat size, UInt32.ofNat num, (UInt32.ofNat more).toUInt8⟩ := ⟨_, rfl⟩
    have hn : block.number.toNat = num := by
      rw [hblock, UInt32.toNat_ofNat']
      omega
    have hm : block.moreFlag.toNat = more := by
      rw [hblock, UInt32.toNat_toUInt8, UInt32.toNat_ofNat']
      omega
    have hs : block.size.toNat = size := by
      rw [hblock, UInt32.toNat_ofNat']
      omega
    have hblockRecv : RecvBlock.mk (UInt32.ofNat num) (UInt8.ofNat more) (UInt8.ofNat size) =
        block.recv := by
      rw [recvBlock_eq_iff, toNat_size_recv (by omega), hs]
      change _ = block.number.toNat ∧ _ = block.moreFlag.toNat ∧ _
      rw [hn, hm, UInt32.toNat_ofNat', UInt8.toNat_ofNat', UInt8.toNat_ofNat']
      omega
    rw [← hblock] at hget hall
    rw [BlockOption.recv_value (length_blockValue_pos block)
      ((length_blockValue_le block).trans (by omega)) hget, hblockRecv, Except.ok.injEq,
      and_iff_left (hall.mp rfl)]
    cases t with
    | block1 =>
      rw [← hn, ← hm, ← hs]
      exact (decodeBlock1_blockValue (by omega) (by omega) (by omega)).trans (by simp)
    | block2 =>
      exact iff_of_true (decodeBlock2_blockValue (by omega) (by omega) (by omega)) (by simp)

/-- A PUT request on which only Block1 was set. -/
def block1Request (num : UInt32) : Package :=
  { listItemInit 7 with
    code := COAP_PUT
    options := [{ CoapOption.zero .block1 with optBlock := ⟨6, num, 0⟩ }] }

theorem lastSet_block1Request (num : UInt32) :
    (block1Request num).LastSet .block1 [] 6 num 0 := by
  have hset : setOption { listItemInit 7 with code := COAP_PUT } .block1 [] 6 num 0 =
      .ok (block1Request num) := rfl
  exact .set (.start rfl) hset

theorem block1_zero_delivered :
    ∃ g' p, coapSend (.null 0 fun _ => some ⟨0, fun _ => 0⟩) (block1Request 0) =
        .ok (g', [0x40, 0x03, 0x00, 0x07, 0xD1, 0x0E, 0x06]) ∧
      coapCreateRecv 0 ([0x40, 0x03, 0x00, 0x07, 0xD1, 0x0E, 0x06] ++ []) 7 = .ok (some p) ∧
      BlockOption.block1.recv p = .ok (some ⟨0, 0, 6⟩) := by
  obtain ⟨g', hsend⟩ : ∃ g', coapSend (.null 0 fun _ => some ⟨0, fun _ => 0⟩) (block1Request 0) =
      .ok (g', [0x40, 0x03, 0x00, 0x07, 0xD1, 0x0E, 0x06]) := ⟨_, rfl⟩
  obtain ⟨p, hrecv⟩ : ∃ p, coapCreateRecv 0
      ([0x40, 0x03, 0x00, 0x07, 0xD1, 0x0E, 0x06] ++ []) 7 = .ok (some p) := ⟨_, rfl⟩
  have hset : (block1Request 0).LastSet BlockOption.block1.type [] (UInt32.ofNat 6)
      (UInt32.ofNat 0) (UInt32.ofNat 0) := lastSet_block1Request 0
  exact ⟨g', p, hsend, hrecv, (blockOption_delivered_iff (.null 0 fun _ => rfl) (by decide)
    (by decide) (by decide) (by decide) hset hsend hrecv).mpr
      ⟨fun _ => ⟨rfl, .inl rfl⟩, by decide⟩⟩

/-- Block 1 arrives as block 16. -/
theorem not_block1_one_delivered :
    ∃ g' p, (block1Request 1).LastSet .block1 [] 6 1 0 ∧
      coapSend (.null 0 fun _ => some ⟨0, fun _ => 0⟩) (block1Request 1) =
        .ok (g', [0x40, 0x03, 0x00, 0x07, 0xD1, 0x0E, 0x16]) ∧
      coapCreateRecv 0 ([0x40, 0x03, 0x00, 0x07, 0xD1, 0x0E, 0x16] ++ []) 7 = .ok (some p) ∧
      ¬ BlockOption.block1.recv p = .ok (some ⟨1, 0, 6⟩) :=
  ⟨_, _, lastSet_block1Request 1, rfl, rfl, by
    intro h
    exact absurd (Option.some.inj (Except.ok.inj h)) (by decide)⟩

end Delivered

end Mbtk.Client
