import Mbtk.Yuv.Bounds

namespace Mbtk.Yuv

open Lib

def bmpHeader : List UInt8 :=
  [0x42, 0x4d,
    0, 0, 0, 0,
    0, 0,
    0, 0,
    54, 0, 0, 0,
    40, 0, 0, 0,
    0, 0, 0, 0,
    0, 0, 0, 0,
    1, 0,
    24, 0,
    0, 0, 0, 0,
    0, 0, 0, 0,
    0, 0, 0, 0,
    0, 0, 0, 0,
    0, 0, 0, 0,
    0, 0, 0, 0]

/-- The four assignments that spread a value over four bytes of the header. -/
def setDword (header : List UInt8) (i value : ℕ) : List UInt8 :=
  (((header.set i (UInt8.ofNat (value &&& 0xff))).set (i + 1)
    (UInt8.ofNat (value >>> 8 &&& 0xff))).set (i + 2)
    (UInt8.ofNat (value >>> 16 &&& 0xff))).set (i + 3)
    (UInt8.ofNat (value >>> 24 &&& 0xff))

def sizedHeader (width height : UInt32) : List UInt8 :=
  let fileSize := width.toNat * height.toNat * 3 + 54
  setDword (setDword (setDword bmpHeader 2 fileSize) 18 width.toNat) 22 height.toNat

/-- `pic_bmp_save`: its result and what it writes to the file; `none` where it reads behind the
data. `opened` is whether `fopen` succeeds. -/
def picBmpSave (opened : Bool) (width height : UInt32) (data : List UInt8) (dataLen : UInt32) :
    Option (ℤ × List UInt8) :=
  if dataLen ≠ width * height * 3 then some (-1, [])
  else if opened = false then some (-1, [])
  else if data.length < dataLen.toNat then none
  else some (0, sizedHeader width height ++ data.take dataLen.toNat)

def field (file : List UInt8) (i n : ℕ) : Option ℕ :=
  ((List.range n).mapM fun k => file[i + k]?).map fun bytes =>
    Nat.ofDigits 256 (bytes.map UInt8.toNat)

structure BmpInfo where
  offBits : ℕ
  width : ℕ
  height : ℕ
  deriving DecidableEq

/-- The header of an uncompressed bitmap of three bytes a pixel, whose height is positive as a
signed number. -/
def readInfo (file : List UInt8) : Option BmpInfo := do
  let bfType ← field file 0 2
  let offBits ← field file 10 4
  let width ← field file 18 4
  let height ← field file 22 4
  let bitCount ← field file 28 2
  let compression ← field file 30 4
  if bfType = 0x4d42 ∧ bitCount = 24 ∧ compression = 0 ∧ 0 < height ∧ height < 2 ^ 31 then
    some { offBits, width, height }
  else none

/-- `line_byte` of the reader: a row takes up a multiple of four bytes. -/
def lineByte (width bitCount : ℕ) : ℕ := (width * bitCount / 8 + 3) / 4 * 4

/-- The position of a byte of the raster: the last row comes first, and blue before red. -/
def BmpInfo.position (info : BmpInfo) (m : ℕ) : ℕ :=
  info.offBits + ((info.height - 1 - m / 3 / info.width) * lineByte info.width 24 +
    (3 * (m / 3 % info.width) + (2 - m % 3)))

/-- The width, the height and the raster of a bitmap. Of the padding nothing is read. -/
def decodeBmp (file : List UInt8) : Option (ℕ × ℕ × List UInt8) :=
  (readInfo file).bind fun info =>
    ((List.range (info.width * info.height * 3)).mapM fun m => file[info.position m]?).map
      fun raster => (info.width, info.height, raster)

/-- A picture whose file stays below `2 ^ 31` bytes. -/
structure RgbPicture where
  width : UInt32
  height : UInt32
  data : List UInt8
  width_pos : 0 < width.toNat
  height_pos : 0 < height.toNat
  small : width.toNat * height.toNat * 3 + 54 < 2 ^ 31
  length_data : data.length = width.toNat * height.toNat * 3

namespace RgbPicture

variable (picture : RgbPicture)

/-- The picture is saved, and what was saved is the picture. -/
def ReadsBack : Prop :=
  ∃ file, picBmpSave true picture.width picture.height picture.data
      (picture.width * picture.height * 3) = some (0, file) ∧
    decodeBmp file = some (picture.width.toNat, picture.height.toNat, picture.data)

def channel (row column k : ℕ) : Option UInt8 :=
  picture.data[3 * (row * picture.width.toNat + column) + k]?

/-- Turning the picture upside down exchanges red and blue. -/
def Mirrored : Prop :=
  ∀ row < picture.height.toNat, ∀ column < picture.width.toNat, ∀ k < 3,
    picture.channel (picture.height.toNat - 1 - row) column (2 - k) = picture.channel row column k

end RgbPicture

section Header

theorem bytes_value {n : ℕ} (h : n < 2 ^ 32) :
    Nat.ofDigits 256 (([n &&& 0xff, n >>> 8 &&& 0xff, n >>> 16 &&& 0xff, n >>> 24 &&& 0xff].map
      UInt8.ofNat).map UInt8.toNat) = n := by
  have hbyte (k : ℕ) : (UInt8.ofNat (k &&& 0xff)).toNat = k % 256 := by
    rw [UInt8.toNat_ofNat', Nat.and_two_pow_sub_one_eq_mod k 8]
    exact Nat.mod_mod _ _
  simp only [List.map_cons, List.map_nil, hbyte, Nat.ofDigits_cons, Nat.ofDigits_nil,
    Nat.shiftRight_eq_div_pow]
  omega

theorem field_eq {file bytes : List UInt8} {i n : ℕ} (h : (file.drop i).take n = bytes)
    (hn : bytes.length = n) :
    field file i n = some (Nat.ofDigits 256 (bytes.map UInt8.toNat)) := by
  have hread : ∀ k < n, file[i + k]? = bytes[k]? := fun k hk => by
    rw [← h, List.getElem?_take_of_lt hk, List.getElem?_drop]
  rw [field, mapM_range_eq_some_iff.mpr ⟨hn, hread⟩, Option.map_some]

variable {width height : UInt32} {data : List UInt8}

def dwordBytes (value : ℕ) : List UInt8 :=
  [value &&& 0xff, value >>> 8 &&& 0xff, value >>> 16 &&& 0xff, value >>> 24 &&& 0xff].map
    UInt8.ofNat

theorem sizedHeader_eq (width height : UInt32) :
    sizedHeader width height =
      [0x42, 0x4d] ++ (dwordBytes (width.toNat * height.toNat * 3 + 54) ++ ([0, 0, 0, 0] ++
        ([54, 0, 0, 0] ++ ([40, 0, 0, 0] ++ (dwordBytes width.toNat ++ (dwordBytes height.toNat ++
          ([1, 0] ++ ([24, 0] ++ ([0, 0, 0, 0] ++ List.replicate 20 0))))))))) :=
  rfl

theorem length_sizedHeader : (sizedHeader width height).length = 54 := by
  rw [sizedHeader_eq]
  rfl

theorem field_sizedHeader {bytes : List UInt8} {i n : ℕ}
    (h : ((sizedHeader width height).drop i).take n = bytes) (hin : i + n ≤ 54)
    (hn : bytes.length = n) :
    field (sizedHeader width height ++ data) i n =
      some (Nat.ofDigits 256 (bytes.map UInt8.toNat)) := by
  have hlength : (sizedHeader width height).length = 54 := length_sizedHeader
  refine field_eq ?_ hn
  rw [List.drop_append_of_le_length (by omega),
    List.take_append_of_le_length (by rw [List.length_drop]; omega), h]

theorem readInfo_sizedHeader (hpos : 0 < height.toNat) (hsmall : height.toNat < 2 ^ 31) :
    readInfo (sizedHeader width height ++ data) =
      some { offBits := 54, width := width.toNat, height := height.toNat } := by
  have htype : field (sizedHeader width height ++ data) 0 2 = some 0x4d42 := by
    have hbytes : ((sizedHeader width height).drop 0).take 2 = [0x42, 0x4d] := by
      rw [sizedHeader_eq]
      rfl
    rw [field_sizedHeader hbytes (by decide) rfl]
    rfl
  have hoffBits : field (sizedHeader width height ++ data) 10 4 = some 54 := by
    have hbytes : ((sizedHeader width height).drop 10).take 4 = [54, 0, 0, 0] := by
      rw [sizedHeader_eq]
      rfl
    rw [field_sizedHeader hbytes (by decide) rfl]
    rfl
  have hwidth : field (sizedHeader width height ++ data) 18 4 = some width.toNat := by
    have hbytes : ((sizedHeader width height).drop 18).take 4 = dwordBytes width.toNat := by
      rw [sizedHeader_eq]
      rfl
    rw [field_sizedHeader hbytes (by decide) rfl]
    exact congrArg some (bytes_value width.toNat_lt)
  have hheight : field (sizedHeader width height ++ data) 22 4 = some height.toNat := by
    have hbytes : ((sizedHeader width height).drop 22).take 4 = dwordBytes height.toNat := by
      rw [sizedHeader_eq]
      rfl
    rw [field_sizedHeader hbytes (by decide) rfl]
    exact congrArg some (bytes_value height.toNat_lt)
  have hbitCount : field (sizedHeader width height ++ data) 28 2 = some 24 := by
    have hbytes : ((sizedHeader width height).drop 28).take 2 = [24, 0] := by
      rw [sizedHeader_eq]
      rfl
    rw [field_sizedHeader hbytes (by decide) rfl]
    rfl
  have hcompression : field (sizedHeader width height ++ data) 30 4 = some 0 := by
    have hbytes : ((sizedHeader width height).drop 30).take 4 = [0, 0, 0, 0] := by
      rw [sizedHeader_eq]
      rfl
    rw [field_sizedHeader hbytes (by decide) rfl]
    rfl
  simp only [readInfo, htype, hoffBits, hwidth, hheight, hbitCount, hcompression,
    Option.bind_eq_bind, Option.bind_some]
  exact if_pos ⟨trivial, trivial, trivial, hpos, hsmall⟩

end Header

section Raster

variable {w h : ℕ}

theorem lineByte_eq (w : ℕ) : lineByte w 24 = (3 * w + 3) / 4 * 4 := by
  rw [lineByte]
  omega

theorem lineByte_of_dvd (hw : w % 4 = 0) : lineByte w 24 = 3 * w := by
  rw [lineByte_eq]
  omega

theorem lt_lineByte (hw : w % 4 ≠ 0) : 3 * w < lineByte w 24 := by
  rw [lineByte_eq]
  omega

theorem exists_channel {m : ℕ} (hw : 0 < w) (hm : m < w * h * 3) :
    ∃ row < h, ∃ column < w, ∃ k < 3, m = 3 * (row * w + column) + k := by
  have hpixel : m / 3 < w * h := by omega
  refine ⟨m / 3 / w, Nat.div_lt_of_lt_mul hpixel, m / 3 % w, Nat.mod_lt _ hw, m % 3,
    Nat.mod_lt _ (by decide), ?_⟩
  rw [Nat.div_add_mod' (m / 3) w, Nat.div_add_mod]

theorem position_channel (offBits : ℕ) {row column k : ℕ} (hcolumn : column < w) (hk : k < 3) :
    BmpInfo.position ⟨offBits, w, h⟩ (3 * (row * w + column) + k) =
      offBits + ((h - 1 - row) * lineByte w 24 + (3 * column + (2 - k))) := by
  have hpixel : (3 * (row * w + column) + k) / 3 = row * w + column := by omega
  have hchannel : (3 * (row * w + column) + k) % 3 = k := by omega
  have hrow : (row * w + column) / w = row := by
    rw [Nat.add_comm, Nat.add_mul_div_right _ _ (by omega), Nat.div_eq_of_lt hcolumn, Nat.zero_add]
  have hcolumn' : (row * w + column) % w = column := by
    rw [Nat.add_comm, Nat.add_mul_mod_self_right, Nat.mod_eq_of_lt hcolumn]
  rw [BmpInfo.position, hpixel, hchannel, hrow, hcolumn']

end Raster

namespace RgbPicture

theorem picBmpSave_eq (picture : RgbPicture) :
    picBmpSave true picture.width picture.height picture.data
        (picture.width * picture.height * 3) =
      some (0, sizedHeader picture.width picture.height ++ picture.data) := by
  have hsmall := picture.small
  have hlen : (picture.width * picture.height * 3).toNat = picture.data.length := by
    rw [toNat_len, picture.length_data]
    exact Nat.mod_eq_of_lt (by omega)
  rw [picBmpSave, if_neg (not_not.mpr rfl), if_neg Bool.true_eq_false.mp, hlen,
    if_neg (Nat.lt_irrefl _), List.take_length]

theorem readInfo_eq (picture : RgbPicture) :
    readInfo (sizedHeader picture.width picture.height ++ picture.data) =
      some ⟨54, picture.width.toNat, picture.height.toNat⟩ := by
  have hsmall := picture.small
  have hheight : picture.height.toNat ≤ picture.width.toNat * picture.height.toNat :=
    Nat.le_mul_of_pos_left _ picture.width_pos
  exact readInfo_sizedHeader picture.height_pos (by omega)

theorem readsBack_iff_channel (picture : RgbPicture) :
    picture.ReadsBack ↔ ∀ row < picture.height.toNat, ∀ column < picture.width.toNat, ∀ k < 3,
      picture.data[(picture.height.toNat - 1 - row) * lineByte picture.width.toNat 24 +
        (3 * column + (2 - k))]? = picture.channel row column k := by
  let w := picture.width.toNat
  let h := picture.height.toNat
  let info : BmpInfo := ⟨54, w, h⟩
  let file := sizedHeader picture.width picture.height ++ picture.data
  have hfile (n : ℕ) : file[54 + n]? = picture.data[n]? := by
    rw [List.getElem?_append_right (by rw [length_sizedHeader]; exact Nat.le_add_right _ _),
      length_sizedHeader, Nat.add_sub_cancel_left]
  have hread : decodeBmp file = some (w, h, picture.data) ↔
      ∀ m < w * h * 3, file[info.position m]? = picture.data[m]? := by
    rw [decodeBmp, picture.readInfo_eq, Option.bind_some, Option.map_eq_some_iff]
    constructor
    · rintro ⟨raster, hraster, heq⟩
      obtain rfl : raster = picture.data := congrArg (fun result => result.2.2) heq
      exact (mapM_range_eq_some_iff.mp hraster).2
    · intro hpositions
      exact ⟨picture.data, mapM_range_eq_some_iff.mpr ⟨picture.length_data, hpositions⟩, rfl⟩
  have hsaved : picture.ReadsBack ↔ decodeBmp file = some (w, h, picture.data) := by
    unfold ReadsBack
    rw [picture.picBmpSave_eq]
    constructor
    · rintro ⟨saved, hsave, hdecode⟩
      obtain rfl : file = saved := congrArg Prod.snd (Option.some.inj hsave)
      exact hdecode
    · exact fun hdecode => ⟨file, rfl, hdecode⟩
  rw [hsaved, hread]
  constructor
  · intro hpositions row hrow column hcolumn k hk
    have hpixel : row * w + column < w * h := pixel_lt hrow hcolumn
    have hm := hpositions (3 * (row * w + column) + k) (by omega)
    rwa [position_channel 54 hcolumn hk, hfile] at hm
  · intro hchannels m hm
    obtain ⟨row, hrow, column, hcolumn, k, hk, rfl⟩ := exists_channel picture.width_pos hm
    rw [position_channel 54 hcolumn hk, hfile]
    exact hchannels row hrow column hcolumn k hk

theorem getElem?_of_padding {picture : RgbPicture}
    (hpadding : picture.height.toNat = 1 ∨ picture.width.toNat % 4 = 0) {row : ℕ} (column k : ℕ)
    (hrow : row < picture.height.toNat) :
    picture.data[(picture.height.toNat - 1 - row) * lineByte picture.width.toNat 24 +
        (3 * column + (2 - k))]? =
      picture.channel (picture.height.toNat - 1 - row) column (2 - k) := by
  have hline : (picture.height.toNat - 1 - row) * lineByte picture.width.toNat 24 =
      3 * ((picture.height.toNat - 1 - row) * picture.width.toNat) := by
    obtain hone | hdvd := hpadding
    · have hzero : picture.height.toNat - 1 - row = 0 := by omega
      rw [hzero, Nat.zero_mul, Nat.zero_mul]
    · rw [lineByte_of_dvd hdvd]
      ring
  rw [channel, hline, Nat.mul_add, Nat.add_assoc]

theorem padding_of_channel {picture : RgbPicture}
    (hchannels : ∀ row < picture.height.toNat, ∀ column < picture.width.toNat, ∀ k < 3,
      picture.data[(picture.height.toNat - 1 - row) * lineByte picture.width.toNat 24 +
        (3 * column + (2 - k))]? = picture.channel row column k) :
    picture.height.toNat = 1 ∨ picture.width.toNat % 4 = 0 := by
  have hwidth := picture.width_pos
  have hheight := picture.height_pos
  by_contra! hnot
  have hlast : picture.width.toNat - 1 < picture.width.toNat := Nat.sub_one_lt_of_lt hwidth
  have hfirst := hchannels 0 hheight (picture.width.toNat - 1) hlast 0 (by decide)
  have hpixel := pixel_lt hheight hlast
  have hstored : 3 * (0 * picture.width.toNat + (picture.width.toNat - 1)) + 0 <
      picture.data.length := by
    rw [picture.length_data]
    omega
  rw [channel, List.getElem?_eq_getElem hstored] at hfirst
  obtain ⟨hread, -⟩ := List.getElem?_eq_some_iff.mp hfirst
  rw [picture.length_data, Nat.sub_zero] at hread
  have hlines : (picture.height.toNat - 1) * (3 * picture.width.toNat + 1) ≤
      (picture.height.toNat - 1) * lineByte picture.width.toNat 24 :=
    Nat.mul_le_mul_left _ (lt_lineByte hnot.2)
  have hrows : picture.width.toNat * picture.height.toNat * 3 =
      (picture.height.toNat - 1) * (3 * picture.width.toNat) + 3 * picture.width.toNat := by
    obtain ⟨n, hn⟩ := Nat.exists_eq_add_one.mpr hheight
    rw [hn, Nat.add_sub_cancel]
    ring
  rw [Nat.mul_succ] at hlines
  omega

/-- A saved picture reads back exactly if its rows need no padding, or it has one row only, and
turning it upside down exchanges red and blue. -/
theorem readsBack_iff (picture : RgbPicture) :
    picture.ReadsBack ↔
      (picture.height.toNat = 1 ∨ picture.width.toNat % 4 = 0) ∧ picture.Mirrored := by
  rw [readsBack_iff_channel]
  constructor
  · intro hchannels
    have hpadding := padding_of_channel hchannels
    refine ⟨hpadding, fun row hrow column hcolumn k hk => ?_⟩
    rw [← getElem?_of_padding hpadding column k hrow]
    exact hchannels row hrow column hcolumn k hk
  · rintro ⟨hpadding, hmirrored⟩ row hrow column hcolumn k hk
    rw [getElem?_of_padding hpadding column k hrow]
    exact hmirrored row hrow column hcolumn k hk

def redPixel : RgbPicture where
  width := 1
  height := 1
  data := [255, 0, 0]
  width_pos := Nat.one_pos
  height_pos := Nat.one_pos
  small := by decide
  length_data := rfl

theorem not_readsBack_redPixel : ¬ redPixel.ReadsBack := by
  rintro ⟨file, hsave, hdecode⟩
  obtain rfl : sizedHeader 1 1 ++ [255, 0, 0] = file := congrArg Prod.snd (Option.some.inj hsave)
  exact absurd hdecode (by decide)

end RgbPicture

end Mbtk.Yuv
