import Mbtk.Yuv.Layouts

namespace Mbtk.Yuv

open Lib MString YuvType

/-- The body of the innermost loop of `yuv_2_rgb`, with `point_index` and the bytes at `rgb`. -/
def yuv2Point (width : UInt32) (yData : List UInt8) (u v : ℤ) (h w i j : ℕ)
    (s : UInt32 × List UInt8) : Option (UInt32 × List UInt8) := do
  let y ← yData[(UInt32.ofNat (h + i) * width + UInt32.ofNat w + UInt32.ofNat j).toNat]?
  let y1192 := 1192 * luma y
  let rgb ← writePixel s.2 s.1 (y1192 + 1634 * v) (y1192 - 833 * v - 400 * u) (y1192 + 2066 * u)
  return (s.1 + 1, rgb)

/-- A block of two by two pixels.  The column goes on by 2 in an `int`. -/
def yuv2Block (width : UInt32) (yData uData vData : List UInt8) (h w : ℕ)
    (s : UInt32 × List UInt8) : Option (UInt32 × List UInt8) := do
  let u ← uData[(UInt32.ofNat (h / 2) * width + UInt32.ofNat (w / 2)).toNat]?
  let v ← vData[(UInt32.ofNat (h / 2) * width + UInt32.ofNat (w / 2)).toNat]?
  let s ← forLoop
    (fun i s => forLoop (fun j s => yuv2Point width yData (chroma u) (chroma v) h w i j s) s 2) s 2
  let _ ← CInt.add w 2
  return s

def yuv2Rows (width : UInt32) (yData uData vData : List UInt8) (h : ℕ) (s : UInt32 × List UInt8) :
    Option (UInt32 × List UInt8) := do
  let s ← forLoop (fun k s => yuv2Block width yData uData vData h (2 * k) s) s
    ((width.toNat + 1) / 2)
  let _ ← CInt.add h 2
  return s

def yuv2Rgb (type : YuvType) (width height : UInt32) (yData uData vData rgb : List UInt8) :
    Option (ℤ × List UInt8) :=
  if type = YUV_TYPE_422_MAX then some (-1, rgb)
  else if type = YUV_TYPE_420_MAX then some (0, rgb)
  else (forLoop (fun k s => yuv2Rows width yData uData vData (2 * k) s) (0, rgb)
    ((height.toNat + 1) / 2)).map fun s => (0, s.2)

/-- From the planes the same bytes come out as from the frame. -/
def Planes.Agrees {width height : UInt32} (p : Planes width.toNat height.toNat) : Prop :=
  ∀ dst : List UInt8, dst.length = width.toNat * height.toNat * 3 →
    ∃ bytes, yuv420ToRgb YUV_TYPE_I420 width height (p.y ++ p.u ++ p.v) dst = some bytes ∧
      yuv2Rgb YUV_TYPE_I420 width height p.y p.u p.v dst = some (0, bytes)

def Planes.blockPixel {w h : ℕ} (p : Planes w h) (n : ℕ) : List UInt8 :=
  p.pixel (n % 4 / 2) (2 * (n / 4) + n % 2)

section Blocks

variable {width height : UInt32} {p : Planes width.toNat height.toNat} {dst : List UInt8}

/-- The state in front of a point: the pixels of the points before it are written. -/
structure Planes.AtPoint (p : Planes width.toNat height.toNat) (dst : List UInt8) (n : ℕ)
    (s : UInt32 × List UInt8) : Prop where
  index : s.1.toNat = n
  rgb : s.2 = pixels p.blockPixel n ++ dst.drop (3 * n)

theorem colour_rgb (y u v : UInt8) :
    [colour (1192 * luma y + 1634 * chroma v),
      colour (1192 * luma y - 833 * chroma v - 400 * chroma u),
      colour (1192 * luma y + 2066 * chroma u)] = rgb y u v := by
  rw [rgb, ← luma_eq]
  rfl

theorem Planes.blockPixel_eq {k i j : ℕ} (hi : i < 2) (hj : j < 2) :
    p.blockPixel (4 * k + 2 * i + j) =
      rgb (p.y.getD (i * width.toNat + (2 * k + j)) 0) (p.u.getD k 0) (p.v.getD k 0) := by
  have hrow : (4 * k + 2 * i + j) % 4 / 2 = i := by omega
  have hcolumn : 2 * ((4 * k + 2 * i + j) / 4) + (4 * k + 2 * i + j) % 2 = 2 * k + j := by omega
  have hchroma : i / 2 * (width.toNat / 2) + (2 * k + j) / 2 = k := by
    rw [Nat.div_eq_of_lt hi, Nat.zero_mul]
    omega
  rw [blockPixel, hrow, hcolumn, pixel, hchroma]

theorem exists_yuv2Point {k i j : ℕ} {s : UInt32 × List UInt8} (hheight : height.toNat = 2)
    (hw : width.toNat % 2 = 0) (hlt : width.toNat * 2 * 3 < 2 ^ 31)
    (hdst : dst.length = width.toNat * 2 * 3) (hk : 2 * k < width.toNat) (hi : i < 2) (hj : j < 2)
    (hs : p.AtPoint dst (4 * k + 2 * i + j) s) :
    ∃ t, yuv2Point width p.y (chroma (p.u.getD k 0)) (chroma (p.v.getD k 0)) 0 (2 * k) i j s =
        some t ∧
      p.AtPoint dst (4 * k + 2 * i + (j + 1)) t := by
  have hrow : i * width.toNat ≤ width.toNat :=
      (Nat.mul_le_mul_right _ (by omega)).trans_eq (Nat.one_mul _)
  have hindex : (UInt32.ofNat (0 + i) * width + UInt32.ofNat (2 * k) + UInt32.ofNat j).toNat =
      i * width.toNat + (2 * k + j) := by
    rw [UInt32.toNat_add, UInt32.toNat_add, UInt32.toNat_mul, toNat_ofNat (by omega),
      toNat_ofNat (by omega), toNat_ofNat (by omega), Nat.zero_add]
    omega
  have hy : p.y[i * width.toNat + (2 * k + j)]? =
      some (p.y.getD (i * width.toNat + (2 * k + j)) 0) :=
    getElem?_eq_getD (by rw [p.length_y, hheight]; omega)
  have hroom : 3 * (4 * k + 2 * i + j) + 3 ≤ dst.length := by omega
  have hwrite := copyInto_pixels (f := p.blockPixel) (fun _ => rfl) hroom
  rw [Planes.blockPixel_eq hi hj] at hwrite
  refine ⟨(s.1 + 1, pixels p.blockPixel (4 * k + 2 * i + j + 1) ++
    dst.drop (3 * (4 * k + 2 * i + j + 1))), ?_, ?_, rfl⟩
  · rw [yuv2Point, hindex, hy]
    simp only [Option.bind_eq_bind, Option.bind_some]
    rw [writePixel_eq (by rw [hs.index]; omega), colour_rgb, hs.index, hs.rgb, hwrite]
    rfl
  · rw [UInt32.toNat_add, hs.index, UInt32.toNat_one]
    omega

theorem exists_yuv2Block {k : ℕ} {s : UInt32 × List UInt8} (hheight : height.toNat = 2)
    (hw : width.toNat % 2 = 0) (hlt : width.toNat * 2 * 3 < 2 ^ 31)
    (hdst : dst.length = width.toNat * 2 * 3) (hk : 2 * k < width.toNat)
    (hs : p.AtPoint dst (4 * k) s) :
    ∃ t, yuv2Block width p.y p.u p.v 0 (2 * k) s = some t ∧ p.AtPoint dst (4 * (k + 1)) t := by
  have hindex : (UInt32.ofNat (0 / 2) * width + UInt32.ofNat (2 * k / 2)).toNat = k := by
    rw [UInt32.toNat_add, UInt32.toNat_mul, toNat_ofNat (by omega),
      toNat_ofNat (by omega)]
    omega
  have hsize : k < width.toNat / 2 * (height.toNat / 2) := by
    rw [hheight]
    omega
  have hu := getElem?_eq_getD (l := p.u) (i := k) (by rw [p.length_u]; exact hsize)
  have hv := getElem?_eq_getD (l := p.v) (i := k) (by rw [p.length_v]; exact hsize)
  obtain ⟨t, hrun, ht⟩ := exists_forLoop (n := 2) (I := fun i => p.AtPoint dst (4 * k + 2 * i)) hs
    fun i hi s hs => exists_forLoop (n := 2) (I := fun j => p.AtPoint dst (4 * k + 2 * i + j)) hs
      fun j hj s hs => exists_yuv2Point hheight hw hlt hdst hk hi hj hs
  have hadd : CInt.add (2 * k : ℕ) 2 = some (((2 * k : ℕ) : ℤ) + 2) :=
      CInt.add_of_lt (by omega) (by omega)
  refine ⟨t, ?_, by rwa [Nat.mul_succ]⟩
  rw [yuv2Block, hindex, hu, hv]
  simp only [Option.bind_eq_bind, Option.bind_some, hrun, hadd]
  rfl

theorem yuv2Rgb_two (hheight : height.toNat = 2) (hw : width.toNat % 2 = 0)
    (hlt : width.toNat * 2 * 3 < 2 ^ 31) (hdst : dst.length = width.toNat * 2 * 3) :
    yuv2Rgb YUV_TYPE_I420 width height p.y p.u p.v dst =
      some (0, pixels p.blockPixel (width.toNat * 2)) := by
  have hstart : p.AtPoint dst 0 (0, dst) := ⟨rfl, rfl⟩
  obtain ⟨t, hrun, ht⟩ := exists_forLoop (n := (width.toNat + 1) / 2)
    (I := fun k => p.AtPoint dst (4 * k)) hstart
    fun k hk s hs => exists_yuv2Block hheight hw hlt hdst (by omega) hs
  have hrows : yuv2Rows width p.y p.u p.v (2 * 0) (0, dst) = some t := by
    have hadd : CInt.add (2 * 0 : ℕ) 2 = some 2 := by decide
    rw [yuv2Rows]
    simp only [Option.bind_eq_bind, hrun, Option.bind_some, hadd]
    rfl
  have hhalf : (height.toNat + 1) / 2 = 1 := by rw [hheight]
  have hcount : 4 * ((width.toNat + 1) / 2) = width.toNat * 2 := by omega
  have hend : dst.drop (3 * (width.toNat * 2)) = [] := List.drop_eq_nil_of_le (by omega)
  rw [yuv2Rgb, if_neg (by decide), if_neg (by decide), hhalf, forLoop, forLoop, Option.bind_some,
    hrows, Option.map_some, ht.rgb, hcount, hend, List.append_nil]

theorem yuv2Rows_zero (hwidth : width.toNat = 0) (yData uData vData : List UInt8) (h : ℕ)
    (s : UInt32 × List UInt8) :
    yuv2Rows width yData uData vData h s = (CInt.add h 2).map fun _ => s := by
  have hloop : (width.toNat + 1) / 2 = 0 := by rw [hwidth]
  rw [yuv2Rows, hloop, forLoop, Option.bind_eq_bind, Option.bind_some, Option.map_eq_bind]
  rfl

theorem yuv2Rgb_zero (hwidth : width.toNat = 0) (hh : height.toNat % 2 = 0)
    (hheight : height.toNat < 2 ^ 31) :
    yuv2Rgb YUV_TYPE_I420 width height p.y p.u p.v dst = some (0, dst) := by
  obtain ⟨t, hrun, rfl⟩ := exists_forLoop (n := (height.toNat + 1) / 2)
    (f := fun k s => yuv2Rows width p.y p.u p.v (2 * k) s)
    (I := fun _ s => s = ((0, dst) : UInt32 × List UInt8)) rfl fun k hk s hs => by
      have hadd : CInt.add (2 * k : ℕ) 2 = some (((2 * k : ℕ) : ℤ) + 2) :=
        CInt.add_of_lt (by omega) (by omega)
      exact ⟨s, by rw [yuv2Rows_zero hwidth, hadd, Option.map_some], hs⟩
  rw [yuv2Rgb, if_neg (by decide), if_neg (by decide), hrun, Option.map_some]

theorem exists_yuv2Rows {k : ℕ} {out : ℤ × List UInt8} (hk : k < (height.toNat + 1) / 2)
    (h : yuv2Rgb YUV_TYPE_I420 width height p.y p.u p.v dst = some out) :
    ∃ s t, yuv2Rows width p.y p.u p.v (2 * k) s = some t := by
  rw [yuv2Rgb, if_neg (by decide), if_neg (by decide)] at h
  obtain ⟨t, hrun, -⟩ := Option.map_eq_some_iff.mp h
  obtain ⟨s, t, -, hturn⟩ := exists_turn (I := fun _ _ => True) hrun trivial
    (fun _ _ _ _ _ _ => trivial) hk
  exact ⟨s, t, hturn⟩

theorem yuv2Rgb_zero_eq_none (hwidth : width.toNat = 0) (hheight : 2 ^ 31 ≤ height.toNat) :
    yuv2Rgb YUV_TYPE_I420 width height p.y p.u p.v dst = none := by
  cases h : yuv2Rgb YUV_TYPE_I420 width height p.y p.u p.v dst with
  | none => rfl
  | some out =>
    obtain ⟨s, t, hturn⟩ := exists_yuv2Rows (k := 2 ^ 30 - 1) (by omega) h
    rw [yuv2Rows_zero hwidth] at hturn
    obtain ⟨x, hadd, -⟩ := Option.map_eq_some_iff.mp hturn
    have hlt := (CInt.eq_of_add hadd).2
    omega

theorem yuv2Rgb_eq_none (hw : width.toNat % 2 = 0) (hh : height.toNat % 2 = 0)
    (hlt : width.toNat * height.toNat * 3 < 2 ^ 31) (hwidth : width.toNat ≠ 0)
    (hheight : 4 ≤ height.toNat) :
    yuv2Rgb YUV_TYPE_I420 width height p.y p.u p.v dst = none := by
  cases h : yuv2Rgb YUV_TYPE_I420 width height p.y p.u p.v dst with
  | none => rfl
  | some out =>
    obtain ⟨s, t, hturn⟩ := exists_yuv2Rows (k := height.toNat / 2 - 1) (by omega) h
    obtain ⟨t', hrun, -⟩ := Option.bind_eq_some_iff.mp hturn
    obtain ⟨s', t'', -, hblock⟩ := exists_turn (I := fun _ _ => True) hrun trivial
      (fun _ _ _ _ _ _ => trivial) (show width.toNat / 2 - 1 < (width.toNat + 1) / 2 by omega)
    obtain ⟨c, hread, -⟩ := Option.bind_eq_some_iff.mp hblock
    have hread' := (List.getElem?_eq_some_iff.mp hread).1
    obtain ⟨a, ha⟩ := Nat.dvd_of_mod_eq_zero hw
    obtain ⟨b, hb⟩ := Nat.dvd_of_mod_eq_zero hh
    have hmax := width.toNat_lt
    have hmax' := height.toNat_lt
    have hproduct : (b - 1) * (2 * a) ≤ width.toNat * height.toNat := by
      rw [ha, hb, Nat.mul_comm]
      exact Nat.mul_le_mul_left _ (by omega)
    have hcolumn : a ≤ width.toNat * height.toNat :=
      (show a ≤ width.toNat by omega).trans (Nat.le_mul_of_pos_right _ (by omega))
    have hrows : 2 * (height.toNat / 2 - 1) / 2 = b - 1 := by omega
    have hcolumns : 2 * (width.toNat / 2 - 1) / 2 = a - 1 := by omega
    have hindex : (UInt32.ofNat (b - 1) * width + UInt32.ofNat (a - 1)).toNat =
        (b - 1) * (2 * a) + (a - 1) := by
      rw [UInt32.toNat_add, UInt32.toNat_mul, toNat_ofNat (by omega), toNat_ofNat (by omega), ha,
        Nat.mod_eq_of_lt (a := (b - 1) * (2 * a)) (by omega), Nat.mod_eq_of_lt (by omega)]
    have hlen : p.u.length = a * b := by
      rw [p.length_u, ha, hb, Nat.mul_div_cancel_left a (by decide),
        Nat.mul_div_cancel_left b (by decide)]
    rw [hrows, hcolumns, hindex, hlen] at hread'
    obtain ⟨b, rfl⟩ : ∃ c, b = c + 2 := ⟨b - 2, by omega⟩
    have hsub : b + 2 - 1 = b + 1 := rfl
    have hexpand : (b + 1) * (2 * a) = 2 * (a * b) + 2 * a := by ring
    have hexpand' : a * (b + 2) = a * b + 2 * a := by ring
    rw [hsub] at hread'
    omega

theorem yuv420ToRgb_i420 (p : Planes width.toNat height.toNat) (hw : width.toNat % 2 = 0)
    (hh : height.toNat % 2 = 0) (hlt : width.toNat * height.toNat * 3 < 2 ^ 31)
    (hdst : dst.length = width.toNat * height.toNat * 3) :
    yuv420ToRgb YUV_TYPE_I420 width height (p.y ++ p.u ++ p.v) dst =
      some (p.picture (width.toNat * height.toNat)) := by
  have hframe : p.y ++ p.u ++ p.v = Layout.i420.frame p := List.append_assoc ..
  rw [hframe]
  exact yuv420ToRgb_eq p .i420 hw hh hlt hdst

theorem not_agrees_of_none
    (hnone : ∀ dst, yuv2Rgb YUV_TYPE_I420 width height p.y p.u p.v dst = none) : ¬ p.Agrees := by
  intro hagrees
  obtain ⟨bytes, -, hrun⟩ := hagrees (List.replicate _ 0) List.length_replicate
  rw [hnone] at hrun
  simp at hrun

theorem agrees_of_empty (hw : width.toNat % 2 = 0) (hh : height.toNat % 2 = 0)
    (hzero : width.toNat * height.toNat = 0)
    (hrun : ∀ dst, yuv2Rgb YUV_TYPE_I420 width height p.y p.u p.v dst = some (0, dst)) :
    p.Agrees := by
  intro dst hdst
  have hlt : width.toNat * height.toNat * 3 < 2 ^ 31 := by omega
  refine ⟨dst, ?_, hrun dst⟩
  rw [yuv420ToRgb_i420 p hw hh hlt hdst, hzero]
  rw [hzero] at hdst
  rw [List.length_eq_zero_iff.mp hdst]
  rfl

theorem agrees_two_iff (htwo : height.toNat = 2) (hw : width.toNat % 2 = 0)
    (hlt : width.toNat * height.toNat * 3 < 2 ^ 31) :
    p.Agrees ↔ ∀ n < width.toNat * 2,
      p.pixel (n / width.toNat) (n % width.toNat) = p.pixel (n % 4 / 2) (2 * (n / 4) + n % 2) := by
  have hh : height.toNat % 2 = 0 := by rw [htwo]
  have hsize : width.toNat * height.toNat = width.toNat * 2 := by rw [htwo]
  have hblocks (dst : List UInt8) (hdst : dst.length = width.toNat * height.toNat * 3) :
      yuv2Rgb YUV_TYPE_I420 width height p.y p.u p.v dst =
        some (0, pixels p.blockPixel (width.toNat * 2)) := by
    rw [hsize] at hlt hdst
    exact yuv2Rgb_two htwo hw hlt hdst
  have hpixels := pixels_eq_iff (f := fun k => p.pixel (k / width.toNat) (k % width.toNat))
    (g := p.blockPixel) (n := width.toNat * 2) (fun _ => rfl) (fun _ => rfl)
  constructor
  · intro hagrees
    have hlen : (List.replicate (width.toNat * height.toNat * 3) (0 : UInt8)).length =
        width.toNat * height.toNat * 3 := List.length_replicate
    obtain ⟨bytes, hrun, hrun'⟩ := hagrees _ hlen
    rw [yuv420ToRgb_i420 p hw hh hlt hlen, Planes.picture, hsize] at hrun
    rw [hblocks _ hlen, ← Option.some.inj hrun] at hrun'
    exact hpixels.mp (Prod.mk.inj (Option.some.inj hrun')).2.symm
  · intro hall dst hdst
    refine ⟨_, yuv420ToRgb_i420 p hw hh hlt hdst, ?_⟩
    rw [hblocks dst hdst, Planes.picture, hsize]
    exact congrArg (fun bytes => some ((0 : ℤ), bytes)) (hpixels.mpr hall).symm

/-- The two conversions agree exactly for a picture without rows, for one without columns whose
rows `int` can count, and for one of two rows that looks the same block by block. -/
theorem yuv2Rgb_agrees_iff (p : Planes width.toNat height.toNat) (hw : width.toNat % 2 = 0)
    (hh : height.toNat % 2 = 0) (hlt : width.toNat * height.toNat * 3 < 2 ^ 31) :
    p.Agrees ↔ height.toNat = 0 ∨ (width.toNat = 0 ∧ height.toNat < 2 ^ 31) ∨
      (height.toNat = 2 ∧ ∀ n < width.toNat * 2, p.pixel (n / width.toNat) (n % width.toNat) =
        p.pixel (n % 4 / 2) (2 * (n / 4) + n % 2)) := by
  obtain hzero | hwidth := Nat.eq_zero_or_pos width.toNat
  · by_cases hheight : height.toNat < 2 ^ 31
    · have hproduct : width.toNat * height.toNat = 0 := by rw [hzero, Nat.zero_mul]
      exact iff_of_true (agrees_of_empty hw hh hproduct fun dst => yuv2Rgb_zero hzero hh hheight)
        (.inr (.inl ⟨hzero, hheight⟩))
    · refine iff_of_false (not_agrees_of_none fun dst =>
        yuv2Rgb_zero_eq_none hzero (not_lt.mp hheight)) ?_
      omega
  · obtain hnil | htwo | hfour : height.toNat = 0 ∨ height.toNat = 2 ∨ 4 ≤ height.toNat := by omega
    · have hproduct : width.toNat * height.toNat = 0 := by rw [hnil, Nat.mul_zero]
      refine iff_of_true (agrees_of_empty hw hh hproduct fun dst => ?_) (.inl hnil)
      have hloop : (height.toNat + 1) / 2 = 0 := by rw [hnil]
      rw [yuv2Rgb, if_neg (by decide), if_neg (by decide), hloop]
      rfl
    · rw [agrees_two_iff htwo hw hlt]
      constructor
      · exact fun hall => .inr (.inr ⟨htwo, hall⟩)
      · rintro (hnil | ⟨hzero, -⟩ | ⟨-, hall⟩)
        · omega
        · omega
        · exact hall
    · refine iff_of_false (not_agrees_of_none fun dst =>
        yuv2Rgb_eq_none hw hh hlt hwidth.ne' hfour) ?_
      omega

theorem agrees_square : @Planes.Agrees 2 2 square :=
  (@yuv2Rgb_agrees_iff 2 2 square (by decide) (by decide) (by decide)).mpr
    (.inr (.inr ⟨rfl, by decide⟩))

/-- Four rows of two black pixels. -/
def tall : Planes 2 4 where
  y := [16, 16, 16, 16, 16, 16, 16, 16]
  u := [128, 128]
  v := [128, 128]
  length_y := rfl
  length_u := rfl
  length_v := rfl

theorem not_agrees_tall : ¬ @Planes.Agrees 2 4 tall := by
  intro hagrees
  obtain ⟨bytes, -, hrun⟩ := hagrees (List.replicate 24 0) rfl
  have hnone : yuv2Rgb YUV_TYPE_I420 2 4 tall.y tall.u tall.v (List.replicate 24 0) = none :=
    @yuv2Rgb_eq_none 2 4 tall _ (by decide) (by decide) (by decide) (by decide) (by decide)
  rw [hnone] at hrun
  simp at hrun

end Blocks

end Mbtk.Yuv
